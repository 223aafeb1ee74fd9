import LoofOS.Contiguous
import LoofOS.RootDirectory

/-!
# What the Result Zero Says

The files and directories of a volume form a tree (`Tree`): a directory has a listing, and a
component of a path names the first file of the listing that matches. `read_file_exfat`
returns a number of bytes, with zero for a path that it has not found. It does not look at
the attribute that tells directories from files, and the number of bytes is rounded up in 32
bits.

A directory is searched in what has been loaded of it: of the root directory one cluster, of
the others the clusters to which the entries of the FAT lead, up to the number that the size
announces. The search gives what the listing says if these are the first clusters of the
directory and decide about the component (`Decides`). As long as this is so along the path, the
walk over the components goes along the tree. Then the result is right exactly if loading the
last file ends and announces a cluster, and no regular file that has clusters stands for a
component before the last (`walk_right_iff`).

## Main results

* `HoldsClusters.finds`: the search in clusters that decide is the lookup in the listing.
* `walk_right_iff`: one path, by recursion over its components.
* `zeroMeansMissing_iff`: when the result zero means that the path is missing.
-/

namespace LoofOS

open LinkedChain

/-! ### The tree -/

/-- A file or directory as its entries describe it, with the attribute `directory` and the
flag `nofatchain`. -/
structure DirNode where
  file : DirFile
  directory : Bool
  noFatChain : Bool

/-- What is in a directory, in order; `none` is an entry that belongs to no file. -/
abbrev Listing := List (Option DirNode)

/-- The listings of the root directory and of all other directories. -/
structure Tree where
  root : Listing
  contents : DirNode → Listing

/-- A file as an item of a directory. -/
def toItem : Option DirNode → DirItem
  | none => .other
  | some d => .file d.file

/-- The component is the mapped name. -/
def DirNode.Named (d : DirNode) (upcaseTable : ℕ → ℕ) (component : List Int8) : Prop :=
  d.file.name.map (fun a => ((upcaseTable a : ℕ) : ℤ)) = component.map Int8.toInt

instance (d : DirNode) (upcaseTable : ℕ → ℕ) (component : List Int8) :
    Decidable (d.Named upcaseTable component) := inferInstanceAs (Decidable (_ = _))

/-- The file for which a component stands. -/
def lookup (upcaseTable : ℕ → ℕ) (listing : Listing) (component : List Int8) : Option DirNode :=
  (listing.filterMap id).find? fun d => d.Named upcaseTable component

/-- The number of entries of a listing. -/
def entriesIn (listing : Listing) : ℕ := entriesOf (listing.map toItem)

/-- The file or directory that the components name exists. -/
def Tree.Exists (t : Tree) (upcaseTable : ℕ → ℕ) : Listing → List (List Int8) → Prop
  | _, [] => True
  | listing, component :: rest => ∃ d, lookup upcaseTable listing component = some d ∧
      (rest = [] ∨ d.directory = true ∧ t.Exists upcaseTable (t.contents d) rest)

/-- The directories in which components are looked up. -/
def Tree.lookups (t : Tree) (upcaseTable : ℕ → ℕ) : Listing → List (List Int8) → ℕ
  | _, [] => 0
  | listing, component :: rest => 1 + (lookup upcaseTable listing component).elim 0 fun d =>
      if d.directory = true then t.lookups upcaseTable (t.contents d) rest else 0

/-- The file or directory is in the tree. -/
inductive Tree.Lists (t : Tree) : DirNode → Prop
  | root {d : DirNode} : some d ∈ t.root → t.Lists d
  | inside {p d : DirNode} : t.Lists p → p.directory = true → some d ∈ t.contents p → t.Lists d

/-! ### The tree on the drive -/

/-- The entries of a file or directory, with its attribute and its flag. -/
structure HoldsNode (m : Mem) (base i : ℕ) (d : DirNode) : Prop where
  set : HoldsSet m base i d.file
  directory : d.directory = decide ((m (base + 32 * i + 4)).toNat / 16 % 2 = 1)
  noFatChain : d.noFatChain = decide ((m (base + 32 * (i + 1) + 1)).toNat / 2 % 2 = 1)

/-- The listing is in memory, in the entries from `i` to `n` of the directory at `base`. -/
def HoldsListing (m : Mem) (base n : ℕ) : ℕ → Listing → Prop
  | i, [] => i = n
  | i, none :: rest => m (base + 32 * i) ≠ 0x85 ∧ HoldsListing m base n (i + 1) rest
  | i, some d :: rest => HoldsNode m base i d ∧
      HoldsListing m base n (i + (d.file.nameEntries + 2)) rest

/-- A directory is stored: its data is in clusters of the volume, takes all of them, and is
its listing. -/
structure StoredDirectory (v : Volume) (disk : Mem) (d : DirNode) (listing : Listing)
    (l : List ℕ) : Prop where
  data : DataIn v disk d.file.extension d.noFatChain l
  cluster : ∀ c ∈ l, 2 ≤ c ∧ c < v.clusterCount + 2
  size : d.file.extension.dataLength = l.length * v.clusterBytes
  holds : HoldsListing (v.inRow disk l) 0 (l.length * v.clusterBytes / 32) 0 listing

/-- The directories of the tree are stored on the drive, the root directory in the clusters of
its chain. -/
structure StoresTree (v : Volume) (disk : Mem) (root : ℕ) (l : List ℕ) (t : Tree) : Prop where
  chain : Chain (v.fatEntry disk) root (root :: l) endOfChain
  cluster : ∀ c ∈ root :: l, 2 ≤ c ∧ c < v.clusterCount + 2
  holds : HoldsListing (v.inRow disk (root :: l)) 0 ((root :: l).length * v.clusterBytes / 32) 0
    t.root
  directory : ∀ d, t.Lists d → d.directory = true → ∃ l, StoredDirectory v disk d (t.contents d) l

/-! ### What is searched -/

/-- The clusters that are loaded of a file: consecutive ones if the entry of the FAT that is
used for the first one is zero, otherwise those to which the entries lead. -/
def Loads (v : Volume) (disk : Mem) (e : Extension) (loaded : List ℕ) : Prop :=
  (fatNext v disk e.firstCluster = some 0 ∧
      loaded = (List.range (clusterCountOf v e)).map fun j => wrap32 (e.firstCluster + j)) ∨
    (fatNext v disk e.firstCluster ≠ some 0 ∧ Follows v disk e.firstCluster loaded)

/-- The clusters `shared` are the first ones of a directory in the clusters `l` and the first
ones that are loaded of it, the search of `n` clusters goes over them, and there is room for
what is loaded. -/
structure Shares (v : Volume) (dest : ℕ) (l loaded : List ℕ) (n : ℕ) (shared : List ℕ) :
    Prop where
  stored : shared <+: l
  read : shared <+: loaded
  searched : shared.length ≤ n
  heap : ∀ c ∈ shared, v.clusterStart c < 2 ^ 32
  room : dest + v.clusterBytes * loaded.length ≤ 2 ^ 32

/-- The first `k` of `n` clusters that are searched decide about a component: its file ends in
them, or it has none, they are all that is searched, and no file crosses their end. -/
def Decides (v : Volume) (upcaseTable : ℕ → ℕ) (listing : Listing) (component : List Int8)
    (k n : ℕ) : Prop :=
  ∃ before after, listing = before ++ after ∧
    (((lookup upcaseTable before component).isSome ∧
        32 * entriesIn before ≤ k * v.clusterBytes) ∨
      (lookup upcaseTable listing component = none ∧ k = n ∧
        32 * entriesIn before = k * v.clusterBytes))

/-- Along the path, the directories are searched in clusters of theirs that decide about the
component. The directory is in the clusters `l`; the clusters `loaded` have been loaded for it
and `n` were announced. -/
def Tree.SearchesRight (t : Tree) (v : Volume) (disk : Mem) (upcaseTable : ℕ → ℕ) (dest : ℕ) :
    Listing → List ℕ → List ℕ → ℕ → List (List Int8) → Prop
  | _, _, _, _, [] => True
  | listing, l, loaded, n, component :: rest =>
      (∃ shared, Shares v dest l loaded n shared ∧
        Decides v upcaseTable listing component shared.length n) ∧
      ∀ d l' loaded', lookup upcaseTable listing component = some d → d.directory = true →
        StoredDirectory v disk d (t.contents d) l' → Loads v disk d.file.extension loaded' →
        t.SearchesRight v disk upcaseTable dest (t.contents d) l' loaded'
          (clusterCountOf v d.file.extension) rest

/-! ### The result -/

/-- Loading the file ends: the entry that is used for its first cluster is zero, or the
entries lead to an end. -/
def LoadEnds (v : Volume) (disk : Mem) (e : Extension) : Prop :=
  fatNext v disk e.firstCluster = some 0 ∨ ∃ l, Follows v disk e.firstCluster l

/-- The length, rounded up in 32 bits, is at least a cluster. -/
def Extension.TakesCluster (e : Extension) (v : Volume) : Prop :=
  v.clusterBytes ≤ (e.dataLength + v.clusterBytes - 1) % 2 ^ 32

instance (e : Extension) (v : Volume) : Decidable (e.TakesCluster v) :=
  inferInstanceAs (Decidable (_ ≤ _))

/-- Along the path loading ends, a regular file before the last component takes no cluster,
and the last file takes one. -/
def Tree.ReadsRight (t : Tree) (v : Volume) (disk : Mem) (upcaseTable : ℕ → ℕ) :
    Listing → List (List Int8) → Prop
  | _, [] => True
  | listing, component :: rest => ∀ d, lookup upcaseTable listing component = some d →
      LoadEnds v disk d.file.extension ∧
        if rest = [] then d.file.extension.TakesCluster v
        else if d.directory = true then t.ReadsRight v disk upcaseTable (t.contents d) rest
        else ¬ d.file.extension.TakesCluster v

/-- `read_file_exfat` returns, with zero exactly if the path is missing, and has searched no
more than the directories on the path. -/
def ZeroMeansMissing (v : Volume) (root : ℕ) (disk : Mem) (stack : ℕ → Mem)
    (upcaseTable : ℕ → ℕ) (m : Mem) (dest : ℕ) (t : Tree) (path : List Int8) : Prop :=
  ∃ fuel n s, readFileExfat v root disk stack upcaseTable fuel m path dest = some (n, s) ∧
    (n = 0 ↔ ¬ t.Exists upcaseTable t.root (components path)) ∧
    s.calls.length ≤ t.lookups upcaseTable t.root (components path)

/-! ### The search in a directory -/

section Listings

variable {v : Volume} {disk m : Mem} {upcaseTable : ℕ → ℕ} {listing : Listing} {base n i : ℕ}

/-- A stored listing is stored as sets of entries. -/
theorem HoldsListing.holdsSets (h : HoldsListing m base n i listing) :
    HoldsSets m base n i (listing.map toItem) := by
  induction listing generalizing i with
  | nil => exact h
  | cons item rest ih =>
      cases item with
      | none => exact ⟨h.1, ih h.2⟩
      | some d => exact ⟨h.1.set, ih h.2⟩

/-- Entries that belong to no file. -/
theorem holdsListing_replicate {k : ℕ} (h : ∀ j < k, m (base + 32 * (i + j)) ≠ 0x85) :
    HoldsListing m base (i + k) i (List.replicate k none) := by
  induction k generalizing i with
  | zero => exact rfl
  | succ k ih =>
      refine ⟨h 0 (Nat.succ_pos k), ?_⟩
      rw [Nat.add_comm k, ← Nat.add_assoc]
      refine ih fun j hj => ?_
      rw [Nat.add_right_comm i 1 j]
      exact h (j + 1) (Nat.succ_lt_succ hj)

/-- The files of a stored listing are the listed ones. -/
theorem filesOf_map_toItem (listing : Listing) :
    filesOf (listing.map toItem) = (listing.filterMap id).map DirNode.file := by
  induction listing with
  | nil => rfl
  | cons item rest ih =>
      cases item with
      | none => exact ih
      | some d =>
          rw [List.map_cons, toItem, filesOf, ih]
          rfl

/-- A file matches the call for a component exactly when it has that name. -/
theorem matches_componentCall (d : DirNode) (dest : ℕ) (component : List Int8) (n : ℕ) :
    d.file.Matches upcaseTable (componentCall dest component n) ↔
      d.Named upcaseTable component := by
  rw [DirNode.Named]
  constructor
  · rintro ⟨hlen, hchar⟩
    have hlen' : d.file.name.length = component.length := hlen
    refine List.ext_getElem (by rw [List.length_map, List.length_map, hlen']) fun j hj hj' => ?_
    rw [List.length_map] at hj hj'
    rw [List.getElem_map, List.getElem_map, hchar j hj]
    change (component.getD j 0).toInt = _
    rw [List.getD_eq_getElem?_getD, List.getElem?_eq_getElem hj']
    rfl
  · intro heq
    have hlen : d.file.name.length = component.length := by
      have := congrArg List.length heq
      rwa [List.length_map, List.length_map] at this
    refine ⟨hlen, fun j hj => ?_⟩
    have hget := List.getElem_of_eq heq (by rwa [List.length_map])
    rw [List.getElem_map, List.getElem_map] at hget
    rw [hget]
    change _ = (component.getD j 0).toInt
    rw [List.getD_eq_getElem?_getD, List.getElem?_eq_getElem (hlen ▸ hj)]
    rfl

/-- The files that match are those that the component names. -/
theorem find?_filesOf (listing : Listing) (dest : ℕ) (component : List Int8) (n : ℕ) :
    ((filesOf (listing.map toItem)).find? fun f =>
      f.Matches upcaseTable (componentCall dest component n))
      = (lookup upcaseTable listing component).map DirNode.file := by
  rw [filesOf_map_toItem, List.find?_map, lookup]
  refine congrArg (Option.map DirNode.file) (List.find?_congr fun d _ => ?_)
  exact decide_eq_decide.mpr (matches_componentCall d dest component n)

/-- Looking up goes through the first part, then the second. -/
theorem lookup_append (before after : Listing) (component : List Int8) :
    lookup upcaseTable (before ++ after) component
      = (lookup upcaseTable before component).or (lookup upcaseTable after component) := by
  rw [lookup, List.filterMap_append, List.find?_append]
  rfl

/-- A listing with a match has entries. -/
theorem entriesIn_pos {component : List Int8} {d : DirNode}
    (h : lookup upcaseTable listing component = some d) : 0 < entriesIn listing := by
  cases listing with
  | nil => cases h
  | cons item rest =>
      rw [entriesIn, List.map_cons, entriesOf, List.map_cons, List.sum_cons]
      exact Nat.add_pos_left (toItem item).size_pos _

/-- A first cluster that is read from an entry is a 32-bit value. -/
theorem HoldsListing.firstCluster_lt (h : HoldsListing m base n i listing) {d : DirNode}
    (hd : some d ∈ listing) : d.file.extension.firstCluster < 2 ^ 32 := by
  induction listing generalizing i with
  | nil => exact absurd hd List.not_mem_nil
  | cons item rest ih =>
      rcases List.mem_cons.mp hd with rfl | hrest
      · rw [← h.1.set.firstCluster]
        exact Mem.read32_lt _ _
      · cases item with
        | none => exact ih h.2 hrest
        | some d' => exact ih h.2 hrest

/-- All entries are those of the listing. -/
theorem HoldsListing.entriesIn_eq (h : HoldsListing m base n i listing) :
    i + entriesIn listing = n := by
  have hsets := h.holdsSets
  rw [← List.append_nil (listing.map toItem)] at hsets
  exact (holdsSets_append.mp hsets).2

/-- What is found is listed. -/
theorem mem_of_lookup {component : List Int8} {d : DirNode}
    (h : lookup upcaseTable listing component = some d) : some d ∈ listing := by
  obtain ⟨item, hitem, heq⟩ := List.mem_filterMap.mp (List.mem_of_find?_eq_some h)
  exact heq ▸ hitem

end Listings

/-! ### Loading a directory -/

section Loading

variable {v : Volume} {disk stack m : Mem} {dest : ℕ} {e : Extension} {l : List ℕ}

/-- `load_file` returns exactly when the clusters it reads come to an end. -/
theorem loadEnds_iff (hid : 0 < v.idPerCluster) :
    (∃ fuel r, loadFile v disk stack fuel m dest e = some r) ↔ LoadEnds v disk e := by
  constructor
  · rintro ⟨fuel, r, hr⟩
    rcases (loadFile_loaded_iff hid).mp ⟨fuel, r, hr, rfl⟩ with ⟨hzero, -⟩ | ⟨-, hfollows⟩
    · exact Or.inl hzero
    · exact Or.inr ⟨_, hfollows⟩
  · intro hends
    have hloaded : ∃ l, ∃ fuel r, loadFile v disk stack fuel m dest e = some r ∧ r.loaded = l := by
      by_cases hzero : fatNext v disk e.firstCluster = some 0
      · exact ⟨_, (loadFile_loaded_iff hid).mpr (Or.inl ⟨hzero, rfl⟩)⟩
      · obtain ⟨l, hfollows⟩ := hends.resolve_left hzero
        exact ⟨l, (loadFile_loaded_iff hid).mpr (Or.inr ⟨hzero, hfollows⟩)⟩
    obtain ⟨-, fuel, r, hr, -⟩ := hloaded
    exact ⟨fuel, r, hr⟩

/-- Every file is placed cluster by cluster. -/
theorem placed_loadFile (hpos : 0 < v.clusterBytes) (hid : 0 < v.idPerCluster) {fuel : ℕ}
    {r : FileRead} (h : loadFile v disk stack fuel m dest e = some r) : Placed v disk m dest r := by
  rw [loadFile_eq hid] at h
  obtain ⟨d, -, h⟩ := Option.bind_eq_some_iff.mp h
  split at h
  · obtain rfl := Option.some.inj h
    exact placed_loadConsecutive hpos _
  · exact placed_linkLoop hpos rfl (placed_nil disk m dest) (Option.join_eq_some_iff.mp h)

/-- A part of the clusters in front. -/
theorem inRow_prefix {shared : List ℕ} (h : shared <+: l) {a : ℕ}
    (ha : a < v.clusterBytes * shared.length) : v.inRow disk shared a = v.inRow disk l a := by
  have hi : a / v.clusterBytes < shared.length := Nat.div_lt_of_lt_mul ha
  rw [Volume.inRow, Volume.inRow, List.getD_eq_getElem?_getD, List.getD_eq_getElem?_getD,
    List.getElem?_eq_getElem hi, List.getElem?_eq_getElem (hi.trans_le h.length_le),
    h.getElem hi]

/-- **What is loaded** is what the clusters hold, one after the other. -/
theorem loaded_agrees (hv : v.Sized) (haligned : v.HeapAligned) {fuel : ℕ} {r : FileRead}
    (h : loadFile v disk stack fuel m dest e = some r)
    (hfit : dest + v.clusterBytes * r.loaded.length ≤ 2 ^ 32) {shared : List ℕ}
    (hshared : shared <+: r.loaded) (hin : ∀ c ∈ shared, 2 ≤ c ∧ v.clusterStart c < 2 ^ 32)
    {a : ℕ} (ha : a < v.clusterBytes * shared.length) :
    r.mem (dest + a) = v.inRow disk shared a := by
  have hpos := hv.clusterBytes_pos
  obtain ⟨hmem, -⟩ := placed_loadFile hpos hv.idPerCluster_pos h hfit
  have hi : a / v.clusterBytes < shared.length := Nat.div_lt_of_lt_mul ha
  have hget := hmem _ (hi.trans_le hshared.length_le) _ (Nat.mod_lt a hpos)
  obtain ⟨htwo, hstart⟩ := hin _ (List.getElem_mem hi)
  rw [← hshared.getElem hi, Nat.add_assoc, Nat.div_add_mod,
    getHeapLba_mul hv.shift hv.dvd haligned htwo hstart] at hget
  rw [hget, Volume.inRow, List.getD_eq_getElem?_getD, List.getElem?_eq_getElem hi]
  rfl

/-- The search covers the entries of the clusters that were announced. -/
theorem entryCount_of_lt (hv : v.Sized) {call : FileCall}
    (hlt : call.clusters * v.clusterBytes < 2 ^ 32) :
    entryCount v call = call.clusters * v.clusterBytes / 32 := by
  obtain ⟨hbytes, -⟩ := hv.clusterBytes_eq
  have hbit : bit32 v.sectorsPerClusterShift = 2 ^ v.sectorsPerClusterShift :=
    bit32_of_lt (by have := hv.shift; omega)
  have hsize : v.shiftCluster call.clusters * 512 = call.clusters * v.clusterBytes := by
    rw [Volume.shiftCluster, hbit, hbytes]
    ring
  have hdvd : v.driveBytesPerSector ∣ call.clusters * v.clusterBytes := by
    rw [hbytes]
    exact hv.dvd.mul_left _
  rw [entryCount, Volume.getClusterSize, hsize, wrap32_of_lt hlt, Nat.mul_div_cancel' hdvd,
    wrap32_of_lt hlt]

/-- The announced clusters take less than 4 GiB. -/
theorem clusterCountOf_mul_lt (hv : v.Sized) : clusterCountOf v e * v.clusterBytes < 2 ^ 32 := by
  rw [clusterCountOf_eq hv.clusterBytes_pos]
  exact (Nat.div_mul_le_self _ _).trans_lt (Nat.mod_lt _ (Nat.two_pow_pos 32))

/-- A file takes no cluster exactly when its clusters number zero. -/
theorem clusterCountOf_eq_zero_iff (hv : v.Sized) :
    clusterCountOf v e = 0 ↔ ¬ e.TakesCluster v := by
  rw [clusterCountOf_eq hv.clusterBytes_pos, Nat.div_eq_zero_iff_lt hv.clusterBytes_pos,
    Extension.TakesCluster, Nat.not_le]

end Loading

/-! ### One component -/

section Components

variable {v : Volume} {disk : Mem} {stack : ℕ → Mem} {upcaseTable : ℕ → ℕ} {dest fuel : ℕ}
  {s : WalkState} {listing : Listing} {component : List Int8} {rest : List (List Int8)}
  {d : DirNode}

/-- Clusters have been loaded in the state, and `n` were announced. -/
structure HoldsClusters (v : Volume) (disk : Mem) (dest : ℕ) (s : WalkState) (loaded : List ℕ)
    (n : ℕ) : Prop where
  count : s.dirsClusters = n
  bytes : n * v.clusterBytes < 2 ^ 32
  agrees : dest + v.clusterBytes * loaded.length ≤ 2 ^ 32 → ∀ shared, shared <+: loaded →
    (∀ c ∈ shared, 2 ≤ c ∧ v.clusterStart c < 2 ^ 32) →
      ∀ a < v.clusterBytes * shared.length, s.mem (dest + a) = v.inRow disk shared a

/-- The search for the component gives what the listing says. -/
def Finds (v : Volume) (upcaseTable : ℕ → ℕ) (dest : ℕ) (s : WalkState) (listing : Listing)
    (component : List Int8) : Prop :=
  findFile v upcaseTable s.mem (componentCall dest component s.dirsClusters)
    = some ((lookup upcaseTable listing component).map fun d => d.file.extension)

/-- In clusters that are not searched nothing is found. -/
theorem Decides.lookup_eq_none {k : ℕ} (h : Decides v upcaseTable listing component k 0)
    (hk : k ≤ 0) : lookup upcaseTable listing component = none := by
  obtain ⟨before, after, -, ⟨hfound, hend⟩ | ⟨hnone, -⟩⟩ := h
  · obtain ⟨d, hd⟩ := Option.isSome_iff_exists.mp hfound
    have hpos := entriesIn_pos hd
    rw [Nat.le_zero.mp hk, Nat.zero_mul] at hend
    omega
  · exact hnone

/-- **The search in a directory** is the lookup in its listing, if the clusters that are searched
decide about the component. -/
theorem HoldsClusters.finds (hv : v.Sized) {l loaded shared : List ℕ} {n k : ℕ}
    (hs : HoldsClusters v disk dest s loaded n)
    (hlisting : HoldsListing (v.inRow disk l) 0 k 0 listing) (hcluster : ∀ c ∈ l, 2 ≤ c)
    (hshared : Shares v dest l loaded n shared)
    (hdecides : Decides v upcaseTable listing component shared.length n) :
    Finds v upcaseTable dest s listing component := by
  have hsearched := Nat.mul_le_mul_right v.clusterBytes hshared.searched
  have hcount : entryCount v (componentCall dest component s.dirsClusters)
      = n * v.clusterBytes / 32 := by
    rw [hs.count]
    exact entryCount_of_lt hv hs.bytes
  obtain ⟨before, after, rfl, hcases⟩ := hdecides
  have hend : 32 * entriesIn before ≤ shared.length * v.clusterBytes := by
    rcases hcases with ⟨-, hend⟩ | ⟨-, -, hend⟩
    · exact hend
    · exact hend.le
  -- the entries in front are where the search looks for them
  have hbefore : HoldsSets s.mem dest (entriesIn before) 0 (before.map toItem) := by
    have hsets := hlisting.holdsSets
    rw [List.map_append] at hsets
    obtain ⟨hfirst, -⟩ := holdsSets_append.mp hsets
    rw [Nat.zero_add] at hfirst
    refine hfirst.congr fun a ha => ?_
    have hlt : a < v.clusterBytes * shared.length := by
      rw [Nat.mul_comm]
      exact ha.trans_le hend
    rw [Nat.zero_add, ← inRow_prefix hshared.stored hlt]
    exact hs.agrees hshared.room shared hshared.read
      (fun c hc => ⟨hcluster c (hshared.stored.subset hc), hshared.heap c hc⟩) a hlt
  have hfind := @find?_filesOf upcaseTable before dest component s.dirsClusters
  rw [Finds]
  rcases hcases with ⟨hfound, -⟩ | ⟨hnone, hall, hlast⟩
  · obtain ⟨d, hd⟩ := Option.isSome_iff_exists.mp hfound
    rw [lookup_append, hd, Option.some_or, Option.map_some]
    rw [hd, Option.map_some] at hfind
    exact findFile_of_found hbefore (by rw [hcount]; omega) hfind
  · have hentries : entryCount v (componentCall dest component s.dirsClusters)
        = entriesIn before := by
      rw [hcount, ← hall, ← hlast, Nat.mul_div_cancel_left _ (Nat.succ_pos 31)]
    rw [← hentries] at hbefore
    rw [findFile_of_holdsSets hbefore, hfind]
    rw [lookup_append, Option.or_eq_none_iff] at hnone
    rw [lookup_append, hnone.1, hnone.2]
    rfl

/-- What a call leaves that has selected the file. -/
def afterCall (v : Volume) (s : WalkState) (e : Extension) (r : FileRead) : WalkState where
  dirsClusters := clusterCountOf v e
  mem := r.mem
  calls := s.calls ++ [⟨some e, r.loaded, clusterCountOf v e⟩]

/-- A component that is missing. -/
theorem walk_missing (hfound : Finds v upcaseTable dest s listing component)
    (hlookup : lookup upcaseTable listing component = none) (fuel : ℕ) (rest : List (List Int8)) :
    walkComponents v disk stack upcaseTable dest fuel s (component :: rest)
      = some (0, ⟨0, s.mem, s.calls ++ [⟨none, [], 0⟩]⟩) := by
  rw [Finds, hlookup, Option.map_none] at hfound
  have hread : readComponent v disk stack upcaseTable dest fuel s component
      = some ⟨0, s.mem, s.calls ++ [⟨none, [], 0⟩]⟩ := by
    simp only [readComponent, readFileExfatHelper, hfound]
    rfl
  rw [walkComponents, hread, Option.bind_some, if_pos rfl]

/-- A component that is found. -/
theorem readComponent_found (hfound : Finds v upcaseTable dest s listing component)
    (hlookup : lookup upcaseTable listing component = some d) (fuel : ℕ) :
    readComponent v disk stack upcaseTable dest fuel s component =
      (loadFile v disk (stack s.calls.length) fuel s.mem dest d.file.extension).map
        (afterCall v s d.file.extension) := by
  rw [Finds, hlookup, Option.map_some] at hfound
  simp only [readComponent, readFileExfatHelper, hfound, Option.bind_some, Option.map_map]
  rfl

/-- **Going on from a file** that has been loaded, in terms of any property of the result. -/
theorem walk_found (hfound : Finds v upcaseTable dest s listing component)
    (hlookup : lookup upcaseTable listing component = some d) {r : FileRead}
    (hload : loadFile v disk (stack s.calls.length) fuel s.mem dest d.file.extension = some r)
    (Q : ℕ → WalkState → Prop) :
    (∃ fuel n t, walkComponents v disk stack upcaseTable dest fuel s (component :: rest)
        = some (n, t) ∧ Q n t) ↔
      if clusterCountOf v d.file.extension = 0 then Q 0 (afterCall v s d.file.extension r)
      else ∃ fuel n t, walkComponents v disk stack upcaseTable dest fuel
        (afterCall v s d.file.extension r) rest = some (n, t) ∧ Q n t := by
  have hread : ∀ {fuel' : ℕ}, fuel ≤ fuel' →
      readComponent v disk stack upcaseTable dest fuel' s component
        = some (afterCall v s d.file.extension r) := fun hle => by
    rw [readComponent_found hfound hlookup, loadFile_mono hle hload, Option.map_some]
  have hcount : (afterCall v s d.file.extension r).dirsClusters
      = clusterCountOf v d.file.extension := rfl
  constructor
  · rintro ⟨fuel', n, t, hwalk, hq⟩
    have hwalk' := walkComponents_mono (Nat.le_max_left fuel' fuel) hwalk
    rw [walkComponents, hread (Nat.le_max_right fuel' fuel), Option.bind_some, hcount] at hwalk'
    split
    · rw [if_pos ‹_›] at hwalk'
      obtain ⟨rfl, rfl⟩ := Prod.mk.inj (Option.some.inj hwalk')
      exact hq
    · rw [if_neg ‹_›] at hwalk'
      exact ⟨_, n, t, hwalk', hq⟩
  · intro hgo
    split at hgo
    · refine ⟨fuel, 0, _, ?_, hgo⟩
      rw [walkComponents, hread (le_refl _), Option.bind_some, hcount, if_pos ‹_›]
    · obtain ⟨fuel', n, t, hwalk, hq⟩ := hgo
      refine ⟨max fuel' fuel, n, t, ?_, hq⟩
      rw [walkComponents, hread (Nat.le_max_right _ _), Option.bind_some, hcount, if_neg ‹_›]
      exact walkComponents_mono (Nat.le_max_left _ _) hwalk

/-- Every component that is walked over is a call. -/
theorem calls_le_of_walk {r : ℕ × WalkState}
    (h : walkComponents v disk stack upcaseTable dest fuel s rest = some r) :
    s.calls.length ≤ r.2.calls.length ∧ (rest ≠ [] → s.calls.length < r.2.calls.length) := by
  induction rest generalizing s with
  | nil =>
      obtain rfl := Option.some.inj h
      exact ⟨le_refl _, fun hne => absurd rfl hne⟩
  | cons c rest ih =>
      obtain ⟨s', hread, hrest⟩ := Option.bind_eq_some_iff.mp h
      have hlen : s'.calls.length = s.calls.length + 1 := by
        obtain ⟨x, -, rfl⟩ := Option.map_eq_some_iff.mp hread
        exact List.length_append
      suffices hle : s'.calls.length ≤ r.2.calls.length from ⟨by omega, fun _ => by omega⟩
      split at hrest
      · obtain rfl := Option.some.inj hrest
        exact le_refl _
      · exact (ih hrest).1

/-- **A file that has been loaded** is where the rest of the path is walked. -/
theorem holdsClusters_loaded (hv : v.Sized) (haligned : v.HeapAligned) {r : FileRead}
    (hload : loadFile v disk (stack s.calls.length) fuel s.mem dest d.file.extension = some r) :
    HoldsClusters v disk dest (afterCall v s d.file.extension r) r.loaded
      (clusterCountOf v d.file.extension) where
  count := rfl
  bytes := clusterCountOf_mul_lt hv
  agrees := fun hfit _ hshared hin _ ha => loaded_agrees hv haligned hload hfit hshared hin ha

end Components

/-! ### Whole paths -/

section Paths

variable {v : Volume} {disk : Mem} {stack : ℕ → Mem} {upcaseTable : ℕ → ℕ} {dest : ℕ} {t : Tree}

/-- The result of a walk from a directory is right. -/
def WalksRight (v : Volume) (disk : Mem) (stack : ℕ → Mem) (upcaseTable : ℕ → ℕ) (dest : ℕ)
    (t : Tree) (s : WalkState) (listing : Listing) (path : List (List Int8)) : Prop :=
  ∃ fuel n s', walkComponents v disk stack upcaseTable dest fuel s path = some (n, s') ∧
    (n = 0 ↔ ¬ t.Exists upcaseTable listing path) ∧
    s'.calls.length ≤ s.calls.length + t.lookups upcaseTable listing path

/-- A walk from a file that does not end is not right. -/
theorem loadEnds_of_walksRight (hid : 0 < v.idPerCluster) {s : WalkState} {listing : Listing}
    {component : List Int8} {rest : List (List Int8)} {d : DirNode}
    (hfound : Finds v upcaseTable dest s listing component)
    (hlookup : lookup upcaseTable listing component = some d)
    (hright : WalksRight v disk stack upcaseTable dest t s listing (component :: rest)) :
    LoadEnds v disk d.file.extension := by
  obtain ⟨fuel, n, s', hwalk, -⟩ := hright
  obtain ⟨s'', hread, -⟩ := Option.bind_eq_some_iff.mp hwalk
  rw [readComponent_found hfound hlookup] at hread
  obtain ⟨r, hr, -⟩ := Option.map_eq_some_iff.mp hread
  exact (loadEnds_iff hid).mp ⟨fuel, r, hr⟩

section Found

variable {s : WalkState} {listing : Listing} {component : List Int8} {rest : List (List Int8)}
  {d : DirNode} {fuel : ℕ} {r : FileRead}

/-- The last component is read right if its file announces a cluster. -/
theorem walksRight_last (hv : v.Sized) (hfound : Finds v upcaseTable dest s listing component)
    (hlookup : lookup upcaseTable listing component = some d)
    (hload : loadFile v disk (stack s.calls.length) fuel s.mem dest d.file.extension = some r) :
    WalksRight v disk stack upcaseTable dest t s listing [component] ↔
      clusterCountOf v d.file.extension ≠ 0 := by
  have hexists : t.Exists upcaseTable listing [component] := ⟨d, hlookup, Or.inl rfl⟩
  rw [WalksRight, walk_found hfound hlookup hload fun n s' =>
    (n = 0 ↔ ¬ t.Exists upcaseTable listing [component]) ∧
      s'.calls.length ≤ s.calls.length + t.lookups upcaseTable listing [component]]
  split
  · exact ⟨fun hright => absurd hexists (hright.1.mp rfl), fun hcount => absurd ‹_› hcount⟩
  · refine ⟨fun _ => ‹_›, fun hcount => ⟨0, _, _, rfl, ⟨fun hzero => ?_, fun hno => ?_⟩, ?_⟩⟩
    · exact absurd hzero (Nat.mul_ne_zero hcount hv.clusterBytes_pos.ne')
    · exact absurd hexists hno
    · rw [afterCall, List.length_append, Tree.lookups]
      exact Nat.add_le_add_left (Nat.le_add_right 1 _) _

/-- A regular file that stands for a component before the last is read right if it announces
no cluster: otherwise what it holds is searched. -/
theorem walksRight_file (hfound : Finds v upcaseTable dest s listing component)
    (hlookup : lookup upcaseTable listing component = some d)
    (hload : loadFile v disk (stack s.calls.length) fuel s.mem dest d.file.extension = some r)
    (hfile : d.directory ≠ true) (hrest : rest ≠ []) :
    WalksRight v disk stack upcaseTable dest t s listing (component :: rest) ↔
      clusterCountOf v d.file.extension = 0 := by
  have hexists : ¬ t.Exists upcaseTable listing (component :: rest) := by
    rintro ⟨d', hd', hlast | ⟨hdirectory, -⟩⟩
    · exact hrest hlast
    · obtain rfl := Option.some.inj (hlookup.symm.trans hd')
      exact hfile hdirectory
  have hlookups : t.lookups upcaseTable listing (component :: rest) = 1 := by
    rw [Tree.lookups, hlookup, Option.elim_some, if_neg hfile]
  have hcalls : (afterCall v s d.file.extension r).calls.length = s.calls.length + 1 :=
    List.length_append
  rw [WalksRight, walk_found hfound hlookup hload fun n s' =>
    (n = 0 ↔ ¬ t.Exists upcaseTable listing (component :: rest)) ∧
      s'.calls.length ≤ s.calls.length + t.lookups upcaseTable listing (component :: rest),
    hlookups]
  split
  · exact ⟨fun _ => ‹_›, fun _ => ⟨⟨fun _ => hexists, fun _ => rfl⟩, hcalls.le⟩⟩
  · refine ⟨?_, fun hzero => absurd hzero ‹_›⟩
    rintro ⟨fuel', n, s', hwalk, -, hle⟩
    have hlt := (calls_le_of_walk hwalk).2 hrest
    rw [hcalls] at hlt
    exact absurd hle (Nat.not_le.mpr hlt)

/-- Behind a directory the rest of the path is walked, if the directory announces clusters. -/
theorem walksRight_directory (hfound : Finds v upcaseTable dest s listing component)
    (hlookup : lookup upcaseTable listing component = some d)
    (hload : loadFile v disk (stack s.calls.length) fuel s.mem dest d.file.extension = some r)
    (hdirectory : d.directory = true) (hrest : rest ≠ []) :
    WalksRight v disk stack upcaseTable dest t s listing (component :: rest) ↔
      if clusterCountOf v d.file.extension = 0 then ¬ t.Exists upcaseTable (t.contents d) rest
      else WalksRight v disk stack upcaseTable dest t (afterCall v s d.file.extension r)
        (t.contents d) rest := by
  have hexists : t.Exists upcaseTable listing (component :: rest) ↔
      t.Exists upcaseTable (t.contents d) rest := by
    constructor
    · rintro ⟨d', hd', hlast | ⟨-, hexists⟩⟩
      · exact absurd hlast hrest
      · obtain rfl := Option.some.inj (hlookup.symm.trans hd')
        exact hexists
    · exact fun hexists => ⟨d, hlookup, Or.inr ⟨hdirectory, hexists⟩⟩
  have hlookups : t.lookups upcaseTable listing (component :: rest)
      = 1 + t.lookups upcaseTable (t.contents d) rest := by
    rw [Tree.lookups, hlookup, Option.elim_some, if_pos hdirectory]
  have hcalls : (afterCall v s d.file.extension r).calls.length = s.calls.length + 1 :=
    List.length_append
  rw [WalksRight, walk_found hfound hlookup hload fun n s' =>
    (n = 0 ↔ ¬ t.Exists upcaseTable listing (component :: rest)) ∧
      s'.calls.length ≤ s.calls.length + t.lookups upcaseTable listing (component :: rest),
    hexists, hlookups, ← Nat.add_assoc]
  split
  · refine ⟨fun hright => hright.1.mp rfl, fun hno => ⟨⟨fun _ => hno, fun _ => rfl⟩, ?_⟩⟩
    rw [hcalls]
    exact Nat.le_add_right _ _
  · rw [WalksRight, hcalls]

/-- Behind a directory the rest of the path is right as where it was loaded: if no clusters were
announced, they can decide only that the next component is missing. -/
theorem walksRight_contents {l loaded : List ℕ}
    (hsearch : t.SearchesRight v disk upcaseTable dest (t.contents d) l loaded
      (clusterCountOf v d.file.extension) rest) (hrest : rest ≠ [])
    (hrec : clusterCountOf v d.file.extension ≠ 0 →
      (WalksRight v disk stack upcaseTable dest t (afterCall v s d.file.extension r)
        (t.contents d) rest ↔ t.ReadsRight v disk upcaseTable (t.contents d) rest)) :
    (if clusterCountOf v d.file.extension = 0 then ¬ t.Exists upcaseTable (t.contents d) rest
      else WalksRight v disk stack upcaseTable dest t (afterCall v s d.file.extension r)
        (t.contents d) rest) ↔ t.ReadsRight v disk upcaseTable (t.contents d) rest := by
  by_cases hzero : clusterCountOf v d.file.extension = 0
  · obtain ⟨next, rest, rfl⟩ := List.exists_cons_of_ne_nil hrest
    obtain ⟨⟨shared, hshared, hdecides⟩, -⟩ := hsearch
    have hle := hshared.searched
    rw [hzero] at hdecides hle
    have hnone := hdecides.lookup_eq_none hle
    rw [if_pos hzero]
    refine ⟨fun _ d' hd' => ?_, fun _ hexists => ?_⟩
    · rw [hnone] at hd'
      cases hd'
    · obtain ⟨d', hd', -⟩ := hexists
      rw [hnone] at hd'
      cases hd'
  · rw [if_neg hzero]
    exact hrec hzero

end Found

/-- What is to be read right for a path whose first component is found. -/
theorem readsRight_found {listing : Listing} {component : List Int8} {d : DirNode}
    (hlookup : lookup upcaseTable listing component = some d) (rest : List (List Int8)) :
    t.ReadsRight v disk upcaseTable listing (component :: rest) ↔
      LoadEnds v disk d.file.extension ∧
        if rest = [] then d.file.extension.TakesCluster v
        else if d.directory = true then t.ReadsRight v disk upcaseTable (t.contents d) rest
        else ¬ d.file.extension.TakesCluster v := by
  rw [Tree.ReadsRight]
  simp only [hlookup, Option.some.injEq, forall_eq']

/-- A path whose first component is not found is right, and nothing has to be read for it. -/
theorem walk_right_missing {s : WalkState} {listing : Listing} {component : List Int8}
    (hfound : Finds v upcaseTable dest s listing component)
    (hlookup : lookup upcaseTable listing component = none) (rest : List (List Int8)) :
    WalksRight v disk stack upcaseTable dest t s listing (component :: rest) ↔
      t.ReadsRight v disk upcaseTable listing (component :: rest) := by
  refine ⟨fun _ d hd => ?_, fun _ => ⟨0, 0, _, walk_missing hfound hlookup 0 rest, ?_, ?_⟩⟩
  · rw [hlookup] at hd
    cases hd
  · refine ⟨fun _ hexists => ?_, fun _ => rfl⟩
    obtain ⟨d, hd, -⟩ := hexists
    rw [hlookup] at hd
    cases hd
  · rw [Tree.lookups, hlookup, List.length_append]
    exact le_refl _

/-- **One path**: the result of the walk is right exactly if every file on the way is read
right. The induction is on the components; a directory that has been loaded is where the
rest of the path is walked. -/
theorem walk_right_iff (hv : v.Sized) (haligned : v.HeapAligned)
    (hdirectory : ∀ d, t.Lists d → d.directory = true → ∃ l,
      StoredDirectory v disk d (t.contents d) l)
    {s : WalkState} {listing : Listing} {l loaded : List ℕ} {n k : ℕ} {path : List (List Int8)}
    (hs : HoldsClusters v disk dest s loaded n) (hne : n ≠ 0)
    (hlisting : HoldsListing (v.inRow disk l) 0 k 0 listing) (hcluster : ∀ c ∈ l, 2 ≤ c)
    (hlists : ∀ d, some d ∈ listing → t.Lists d)
    (hsearch : t.SearchesRight v disk upcaseTable dest listing l loaded n path) :
    WalksRight v disk stack upcaseTable dest t s listing path ↔
      t.ReadsRight v disk upcaseTable listing path := by
  induction path generalizing s listing l loaded n k with
  | nil =>
      refine ⟨fun _ => trivial, fun _ => ⟨0, _, s, rfl, ?_, Nat.le_add_right _ _⟩⟩
      rw [hs.count]
      refine ⟨fun hzero => absurd (Nat.mul_eq_zero.mp hzero) ?_, fun hno => absurd trivial hno⟩
      exact not_or.mpr ⟨hne, hv.clusterBytes_pos.ne'⟩
  | cons component rest ih =>
      obtain ⟨⟨shared, hshared, hdecides⟩, hnext⟩ := hsearch
      have hfound := hs.finds hv hlisting hcluster hshared hdecides
      cases hlookup : lookup upcaseTable listing component with
      | none => exact walk_right_missing hfound hlookup rest
      | some d =>
          rw [readsRight_found hlookup]
          by_cases hends : LoadEnds v disk d.file.extension
          · obtain ⟨fuel, r, hload⟩ := (@loadEnds_iff v disk (stack s.calls.length) s.mem dest
              d.file.extension hv.idPerCluster_pos).mpr hends
            have hzero := @clusterCountOf_eq_zero_iff v d.file.extension hv
            rw [and_iff_right hends]
            by_cases hrest : rest = []
            · subst hrest
              rw [walksRight_last hv hfound hlookup hload, if_pos rfl, ne_eq, hzero, not_not]
            rw [if_neg hrest]
            by_cases hdir : d.directory = true
            · have hlisted := hlists d (mem_of_lookup hlookup)
              obtain ⟨l', hstored⟩ := hdirectory d hlisted hdir
              have hloads : Loads v disk d.file.extension r.loaded :=
                (loadFile_loaded_iff hv.idPerCluster_pos).mp ⟨fuel, r, hload, rfl⟩
              have hsearch := hnext d l' r.loaded hlookup hdir hstored hloads
              rw [walksRight_directory hfound hlookup hload hdir hrest, if_pos hdir]
              exact walksRight_contents hsearch hrest fun hcount =>
                ih (holdsClusters_loaded hv haligned hload) hcount hstored.holds
                  (fun c hc => (hstored.cluster c hc).1)
                  (fun d' hd' => .inside hlisted hdir hd') hsearch
            · rw [walksRight_file hfound hlookup hload hdir hrest, if_neg hdir, hzero]
          · refine ⟨fun hwalks => ?_, fun hreads => absurd hreads.1 hends⟩
            exact absurd (loadEnds_of_walksRight hv.idPerCluster_pos hfound hlookup hwalks) hends

end Paths

/-- The first cluster of the root directory is what the walk starts with. -/
theorem holdsClusters_root {v : Volume} (hv : v.Sized) (haligned : v.HeapAligned) (disk : Mem)
    (root dest : ℕ) (m : Mem) :
    HoldsClusters v disk dest (rootState v disk dest root m) [root] 1 where
  count := rfl
  bytes := by
    rw [Nat.one_mul]
    exact Nat.mod_lt _ (Nat.two_pow_pos 32)
  agrees := fun hfit shared hshared hin a ha => by
    rcases List.prefix_cons_iff.mp hshared with rfl | ⟨rest, rfl, hrest⟩
    · exact absurd ha (Nat.not_lt_zero a)
    · obtain rfl := List.prefix_nil.mp hrest
      obtain ⟨htwo, hstart⟩ := hin root List.mem_cons_self
      rw [List.length_singleton, Nat.mul_one] at hfit ha
      rw [@rootState_mem v disk root [] hv haligned htwo hstart dest hfit, if_pos ha]

/-! ### Directories that are loaded whole -/

/-- The root directory has one cluster, and the other directories are loaded with all of theirs. -/
structure LoadsWhole (v : Volume) (disk : Mem) (root dest : ℕ) (t : Tree) : Prop where
  start : v.clusterStart root < 2 ^ 32
  room : dest + v.clusterBytes ≤ 2 ^ 32
  directory : ∀ d l, t.Lists d → d.directory = true → StoredDirectory v disk d (t.contents d) l →
    (∀ c ∈ l, v.HasCluster c) ∧ dest + v.clusterBytes * l.length ≤ 2 ^ 32 ∧
      d.file.extension.dataLength + v.clusterBytes ≤ 2 ^ 32 ∧
      RightLoop v disk d.file.extension d.noFatChain l

section Whole

variable {v : Volume} {disk m : Mem} {root dest : ℕ} {t : Tree} {upcaseTable : ℕ → ℕ}
  {listing : Listing} {l : List ℕ}

/-- All clusters of a directory decide about every component. -/
theorem decides_whole (hv : v.Sized) {base : ℕ} (component : List Int8)
    (h : HoldsListing m base (l.length * v.clusterBytes / 32) 0 listing) :
    Decides v upcaseTable listing component l.length l.length := by
  have hall : 32 * entriesIn listing = l.length * v.clusterBytes := by
    have hentries := h.entriesIn_eq
    rw [Nat.zero_add] at hentries
    rw [hentries, Nat.mul_div_cancel' (hv.dvd_clusterBytes.mul_left _)]
  refine ⟨listing, [], (List.append_nil _).symm, ?_⟩
  cases hlookup : lookup upcaseTable listing component with
  | none => exact Or.inr ⟨rfl, rfl, hall⟩
  | some d => exact Or.inl ⟨rfl, hall.le⟩

/-- What is loaded of a file is determined by the drive. -/
theorem Loads.eq {e : Extension} {loaded loaded' : List ℕ} (hid : 0 < v.idPerCluster)
    (h : Loads v disk e loaded) (h' : Loads v disk e loaded') : loaded = loaded' := by
  obtain ⟨fuel, r, hrun, rfl⟩ := (@loadFile_loaded_iff v disk disk disk e 0 loaded hid).mpr h
  obtain ⟨fuel', r', hrun', rfl⟩ := (@loadFile_loaded_iff v disk disk disk e 0 loaded' hid).mpr h'
  rw [loadFile_unique hrun hrun']

/-- **Directories that are loaded whole** are searched right, for every path. The induction is on
the path. -/
theorem searchesRight_whole (hv : v.Sized) (hwhole : LoadsWhole v disk root dest t)
    {path : List (List Int8)}
    (hlisting : HoldsListing (v.inRow disk l) 0 (l.length * v.clusterBytes / 32) 0 listing)
    (hshared : Shares v dest l l l.length l) (hlists : ∀ d, some d ∈ listing → t.Lists d) :
    t.SearchesRight v disk upcaseTable dest listing l l l.length path := by
  induction path generalizing listing l with
  | nil => trivial
  | cons component rest ih =>
      refine ⟨⟨l, hshared, decides_whole hv component hlisting⟩, ?_⟩
      intro d l' loaded' hlookup hdir hstored hloads
      have hmem := mem_of_lookup hlookup
      obtain ⟨hin, hroom, hsize, hloop⟩ := hwhole.directory d l' (hlists d hmem) hdir hstored
      have hrun := (@loadFile_data_iff v disk disk disk _ 0 l' hv
        (hlisting.firstCluster_lt hmem) _ hstored.data hin).mpr hloop
      have hl : l' = loaded' :=
        Loads.eq hv.idPerCluster_pos
          ((loadFile_loaded_iff hv.idPerCluster_pos).mp hrun) hloads
      subst hl
      have hcount : clusterCountOf v d.file.extension = l'.length := by
        have hpos := hv.clusterBytes_pos
        rw [hv.clusterCountOf_iff.mpr hsize, dataClusters, hstored.size, Nat.add_sub_assoc hpos,
          Nat.mul_comm, Nat.mul_add_div hpos, Nat.div_eq_of_lt (Nat.sub_one_lt hpos.ne'),
          Nat.add_zero]
      rw [hcount]
      exact ih hstored.holds
        ⟨List.prefix_rfl, List.prefix_rfl, le_refl _, fun c hc => (hin c hc).heap, hroom⟩
        fun d' hd' => .inside (hlists d hmem) hdir hd'

end Whole

/-- The result of `read_file_exfat` is that of the walk. -/
theorem zeroMeansMissing_iff_walk {v : Volume} {disk : Mem} {root dest : ℕ} {t : Tree}
    {stack : ℕ → Mem} {upcaseTable : ℕ → ℕ} {m : Mem} {path : List Int8} :
    ZeroMeansMissing v root disk stack upcaseTable m dest t path ↔
      WalksRight v disk stack upcaseTable dest t (rootState v disk dest root m) t.root
        (components path) := by
  simp only [ZeroMeansMissing, WalksRight, readFileExfat_eq_walk, rootState, List.length_nil,
    Nat.zero_add]

/-- **What the result zero says**, for every tree that is stored on the drive and every path
along which the directories are searched in clusters that decide: it means that the path is
missing, and no file is searched, exactly if every file on the way is read right. -/
theorem zeroMeansMissing_iff {v : Volume} {disk : Mem} {root dest : ℕ} {l : List ℕ} {t : Tree}
    {upcaseTable : ℕ → ℕ} {path : List Int8} (hv : v.Sized) (haligned : v.HeapAligned)
    (h : StoresTree v disk root l t)
    (hsearch : t.SearchesRight v disk upcaseTable dest t.root (root :: l) [root] 1
      (components path)) (stack : ℕ → Mem) (m : Mem) :
    ZeroMeansMissing v root disk stack upcaseTable m dest t path ↔
      t.ReadsRight v disk upcaseTable t.root (components path) :=
  zeroMeansMissing_iff_walk.trans (walk_right_iff hv haligned h.directory
    (holdsClusters_root hv haligned disk root dest m) Nat.one_ne_zero h.holds
    (fun c hc => (h.cluster c hc).1) (fun _ hd => .root hd) hsearch)

/-- A drive with a root directory of two clusters, a directory `A` with the flag `nofatchain` in
the first one, and a file `B` of one byte in the directory. -/
def nestedDrive : Mem := fun x =>
  if x = 0x23008 then 3
  else if 0x2300c ≤ x ∧ x < 0x23010 then 0xff
  else if x = 0x30000 ∨ x = 0x30400 then 0x85
  else if x = 0x30001 ∨ x = 0x30401 then 2
  else if x = 0x30004 then 0x10
  else if x = 0x30020 ∨ x = 0x30420 then 0xc0
  else if x = 0x30021 then 2
  else if x = 0x30023 ∨ x = 0x30423 then 1
  else if x = 0x30034 then 4
  else if x = 0x30434 then 5
  else if x = 0x30039 then 2
  else if x = 0x30438 then 1
  else if x = 0x30040 ∨ x = 0x30440 then 0xc1
  else if x = 0x30042 then 65
  else if x = 0x30442 then 66
  else 0

def nestedDirectory : DirNode where
  file := .ofChar 65 ⟨4, 512⟩
  directory := true
  noFatChain := true

def nestedFile : DirNode where
  file := .ofChar 66 ⟨5, 1⟩
  directory := false
  noFatChain := false

/-- The tree on this drive. -/
def nestedTree : Tree where
  root := some nestedDirectory :: List.replicate 29 none
  contents := fun _ => some nestedFile :: List.replicate 13 none

theorem nameEntries_ofChar (a : ℕ) (e : Extension) : (DirFile.ofChar a e).nameEntries = 1 := by
  change ([a].length + 14) / 15 = 1
  rw [List.length_singleton]

/-- The three entries of a file whose name is one character. -/
theorem holdsSet_ofChar {m : Mem} {base i a : ℕ} {e : Extension}
    (h : m (base + 32 * i) = 0x85 ∧ (m (base + 32 * i + 1)).toNat = 2 ∧
      m (base + 32 * (i + 1)) = 0xc0 ∧ (m (base + 32 * (i + 1) + 3)).toNat = 1 ∧
      m.read32 (base + 32 * (i + 1) + 20) = e.firstCluster ∧
      m.read32 (base + 32 * (i + 1) + 24) + 2 ^ 32 * m.read32 (base + 32 * (i + 1) + 28)
        = e.dataLength ∧
      m (base + 32 * (i + 2)) = 0xc1 ∧ m.read16 (base + 32 * (i + 2) + 2) = a) :
    HoldsSet m base i (.ofChar a e) := by
  obtain ⟨htype, hcount, hextension, hlength, hfirst, hdata, hname, hchar⟩ := h
  have hentries := nameEntries_ofChar a e
  refine ⟨htype, by rw [hcount, hentries], hextension, hlength, hfirst, hdata, fun j hj => ?_,
    fun k hk => ?_⟩
  · rw [hentries] at hj
    obtain rfl : j = 0 := Nat.lt_one_iff.mp hj
    exact hname
  · obtain rfl : k = 0 := Nat.lt_one_iff.mp hk
    exact hchar

/-- A directory with one such file. -/
theorem holdsListing_ofChar {m : Mem} {k a : ℕ} {d : DirNode} {e : Extension}
    (hfile : d.file = .ofChar a e) (h : HoldsNode m 0 0 d)
    (hother : ∀ j < k, m (32 * (3 + j)) ≠ 0x85) :
    HoldsListing m 0 (k + 3) 0 (some d :: List.replicate k none) := by
  refine ⟨h, ?_⟩
  rw [hfile, nameEntries_ofChar, Nat.zero_add, Nat.add_comm k]
  exact holdsListing_replicate fun j hj => by
    rw [Nat.zero_add]
    exact hother j hj

/-- The root directory of the drive holds its one file, the directory. -/
theorem nested_rootHolds :
    HoldsListing ((smallVolume 0).inRow nestedDrive [2, 3]) 0 32 0 nestedTree.root :=
  @holdsListing_ofChar _ 29 65 nestedDirectory _ rfl
    ⟨holdsSet_ofChar (by decide +kernel), by decide +kernel, by decide +kernel⟩ (by decide +kernel)

/-- The directory holds its one file. -/
theorem nested_holds :
    HoldsListing ((smallVolume 0).inRow nestedDrive [4]) 0 16 0
      (some nestedFile :: List.replicate 13 none) :=
  @holdsListing_ofChar _ 13 66 nestedFile _ rfl
    ⟨holdsSet_ofChar (by decide +kernel), by decide +kernel, by decide +kernel⟩ (by decide +kernel)

/-- The two files of the tree. -/
theorem nested_lists {d : DirNode} (h : nestedTree.Lists d) :
    d = nestedDirectory ∨ d = nestedFile := by
  cases h with
  | root hd =>
      rcases List.mem_cons.mp hd with heq | hd
      · exact Or.inl (Option.some.inj heq)
      · exact absurd (List.eq_of_mem_replicate hd) (Option.some_ne_none d)
  | inside _ _ hd =>
      rcases List.mem_cons.mp hd with heq | hd
      · exact Or.inr (Option.some.inj heq)
      · exact absurd (List.eq_of_mem_replicate hd) (Option.some_ne_none d)

/-- The drive stores the tree. -/
theorem nested_stores : StoresTree (smallVolume 0) nestedDrive 2 [3] nestedTree where
  chain := by
    have hnext : (smallVolume 0).fatEntry nestedDrive 2 = 3 := by decide +kernel
    have hend : (smallVolume 0).fatEntry nestedDrive 3 = endOfChain := by decide +kernel
    exact ⟨rfl, hnext, (congrArg _ hnext).trans hend⟩
  cluster := by decide
  holds := nested_rootHolds
  directory := fun d hd hdirectory => by
    obtain rfl | rfl := nested_lists hd
    · exact ⟨[4], .consecutive, by decide, by decide +kernel, nested_holds⟩
    · cases hdirectory

/-- The directory is found in the first cluster of the root directory and loaded, and the file is
found in it. -/
theorem nested_searchesRight : nestedTree.SearchesRight (smallVolume 0) nestedDrive (fun a => a)
    0x100000 nestedTree.root [2, 3] [2] 1 [[65], [66]] := by
  have hfirst : [some nestedDirectory] <+: nestedTree.root := ⟨_, rfl⟩
  refine ⟨⟨[2], ⟨⟨[3], rfl⟩, List.prefix_rfl, le_refl 1, by decide +kernel, by decide +kernel⟩,
    [some nestedDirectory], _, rfl, Or.inl ⟨rfl, by decide +kernel⟩⟩, ?_⟩
  intro d l loaded hlookup hdirectory hstored hloads
  obtain rfl : nestedDirectory = d := Option.some.inj hlookup
  have hl : l = [4] := by
    cases hstored.data
    rfl
  have hloaded : loaded = [4] := by
    rcases hloads with ⟨-, rfl⟩ | ⟨hne, -⟩
    · decide +kernel
    · exact absurd (by decide +kernel) hne
  subst hl hloaded
  refine ⟨⟨[4], ⟨List.prefix_rfl, List.prefix_rfl, by decide +kernel, by decide +kernel,
    by decide +kernel⟩, [some nestedFile], _, rfl, Or.inl ⟨rfl, by decide +kernel⟩⟩, ?_⟩
  intro d l loaded hlookup hdirectory
  obtain rfl : nestedFile = d := Option.some.inj hlookup
  cases hdirectory

/-- `A/B` is found, and the result says so. -/
theorem zeroMeansMissing_file : ZeroMeansMissing (smallVolume 0) 2 nestedDrive (fun _ _ => 0)
    (fun a => a) (fun _ => 0) 0x100000 nestedTree [65, 47, 66] := by
  have hcomponents : components [65, 47, 66] = [[65], [66]] := by decide
  have hsearch := nested_searchesRight
  rw [← hcomponents] at hsearch
  refine (zeroMeansMissing_iff (smallVolume_accepted (by simp)).sized (by decide) nested_stores
    hsearch _ _).mpr ?_
  rw [hcomponents]
  intro d hlookup
  obtain rfl : nestedDirectory = d := Option.some.inj hlookup
  refine ⟨Or.inl (by decide +kernel), ?_⟩
  rw [if_neg (List.cons_ne_nil _ _)]
  change nestedTree.ReadsRight (smallVolume 0) nestedDrive (fun a => a) _ [[66]]
  intro d hlookup
  obtain rfl : nestedFile = d := Option.some.inj hlookup
  refine ⟨Or.inl (by decide +kernel), ?_⟩
  rw [if_pos rfl]
  decide +kernel

/-- A drive with one file `A` in the root directory. The file is not a directory, but what it
holds looks like one with a file `B`. -/
def lookalikeDrive : Mem := fun x =>
  if 143368 ≤ x ∧ x < 143372 then 0xff
  else if x = 196608 ∨ x = 197120 then 0x85
  else if x = 196609 ∨ x = 197121 then 2
  else if x = 196640 ∨ x = 197152 then 0xc0
  else if x = 196643 ∨ x = 197155 then 1
  else if x = 196660 then 3
  else if x = 197172 then 4
  else if x = 196665 then 2
  else if x = 197176 then 1
  else if x = 196672 ∨ x = 197184 then 0xc1
  else if x = 196674 then 65
  else if x = 197186 then 66
  else 0

/-- Its file, and the tree. -/
def lookalikeFile : DirNode where
  file := .ofChar 65 ⟨3, 512⟩
  directory := false
  noFatChain := false

def lookalikeTree : Tree where
  root := some lookalikeFile :: List.replicate 13 none
  contents := fun _ => []

/-- The one file of the tree. -/
theorem lookalike_lists {d : DirNode} (h : lookalikeTree.Lists d) : d = lookalikeFile := by
  cases h with
  | root hd =>
      rcases List.mem_cons.mp hd with heq | hd
      · exact Option.some.inj heq
      · exact absurd (List.eq_of_mem_replicate hd) (Option.some_ne_none d)
  | inside _ _ hd => exact absurd hd List.not_mem_nil

/-- The drive stores the tree. -/
theorem lookalike_stores : StoresTree (smallVolume 0) lookalikeDrive 2 [] lookalikeTree where
  chain := by
    have hend : (smallVolume 0).fatEntry lookalikeDrive 2 = endOfChain := by decide +kernel
    exact ⟨rfl, hend⟩
  cluster := by decide
  holds := @holdsListing_ofChar _ 13 65 lookalikeFile _ rfl
    ⟨holdsSet_ofChar (by decide +kernel), by decide +kernel, by decide +kernel⟩ (by decide +kernel)
  directory := fun d hd hdirectory => by
    obtain rfl := lookalike_lists hd
    cases hdirectory

/-- **A file that is searched**: there is no `A/B`, but what `A` holds is taken for a directory
and `B` is found in it. -/
theorem zeroMeansMissing_fails :
    ¬ ∀ (v : Volume) (disk : Mem) (root dest : ℕ) (l : List ℕ) (t : Tree) (stack : ℕ → Mem)
      (upcaseTable : ℕ → ℕ) (m : Mem) (path : List Int8), v.Sized → v.HeapAligned →
      StoresTree v disk root l t →
      ZeroMeansMissing v root disk stack upcaseTable m dest t path := by
  intro hall
  have hv := (@smallVolume_accepted 0 (by simp)).sized
  have haligned : (smallVolume 0).HeapAligned := by decide
  have hwalks := zeroMeansMissing_iff_walk.mp (hall (smallVolume 0) lookalikeDrive 2 0x100000 []
    lookalikeTree (fun _ _ => 0) (fun a => a) (fun _ => 0) [65, 47, 66] hv haligned
    lookalike_stores)
  have hcomponents : components [65, 47, 66] = [[65], [66]] := by decide
  rw [hcomponents] at hwalks
  have hwhole : LoadsWhole (smallVolume 0) lookalikeDrive 2 0x100000 lookalikeTree :=
    ⟨by decide +kernel, by decide +kernel, fun d l hd hdirectory => by
      obtain rfl := lookalike_lists hd
      cases hdirectory⟩
  have hsearch := @searchesRight_whole (smallVolume 0) lookalikeDrive 2 0x100000 lookalikeTree
    (fun a => a) _ [2] hv hwhole [[65], [66]] lookalike_stores.holds
    ⟨List.prefix_rfl, List.prefix_rfl, le_refl 1, by decide +kernel, hwhole.room⟩
    fun _ hd => .root hd
  have hreads := (walk_right_iff hv haligned lookalike_stores.directory
    (holdsClusters_root hv haligned _ _ _ _) Nat.one_ne_zero lookalike_stores.holds (by decide)
    (fun _ hd => .root hd) hsearch).mp hwalks
  exact (hreads lookalikeFile rfl).2 (by decide +kernel)

end LoofOS
