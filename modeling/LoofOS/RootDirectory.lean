import LoofOS.CaseFold
import LoofOS.PathComponents

/-!
# The Root Directory

Other directories are loaded with all their clusters. Of the root directory,
`read_file_exfat` loads the first cluster, and `init_exfat` the first sector of the drive in
it. So a file of the root directory is found if its entries end in the first cluster, and
the up-case entry if it is in the first sector (`seesRoot_iff`). A file with entries behind
the first cluster is searched for in what the memory holds there.

## Main results

* `upcaseSearch_eq_iff`: where the up-case entry is found.
* `findFile_root`: a file whose entries are in the first cluster is found.
* `findFile_root_behind`: another one is not found, for some content of the memory.
* `seesRoot_iff`: the root directories that are searched as a whole.
-/

namespace LoofOS

open LinkedChain

/-! ### The directory on the drive -/

/-- The bytes of clusters, one after the other. -/
def Volume.inRow (v : Volume) (disk : Mem) (l : List ℕ) : Mem := fun a =>
  disk (v.clusterStart (l.getD (a / v.clusterBytes) 0) + a % v.clusterBytes)

/-- The root directory: its clusters, linked in the FAT, and what their bytes hold. -/
structure RootDirectory (v : Volume) (disk : Mem) (root : ℕ) (l : List ℕ)
    (items : List DirItem) : Prop where
  chain : Chain (v.fatEntry disk) root (root :: l) endOfChain
  cluster : ∀ c ∈ root :: l, 2 ≤ c ∧ c < v.clusterCount + 2
  holds : HoldsSets (v.inRow disk (root :: l)) 0
    ((root :: l).length * v.clusterBytes / 32) 0 items

/-- A file of a directory behind the items `before`, for which its name stands: the mapped
name can be written in a path, and no file before it has the same. -/
structure NamedFile (upcaseTable : ℕ → ℕ) (items before : List DirItem) (f : DirFile) :
    Prop where
  place : ∃ after, items = before ++ .file f :: after
  char : ∀ a ∈ f.name, NameChar (upcaseTable a)
  first : ∀ g ∈ filesOf before, g.name.map upcaseTable ≠ f.name.map upcaseTable

/-- A name as a component of a path. -/
def pathOf (name : List ℕ) : List Int8 := name.map Int8.ofNat

/-- The first up-case entry is entry `k` of the directory. -/
def UpcaseAt (directory : Mem) (k : ℕ) : Prop :=
  directory (32 * k) = 0x82 ∧ ∀ j < k, directory (32 * j) ≠ 0x82

/-- Where `init_exfat` finds an up-case entry: the search in what it loads of the root
directory. -/
def upcaseSearch (n : ℕ) (disk loadBuffer : Mem) : Option ℕ :=
  let buffer := biosExtRead ⟨0, 0, 0, 0, n⟩ disk loadBuffer 0 (0x100 * 512 / n) 1
  let v := bootRecord n buffer
  upcaseEntry n (biosExtRead v disk buffer 0 (v.getHeapLba (buffer.read32 96)) 1)

/-- The first call of `_read_file_exfat_helper` for the name of the file selects the file,
whatever the memory held before. -/
def FindsFile (x : Mounted) (disk : Mem) (f : DirFile) : Prop :=
  ∀ (m : Mem) (dest : ℕ), dest + x.volume.clusterBytes ≤ 2 ^ 32 →
    findFile x.volume x.upcaseTable (rootState x.volume disk dest x.rootFirstCluster m).mem
      (componentCall dest (pathOf (f.name.map x.upcaseTable)) 1) = some (some f.extension)

/-- The whole root directory is searched: every file is found by its name, and `init_exfat`
finds the up-case entry. -/
structure SeesRoot (n : ℕ) (disk loadBuffer : Mem) (behind : ℕ → ℕ) (directory : Mem)
    (entries : ℕ) (items : List DirItem) : Prop where
  file : ∀ before f, NamedFile (initExfat n disk loadBuffer behind).upcaseTable items before f →
    FindsFile (initExfat n disk loadBuffer behind) disk f
  upcase : ∀ k < entries, UpcaseAt directory k → upcaseSearch n disk loadBuffer = some (32 * k)

/-! ### Initialization -/

section Mounting

variable {n : ℕ} {disk loadBuffer : Mem} {behind : ℕ → ℕ}

/-- What `init_exfat` takes from the boot record, and the part of the table that it leaves. -/
theorem initExfat_eq (hv : (diskVolume n disk).Sized) :
    (initExfat n disk loadBuffer behind).volume = diskVolume n disk ∧
      (initExfat n disk loadBuffer behind).rootFirstCluster = (bootSector n disk).read32 96 ∧
      ∀ a, 64 ≤ a → a < 128 → (initExfat n disk loadBuffer behind).upcaseTable a = a := by
  obtain ⟨hboot, hroot⟩ := bootRecord_load hv loadBuffer
  simp only [initExfat, hboot, hroot]
  split
  · exact ⟨rfl, rfl, fun a _ ha => if_pos ha⟩
  · exact ⟨rfl, rfl, fun a h64 ha => (if_neg (by omega)).trans (if_pos ha)⟩

/-- The search for the up-case entry looks at one sector. -/
theorem upcaseSearch_eq (hv : (diskVolume n disk).Sized) : upcaseSearch n disk loadBuffer =
    upcaseEntry n ((diskVolume n disk).clusterAt disk ((bootSector n disk).read32 96)) := by
  obtain ⟨h512, hn, hdvd⟩ := hv.sector_bounds
  obtain ⟨hboot, hroot⟩ := bootRecord_load hv loadBuffer
  simp only [upcaseSearch, hboot, hroot]
  exact upcaseEntry_congr hdvd fun x hx => biosExtRead_sector rfl hn disk _ _ hx

/-- **The up-case entry** is found if it is in the sector that is searched. -/
theorem upcaseEntry_eq_iff {b directory : Mem} {k : ℕ} (hn : 32 ∣ n)
    (heq : ∀ a < n, b a = directory a) (hk : UpcaseAt directory k) :
    upcaseEntry n b = some (32 * k) ↔ 32 * k < n := by
  constructor
  · intro h
    have := upcaseEntry_le hn h
    omega
  · intro hlt
    have hfind : (List.range ((n + 31) / 32)).find? (fun j => b (32 * j) = 0x82) = some k := by
      rw [List.find?_range_eq_some]
      refine ⟨by rw [heq _ hlt, hk.1]; rfl, List.mem_range.mpr (by omega), fun j hj => ?_⟩
      rw [heq _ (by omega), decide_eq_false (hk.2 j hj)]
      rfl
    rw [upcaseEntry, hfind]
    rfl

end Mounting

/-! ### The first cluster -/

section FirstCluster

variable {v : Volume} {disk : Mem} {root : ℕ} {l : List ℕ}

theorem inRow_of_lt {a : ℕ} (ha : a < v.clusterBytes) :
    v.inRow disk (root :: l) a = disk (v.clusterStart root + a) := by
  rw [Volume.inRow, Nat.div_eq_of_lt ha, Nat.mod_eq_of_lt ha]
  rfl

/-- The memory after loading the first cluster. -/
theorem rootState_mem (hv : v.Sized) (haligned : v.HeapAligned) (h2 : 2 ≤ root)
    (hstart : v.clusterStart root < 2 ^ 32) {dest : ℕ} (hdest : dest + v.clusterBytes ≤ 2 ^ 32)
    (m : Mem) (a : ℕ) : (rootState v disk dest root m).mem (dest + a) =
      if a < v.clusterBytes then v.inRow disk (root :: l) a else m (dest + a) := by
  have hmul := hv.clusterBytes_eq.2
  change biosExtRead v disk m dest (v.getHeapLba root) (v.getClusterSize 1) (dest + a) = _
  rw [biosExtRead_apply disk m _ (by omega), hmul,
    getHeapLba_mul hv.shift hv.dvd haligned h2 hstart, Nat.add_sub_cancel_left]
  by_cases ha : a < v.clusterBytes
  · rw [if_pos (by omega), if_pos ha, inRow_of_lt ha]
  · rw [if_neg (by omega), if_neg ha]

/-- The search covers the entries of one cluster. -/
theorem entryCount_componentCall (dest : ℕ) (component : List Int8) :
    entryCount v (componentCall dest component 1) = v.clusterBytes / 32 := rfl

theorem Volume.Sized.dvd_clusterBytes (hv : v.Sized) : 32 ∣ v.clusterBytes := by
  rw [hv.clusterBytes_eq.1]
  exact Nat.dvd_trans (Nat.dvd_of_mod_eq_zero rfl) (Nat.dvd_mul_right 512 _)

theorem names_componentCall {component : List ℕ} (h : ∀ a ∈ component, NameChar a) (dest n : ℕ) :
    (componentCall dest (pathOf component) n).Names component where
  length := List.length_map Int8.ofNat
  char := by
    intro j hj
    have hlt := (h _ (List.getElem_mem hj)).2.1
    change ((component.map Int8.ofNat).getD j 0).toInt = _
    rw [List.getD_eq_getElem?_getD, List.getElem?_map, List.getElem?_eq_getElem hj]
    exact Int8.toInt_ofNat_of_lt (by omega)

/-! ### Files -/

section Files

variable {items before : List DirItem} {f : DirFile} {upcaseTable : ℕ → ℕ}

theorem NamedFile.component (hf : NamedFile upcaseTable items before f) :
    ∀ a ∈ f.name.map upcaseTable, NameChar a := by
  intro a ha
  obtain ⟨b, hb, rfl⟩ := List.mem_map.mp ha
  exact hf.char b hb

/-- Entries of the root directory that end in the first cluster are in the memory. -/
theorem rootState_agrees (hv : v.Sized) (haligned : v.HeapAligned) (h2 : 2 ≤ root)
    (hstart : v.clusterStart root < 2 ^ 32) {dest : ℕ} (hdest : dest + v.clusterBytes ≤ 2 ^ 32)
    (m : Mem) {n : ℕ} (hn : 32 * n ≤ v.clusterBytes) :
    ∀ a, a < 32 * n →
      (rootState v disk dest root m).mem (dest + a) = v.inRow disk (root :: l) (0 + a) := by
  intro a ha
  rw [rootState_mem hv haligned h2 hstart hdest, if_pos (by omega), Nat.zero_add]

/-- **A file in the first cluster** is found. -/
theorem findFile_root (hv : v.Sized) (haligned : v.HeapAligned)
    (hstart : v.clusterStart root < 2 ^ 32) (hroot : RootDirectory v disk root l items)
    (hf : NamedFile upcaseTable items before f)
    (hend : 32 * (entriesOf before + (f.nameEntries + 2)) ≤ v.clusterBytes) (m : Mem) {dest : ℕ}
    (hdest : dest + v.clusterBytes ≤ 2 ^ 32) :
    findFile v upcaseTable (rootState v disk dest root m).mem
      (componentCall dest (pathOf (f.name.map upcaseTable)) 1) = some (some f.extension) := by
  obtain ⟨after, rfl⟩ := hf.place
  obtain ⟨hbefore, hset, -⟩ := holdsSets_append.mp hroot.holds
  rw [Nat.zero_add] at hbefore hset
  have hagrees := @rootState_agrees v disk root l hv haligned
    (hroot.cluster root List.mem_cons_self).1 hstart dest hdest m _ hend
  have hmem := hbefore.congr fun a ha => hagrees a (by omega)
  have hmatches := @matches_iff upcaseTable _ _ (names_componentCall hf.component dest 1)
  exact findFile_of_first hmem (HoldsSet.congr hset (le_refl _) hagrees)
    (by rw [entryCount_componentCall]; omega)
    (fun g hg hname => hf.first g hg ((hmatches g).mp hname)) ((hmatches f).mpr rfl)

/-- What the memory may hold behind the first cluster: every character of a name is `g`, and
no name has a length. -/
def strayBytes (g : ℕ) : Mem := fun a => if a % 2 = 0 then UInt8.ofNat g else 0

theorem strayBytes_even {a g : ℕ} (ha : a % 2 = 0) (hg : g < 128) :
    (strayBytes g a).toNat = g := by
  rw [strayBytes, if_pos ha, UInt8.toNat_ofNat', Nat.mod_eq_of_lt (by omega)]

theorem strayBytes_odd {a g : ℕ} (ha : a % 2 = 1) : strayBytes g a = 0 :=
  if_neg (by omega)

/-- A file whose last name entry is among these bytes does not have the name, if `g` is not
the character of the component at its place. -/
theorem nameEqual_stray {m directory : Mem} {component : List ℕ} {i q g : ℕ} {s : DirFile}
    {call : FileCall} (hc : call.Names component) (hbase : call.dirBuffer = 0)
    (hin : ∀ a < 32 * q, m a = directory a) (hout : ∀ a, 32 * q ≤ a → m a = strayBytes g a)
    (hset : HoldsSet directory 0 i s) (hcross : q < i + (s.nameEntries + 2))
    (hne : component ≠ []) (hg : g < 128) (htable : upcaseTable g = g)
    (hchar : component.getD (15 * (s.nameEntries - 1)) 0 ≠ g)
    (hlen : (m (dirEntry call (i + 1) + 3)).toNat = call.nameLen) (filename : ℕ → ℕ) :
    nameEqual call (fun j => upcaseTable (copyName m call i s.nameEntries filename j)) ≠ true := by
  intro hequal
  have hpos := s.length_pos
  have hentry : ∀ j, dirEntry call j = 32 * j := fun j => by rw [dirEntry, hbase, Nat.zero_add]
  have hlength : (directory (32 * (i + 1) + 3)).toNat = s.name.length := by
    have := hset.nameLength
    rwa [Nat.zero_add] at this
  rw [hentry, hc.length] at hlen
  by_cases hext : 32 * q ≤ 32 * (i + 1) + 3
  · rw [hout _ hext, strayBytes_odd (by omega)] at hlen
    exact hne (List.length_eq_zero_iff.mp hlen.symm)
  · rw [hin _ (by omega), hlength] at hlen
    have hentries : s.nameEntries = (s.name.length + 14) / 15 := rfl
    have hplace : 15 * (s.nameEntries - 1) < component.length := by omega
    have heq := List.all_eq_true.mp hequal (15 * (s.nameEntries - 1))
      (List.mem_range.mpr (hc.length ▸ hplace))
    have hcopy : copyName m call i s.nameEntries filename (15 * (s.nameEntries - 1)) = g := by
      have haddr : dirEntry call (i + 15 * (s.nameEntries - 1) / 15 + 2) + 2
          + 2 * (15 * (s.nameEntries - 1) % 15) = 32 * (i + s.nameEntries + 1) + 2 := by
        rw [hentry]
        omega
      rw [copyName, if_pos (by omega)]
      simp only [haddr]
      rw [hout _ (by omega), hout _ (by omega), strayBytes_even (by omega) hg,
        strayBytes_odd (by omega)]
      rfl
    simp only [hcopy, htable, hc.char _ hplace, beq_iff_eq] at heq
    rw [List.getD_eq_getElem?_getD, List.getElem?_eq_getElem hplace] at hchar
    exact hchar (Int.ofNat.inj heq).symm

/-- The search goes on behind such a file. -/
theorem searchEntry_stray {m directory : Mem} {component : List ℕ} {i q g : ℕ} {s : DirFile}
    {call : FileCall} (hc : call.Names component) (hbase : call.dirBuffer = 0)
    (hcount : entryCount v call = q) (hin : ∀ a < 32 * q, m a = directory a)
    (hout : ∀ a, 32 * q ≤ a → m a = strayBytes g a) (hset : HoldsSet directory 0 i s) (hi : i < q)
    (hcross : q < i + (s.nameEntries + 2)) (hne : component ≠ []) (hg : g < 128)
    (htable : upcaseTable g = g) (hchar : component.getD (15 * (s.nameEntries - 1)) 0 ≠ g)
    (filename : ℕ → ℕ) : ∃ filename', searchEntry v upcaseTable m call (i, filename) =
      Sum.inl (i + (s.nameEntries + 2), filename') := by
  have hentry : dirEntry call i = 32 * i := by rw [dirEntry, hbase, Nat.zero_add]
  have htype := hset.type
  have hsecondary := hset.secondaryCount
  rw [Nat.zero_add] at htype hsecondary
  refine searchEntry_of_ne filename (hcount ▸ hi) ?_ ?_ s.nameEntries_le fun hlen =>
    nameEqual_stray hc hbase hin hout hset hcross hne hg htable hchar hlen filename
  · rw [hentry, hin _ (by omega), htype]
  · rw [hentry, hin _ (by omega), hsecondary]

/-- The item of the directory that crosses the end of the first cluster, when a file ends
behind it. -/
theorem exists_crossing_item {n q : ℕ} {directory : Mem} (hholds : HoldsSets directory 0 n 0 items)
    (hf : NamedFile upcaseTable items before f) (hq : q < entriesOf before + (f.nameEntries + 2)) :
    ∃ (pre : List DirItem) (item : DirItem), HoldsSets directory 0 (entriesOf pre) 0 pre ∧
      item.HoldsAt directory 0 (entriesOf pre) ∧ entriesOf pre ≤ q ∧ q < entriesOf pre + item.size ∧
      ∀ g ∈ filesOf pre, g.name.map upcaseTable ≠ f.name.map upcaseTable := by
  obtain ⟨after, rfl⟩ := hf.place
  have hsum : entriesOf (before ++ [.file f]) = entriesOf before + (f.nameEntries + 2) := by
    simp [entriesOf, DirItem.size]
  obtain ⟨pre, item, post, hsplit, hpre, hcross⟩ :=
    @exists_crossing (before ++ [.file f]) q (by omega)
  have hprefix : pre <+: before := by
    have hlen := congrArg List.length hsplit
    simp only [List.length_append, List.length_cons, List.length_nil] at hlen
    exact List.prefix_of_prefix_length_le (hsplit ▸ List.prefix_append pre (item :: post))
      (List.prefix_append before [.file f]) (by omega)
  have hwhole : before ++ .file f :: after = pre ++ item :: (post ++ after) := by
    rw [← List.cons_append, ← List.append_assoc, ← hsplit, List.append_assoc, List.singleton_append]
  rw [hwhole] at hholds
  obtain ⟨hbefore, hitem, -⟩ := holdsSets_append.mp hholds
  rw [Nat.zero_add] at hbefore hitem
  refine ⟨pre, item, hbefore, hitem, hpre, hcross, fun g hg => ?_⟩
  obtain ⟨rest, rfl⟩ := hprefix
  exact hf.first g (by rw [filesOf_append]; exact List.mem_append_left _ hg)

/-- **A file that ends behind the first cluster** is not found if the memory holds other
characters there. -/
theorem findFile_root_behind (hv : v.Sized) (haligned : v.HeapAligned)
    (hstart : v.clusterStart root < 2 ^ 32) (hroot : RootDirectory v disk root l items)
    (htable : ∀ a, 64 ≤ a → a < 128 → upcaseTable a = a)
    (hf : NamedFile upcaseTable items before f)
    (hend : v.clusterBytes < 32 * (entriesOf before + (f.nameEntries + 2))) :
    ∃ m, findFile v upcaseTable (rootState v disk 0 root m).mem
      (componentCall 0 (pathOf (f.name.map upcaseTable)) 1) = some none := by
  obtain ⟨q, hq⟩ := hv.dvd_clusterBytes
  obtain ⟨pre, item, hbefore, hitem, hpre, hcross, hother⟩ :=
    @exists_crossing_item _ _ _ _ _ q _ hroot.holds hf (by omega)
  obtain ⟨g, h64, h66, hg⟩ : ∃ g, 64 ≤ g ∧ g < 66 ∧
      (f.name.map upcaseTable).getD (15 * (item.size - 3)) 0 ≠ g := by
    by_cases h : (f.name.map upcaseTable).getD (15 * (item.size - 3)) 0 = 64
    · exact ⟨65, by omega, by omega, by omega⟩
    · exact ⟨64, by omega, by omega, h⟩
  refine ⟨strayBytes g, ?_⟩
  have hnames := names_componentCall hf.component 0 1
  have hcount : entryCount v (componentCall 0 (pathOf (f.name.map upcaseTable)) 1) = q := by
    rw [entryCount_componentCall, hq, Nat.mul_div_cancel_left _ (Nat.succ_pos 31)]
  have hmem := @rootState_mem v disk root l hv haligned (hroot.cluster root List.mem_cons_self).1
    hstart 0 (by rw [Nat.zero_add]; exact (Nat.mod_lt _ (Nat.two_pow_pos 32)).le) (strayBytes g)
  simp only [Nat.zero_add, hq] at hmem
  have hin : ∀ a < 32 * q, (rootState v disk 0 root (strayBytes g)).mem a
      = v.inRow disk (root :: l) a := fun a ha => by rw [hmem, if_pos ha]
  have hout : ∀ a, 32 * q ≤ a → (rootState v disk 0 root (strayBytes g)).mem a
      = strayBytes g a := fun a ha => by rw [hmem, if_neg (by omega)]
  have hpast : HoldsSets (rootState v disk 0 root (strayBytes g)).mem 0 (entriesOf pre) 0 pre :=
    hbefore.congr fun a ha => by rw [Nat.zero_add, hin a (by omega)]
  obtain ⟨fuel, filename, hfuel, hiter⟩ := iter_past (v := v) hpast (by omega)
    (fun h hh hname => hother h hh ((matches_iff hnames h).mp hname))
    (Nat.lt_succ_self _) fun _ => 0
  rw [findFile, hiter]
  by_cases hlast : entriesOf pre = q
  · rw [iter_end (by omega) (by omega)]
    rfl
  cases item with
  | other =>
      change q < entriesOf pre + 1 at hcross
      omega
  | file s =>
      obtain ⟨filename', hbody⟩ := @searchEntry_stray v upcaseTable _ _ _ (entriesOf pre) q g s _
        hnames rfl hcount hin hout hitem (by omega) hcross
        (List.ne_nil_of_length_pos (by rw [List.length_map]; exact f.length_pos)) (by omega)
        (htable g h64 (by omega)) hg filename
      obtain ⟨fuel, rfl⟩ : ∃ k, fuel = k + 1 := ⟨fuel - 1, by omega⟩
      have hsize : (DirItem.file s).size = s.nameEntries + 2 := rfl
      rw [Loop.iter_succ_of_inl hbody, iter_end (by omega) (by omega)]
      rfl

end Files

end FirstCluster

/-- A file that ends behind the first cluster is not always found by its name. -/
theorem not_findsFile {n : ℕ} {disk loadBuffer : Mem} {behind : ℕ → ℕ} {root : ℕ} {l : List ℕ}
    {items before : List DirItem} {f : DirFile} (hv : (diskVolume n disk).Sized)
    (haligned : (diskVolume n disk).HeapAligned) (hfirst : (bootSector n disk).read32 96 = root)
    (hstart : (diskVolume n disk).clusterStart root < 2 ^ 32)
    (hroot : RootDirectory (diskVolume n disk) disk root l items)
    (hf : NamedFile (initExfat n disk loadBuffer behind).upcaseTable items before f)
    (hend : (diskVolume n disk).clusterBytes < 32 * (entriesOf before + (f.nameEntries + 2))) :
    ¬ FindsFile (initExfat n disk loadBuffer behind) disk f := by
  intro hfinds
  obtain ⟨hvolume, hcluster, htable⟩ := @initExfat_eq n disk loadBuffer behind hv
  obtain ⟨m, hm⟩ := findFile_root_behind hv haligned hstart hroot htable hf hend
  have hfound := hfinds m 0 (by
    rw [Nat.zero_add]
    exact (Nat.mod_lt _ (Nat.two_pow_pos 32)).le)
  rw [hvolume, hcluster, hfirst, hm] at hfound
  cases hfound

/-- **Which root directories are searched as a whole**, for every volume whose sectors are
computed without overflow: the files end in the first cluster, and the up-case entry is in
its first sector. -/
theorem seesRoot_iff {n : ℕ} {disk loadBuffer : Mem} {behind : ℕ → ℕ} {root : ℕ} {l : List ℕ}
    {items : List DirItem} (hv : (diskVolume n disk).Sized)
    (haligned : (diskVolume n disk).HeapAligned) (hfirst : (bootSector n disk).read32 96 = root)
    (hstart : (diskVolume n disk).clusterStart root < 2 ^ 32)
    (hroot : RootDirectory (diskVolume n disk) disk root l items) :
    SeesRoot n disk loadBuffer behind ((diskVolume n disk).inRow disk (root :: l))
        ((root :: l).length * (diskVolume n disk).clusterBytes / 32) items ↔
      (∀ before f, NamedFile (initExfat n disk loadBuffer behind).upcaseTable items before f →
        32 * (entriesOf before + (f.nameEntries + 2)) ≤ (diskVolume n disk).clusterBytes) ∧
      ∀ k < (root :: l).length * (diskVolume n disk).clusterBytes / 32,
        UpcaseAt ((diskVolume n disk).inRow disk (root :: l)) k → 32 * k < n := by
  obtain ⟨-, -, hdvd⟩ := hv.sector_bounds
  obtain ⟨hvolume, hcluster, -⟩ := @initExfat_eq n disk loadBuffer behind hv
  rw [hfirst] at hcluster
  have h2 := (hroot.cluster root List.mem_cons_self).1
  have hmul := hv.clusterBytes_eq.2
  have hsector : ∀ a < n, (diskVolume n disk).clusterAt disk root a
      = (diskVolume n disk).inRow disk (root :: l) a := by
    intro a ha
    have hle : n ≤ (diskVolume n disk).clusterBytes := hv.clusterBytes_eq.1 ▸ hv.cluster
    rw [inRow_of_lt (by omega), Volume.clusterAt, getHeapLba_mul hv.shift hv.dvd haligned h2 hstart]
  have hupcase : ∀ k, UpcaseAt ((diskVolume n disk).inRow disk (root :: l)) k →
      (upcaseSearch n disk loadBuffer = some (32 * k) ↔ 32 * k < n) := by
    intro k hk
    rw [upcaseSearch_eq hv, hfirst]
    exact upcaseEntry_eq_iff hdvd hsector hk
  constructor
  · intro hsees
    refine ⟨fun before f hf => ?_, fun k hlt hk => (hupcase k hk).mp (hsees.upcase k hlt hk)⟩
    by_contra hend
    exact not_findsFile hv haligned hfirst hstart hroot hf (by omega) (hsees.file before f hf)
  · rintro ⟨hfiles, hentry⟩
    refine ⟨fun before f hf m dest hdest => ?_, fun k hlt hk => ?_⟩
    · rw [hvolume] at hdest
      rw [hvolume, hcluster]
      exact findFile_root hv haligned hstart hroot hf (hfiles before f hf) m hdest
    · exact (hupcase k hk).mpr (hentry k hlt hk)

/-- A drive with sectors and clusters of 512 bytes, whose root directory has two clusters and
one file `A`, from entry `i` on. -/
def rootDrive (i : ℕ) : Mem := fun x =>
  if x = 0x20000 + 80 then 24
  else if x = 0x20000 + 88 then 128
  else if x = 0x20000 + 92 then 100
  else if x = 0x20000 + 96 then 2
  else if x = 0x23000 + 8 then 3
  else if 0x23000 + 12 ≤ x ∧ x < 0x23000 + 16 then 0xff
  else if x = 0x30000 + 32 * i then 0x85
  else if x = 0x30000 + 32 * i + 1 then 2
  else if x = 0x30000 + 32 * i + 32 then 0xc0
  else if x = 0x30000 + 32 * i + 35 then 1
  else if x = 0x30000 + 32 * i + 52 then 4
  else if x = 0x30000 + 32 * i + 56 then 1
  else if x = 0x30000 + 32 * i + 64 then 0xc1
  else if x = 0x30000 + 32 * i + 66 then 65
  else 0

/-- The file. -/
def rootDriveFile : DirFile := .ofChar 65 ⟨4, 1⟩

theorem rootDrive_sized {i : ℕ} (hi : i = 0 ∨ i = 16) : (diskVolume 512 (rootDrive i)).Sized := by
  obtain rfl | rfl := hi
  · exact ⟨⟨9, le_refl 9, rfl⟩, by decide +kernel, by decide +kernel⟩
  · exact ⟨⟨9, le_refl 9, rfl⟩, by decide +kernel, by decide +kernel⟩

/-- The entries on the drive. -/
theorem holdsSets_rootDrive {i : ℕ} (hi : i = 0 ∨ i = 16) : HoldsSets (rootDrive i) 0x30000 32 0
    (List.replicate i .other ++ .file rootDriveFile :: List.replicate (29 - i) .other) := by
  have hentry : ∀ j < 1, j = 0 := fun j hj => Nat.lt_one_iff.mp hj
  obtain rfl | rfl := hi
  · refine ⟨⟨rfl, rfl, rfl, rfl, rfl, rfl, fun j hj => ?_, fun k hk => ?_⟩, ?_⟩
    · obtain rfl := hentry j hj
      rfl
    · obtain rfl := hentry k hk
      rfl
    · exact @holdsSets_replicate (rootDrive 0) 0x30000 29 3 (by decide +kernel)
  · refine holdsSets_append.mpr
      ⟨@holdsSets_replicate (rootDrive 16) 0x30000 16 0 (by decide +kernel),
        ⟨rfl, rfl, rfl, rfl, rfl, rfl, fun j hj => ?_, fun k hk => ?_⟩, ?_⟩
    · obtain rfl := hentry j hj
      rfl
    · obtain rfl := hentry k hk
      rfl
    · exact @holdsSets_replicate (rootDrive 16) 0x30000 13 19 (by decide +kernel)

theorem rootDrive_directory {i : ℕ} (hi : i = 0 ∨ i = 16) :
    RootDirectory (diskVolume 512 (rootDrive i)) (rootDrive i) 2 [3]
      (List.replicate i .other ++ .file rootDriveFile :: List.replicate (29 - i) .other) := by
  have hchain : (diskVolume 512 (rootDrive i)).fatEntry (rootDrive i) 2 = 3 ∧
      (diskVolume 512 (rootDrive i)).fatEntry (rootDrive i) 3 = endOfChain := by
    obtain rfl | rfl := hi
    · exact ⟨by decide +kernel, by decide +kernel⟩
    · exact ⟨by decide +kernel, by decide +kernel⟩
  have hcount : (diskVolume 512 (rootDrive i)).clusterCount = 100 ∧
      (diskVolume 512 (rootDrive i)).clusterBytes = 512 ∧
      (diskVolume 512 (rootDrive i)).clusterStart 2 = 0x30000 ∧
      (diskVolume 512 (rootDrive i)).clusterStart 3 = 0x30200 := by
    obtain rfl | rfl := hi
    · exact ⟨by decide +kernel, by decide +kernel, by decide +kernel, by decide +kernel⟩
    · exact ⟨by decide +kernel, by decide +kernel, by decide +kernel, by decide +kernel⟩
  refine ⟨⟨rfl, hchain.1, hchain.2⟩, fun c hc => ?_, ?_⟩
  · rw [hcount.1]
    rcases List.mem_cons.mp hc with rfl | hc
    · omega
    · obtain rfl := List.mem_singleton.mp hc
      omega
  · rw [hcount.2.1]
    refine (holdsSets_rootDrive hi).congr fun a ha => ?_
    rw [Volume.inRow, hcount.2.1, Nat.zero_add]
    obtain hlow | hhigh : a / 512 = 0 ∨ a / 512 = 1 := by omega
    · rw [hlow]
      change rootDrive i ((diskVolume 512 (rootDrive i)).clusterStart 2 + a % 512) = _
      rw [hcount.2.2.1]
      congr 1
      omega
    · rw [hhigh]
      change rootDrive i ((diskVolume 512 (rootDrive i)).clusterStart 3 + a % 512) = _
      rw [hcount.2.2.2]
      congr 1
      omega

/-- With the file in the first cluster, all of the directory is searched. -/
theorem seesRoot_rootDrive : SeesRoot 512 (rootDrive 0) (fun _ => 0) (fun _ => 0)
    ((diskVolume 512 (rootDrive 0)).inRow (rootDrive 0) [2, 3]) 32
    (.file rootDriveFile :: List.replicate 29 .other) := by
  refine (seesRoot_iff (rootDrive_sized (Or.inl rfl)) (by decide +kernel) (by decide +kernel)
    (by decide +kernel) (rootDrive_directory (Or.inl rfl))).mpr ⟨fun before f hf => ?_, ?_⟩
  · obtain ⟨after, hplace⟩ := hf.place
    have hfiles := congrArg filesOf hplace
    rw [List.replicate_zero, List.nil_append, filesOf_append, filesOf, filesOf_replicate,
      filesOf] at hfiles
    cases before with
    | nil =>
        obtain rfl : rootDriveFile = f := (List.cons.inj hfiles).1
        decide +kernel
    | cons item before =>
        obtain ⟨rfl, -⟩ := List.cons.inj hplace
        exact absurd (List.cons.inj hfiles).2.symm (by simp)
  · intro k hk hupcase
    have hnone : ∀ k < 32, (diskVolume 512 (rootDrive 0)).inRow (rootDrive 0) [2, 3] (32 * k)
        ≠ 0x82 := by decide +kernel
    exact absurd hupcase.1 (hnone k hk)

/-- **A file in the second cluster** of the root directory is not found. -/
theorem seesRoot_fails :
    ¬ ∀ (n : ℕ) (disk loadBuffer : Mem) (behind : ℕ → ℕ) (root : ℕ) (l : List ℕ)
      (items : List DirItem), (diskVolume n disk).Sized → (diskVolume n disk).HeapAligned →
      (bootSector n disk).read32 96 = root → (diskVolume n disk).clusterStart root < 2 ^ 32 →
      RootDirectory (diskVolume n disk) disk root l items →
      SeesRoot n disk loadBuffer behind ((diskVolume n disk).inRow disk (root :: l))
        ((root :: l).length * (diskVolume n disk).clusterBytes / 32) items := by
  intro hall
  have hv := rootDrive_sized (Or.inr rfl : 16 = 0 ∨ 16 = 16)
  have hroot := rootDrive_directory (Or.inr rfl : 16 = 0 ∨ 16 = 16)
  have hf : NamedFile (initExfat 512 (rootDrive 16) (fun _ => 0) (fun _ => 0)).upcaseTable
      (List.replicate 16 .other ++ .file rootDriveFile :: List.replicate (29 - 16) .other)
      (List.replicate 16 .other) rootDriveFile := by
    refine ⟨⟨_, rfl⟩, fun a ha => ?_, fun g hg => ?_⟩
    · obtain rfl := List.mem_singleton.mp ha
      rw [initExfat_eq hv |>.2.2 65 (by omega) (by omega)]
      exact ⟨by omega, by omega, by omega⟩
    · rw [filesOf_replicate] at hg
      exact absurd hg List.not_mem_nil
  have hsees := hall 512 (rootDrive 16) (fun _ => 0) (fun _ => 0) 2 [3] _ hv (by decide +kernel)
    (by decide +kernel) (by decide +kernel) hroot
  exact not_findsFile hv (by decide +kernel) (by decide +kernel) (by decide +kernel) hroot hf
    (by decide +kernel) (hsees.file _ _ hf)

end LoofOS
