import LoofOS.PathWalk

/-!
# Contiguous Files

The stream extension entry of a file has a flag that says that its clusters are consecutive and have
no chain in the FAT. `_read_file_exfat_helper` does not look at the flag: it loads consecutive
clusters when the entry of the FAT that it uses for the first cluster is zero, and otherwise follows
the entries that it uses (`Follows`). What it loads is determined by these entries
(`helper_loaded_iff`).

The loop over consecutive clusters places them one after the other (`placed_loadConsecutive`). They
are the clusters of the drive when these consist of whole sectors of the drive.

## Main results

* `loadsData_iff`: when the clusters of the data are loaded.
* `readFile_consecutive`: what the loop over consecutive clusters reads.
-/

namespace LoofOS

open LinkedChain

variable {v : Volume} {disk stack m : Mem} {upcaseTable : ℕ → ℕ} {call : FileCall} {e : Extension}
  {dest c i n : ℕ} {l : List ℕ}

/-! ### The entry that is selected -/

/-- The search selects the file whose entries start with entry `i`, and `e` is its stream extension
entry. -/
def Selects (v : Volume) (upcaseTable : ℕ → ℕ) (m : Mem) (call : FileCall) (i : ℕ)
    (e : Extension) : Prop :=
  ∃ filename, Loop.Visits (searchEntry v upcaseTable m call) (0, fun _ => 0) (i, filename) ∧
    searchEntry v upcaseTable m call (i, filename) = Sum.inr (some (some e))

theorem Selects.findFile (h : Selects v upcaseTable m call i e) :
    findFile v upcaseTable m call = some (some e) := by
  obtain ⟨filename, hvisits, hbody⟩ := h
  obtain ⟨fuel, hfuel⟩ := hvisits.iter_eq (Loop.iter_succ_of_inr hbody 0)
  obtain ⟨r, hr⟩ := Option.isSome_iff_exists.mp (search_isSome v upcaseTable m call)
  rw [LoofOS.findFile, hr, Loop.iter_unique hr hfuel]
  rfl

/-- The entry that is selected is behind that of the file. -/
theorem Selects.eq (h : Selects v upcaseTable m call i e) :
    e = ⟨m.read32 (dirEntry call (i + 1) + 20), m.read32 (dirEntry call (i + 1) + 24)
      + 2 ^ 32 * m.read32 (dirEntry call (i + 1) + 28)⟩ := by
  obtain ⟨filename, -, hbody⟩ := h
  simp only [searchEntry] at hbody
  split at hbody
  · split at hbody
    · split at hbody
      · cases hbody
      · split at hbody
        · exact (Option.some.inj (Option.some.inj (Sum.inr.inj hbody))).symm
        · cases hbody
    · cases hbody
  · cases hbody

/-- The flag `nofatchain` of the stream extension entry behind entry `i`. -/
def noFatChain (m : Mem) (call : FileCall) (i : ℕ) : Bool :=
  decide ((m (dirEntry call (i + 1) + 1)).toNat / 2 % 2 = 1)

/-! ### What is loaded -/

theorem loaded_loadConsecutive (r : FileRead) (n : ℕ) : (loadConsecutive v disk dest c r n).loaded
    = r.loaded ++ (List.range n).map fun j => wrap32 (c + j) := by
  induction n with
  | zero => exact (List.append_nil _).symm
  | succ n ih =>
      rw [loadConsecutive, loadCluster, ih, List.range_succ, List.map_append, List.append_assoc]
      rfl

theorem loaded_loadConsecutive_nil (n : ℕ) : (loadConsecutive v disk dest c ⟨m, []⟩ n).loaded
    = (List.range n).map fun j => wrap32 (c + j) := by
  rw [loaded_loadConsecutive, List.nil_append]

/-- **Which clusters are loaded** is up to the entries of the FAT that are used. -/
theorem loadFile_loaded_iff (hid : 0 < v.idPerCluster) :
    (∃ fuel r, loadFile v disk stack fuel m dest e = some r ∧ r.loaded = l) ↔
      (fatNext v disk e.firstCluster = some 0 ∧
        l = (List.range (clusterCountOf v e)).map fun j => wrap32 (e.firstCluster + j)) ∨
      (fatNext v disk e.firstCluster ≠ some 0 ∧ Follows v disk e.firstCluster l) := by
  rw [← @loaded_loadConsecutive_nil v disk m dest e.firstCluster (clusterCountOf v e)]
  simp only [loadFile_eq hid]
  cases hnext : fatNext v disk e.firstCluster with
  | none =>
      constructor
      · rintro ⟨_, _, hrun, -⟩
        cases hrun
      · rintro (⟨hzero, -⟩ | ⟨-, hfollows⟩)
        · cases hzero
        · cases l with
          | nil => exact absurd hfollows id
          | cons x l =>
              obtain ⟨-, d, hd, -⟩ := hfollows
              exact absurd (hd.symm.trans hnext) (Option.some_ne_none d)
  | some d =>
      simp only [Option.bind_some, ne_eq, Option.some.injEq]
      by_cases hzero : d = 0
      · simp only [hzero, if_true, true_and, not_true, false_and, or_false, Option.some.injEq]
        constructor
        · rintro ⟨_, _, rfl, rfl⟩
          rfl
        · rintro rfl
          exact ⟨0, _, rfl, rfl⟩
      · simp only [hzero, if_false, false_and, false_or, not_false_iff, true_and]
        have hs := holdsEntry_start hid disk stack m e.firstCluster
        constructor
        · rintro ⟨fuel, r, hrun, rfl⟩
          obtain ⟨l, hl, hfollows⟩ := follows_of_linkLoop hid hs (Option.join_eq_some_iff.mp hrun)
          rw [hl]
          exact hfollows
        · intro hfollows
          obtain ⟨r, hr, hl⟩ := @linkLoop_of_follows v disk dest l _ hid hs hfollows
          exact ⟨l.length, r, by rw [hr]; rfl, hl⟩

/-- **Which clusters a call loads** for the file that it has found. -/
theorem helper_loaded_iff (hid : 0 < v.idPerCluster)
    (hfound : findFile v upcaseTable m call = some (some e)) :
    (∃ fuel n r, readFileExfatHelper v disk stack upcaseTable fuel m call = some (n, r) ∧
      r.loaded = l) ↔
      (fatNext v disk e.firstCluster = some 0 ∧
        l = (List.range (clusterCountOf v e)).map fun j => wrap32 (e.firstCluster + j)) ∨
      (fatNext v disk e.firstCluster ≠ some 0 ∧ Follows v disk e.firstCluster l) := by
  rw [← @loadFile_loaded_iff v disk stack m e call.destBuffer l hid]
  simp only [readFile_found hfound, Option.map_eq_some_iff, Prod.mk.injEq]
  constructor
  · rintro ⟨fuel, _, r, ⟨_, hrun, rfl, rfl⟩, hl⟩
    exact ⟨fuel, _, hrun, hl⟩
  · rintro ⟨fuel, r, hrun, hl⟩
    exact ⟨fuel, _, r, ⟨r, hrun, rfl, rfl⟩, hl⟩

/-! ### The clusters of the data -/

/-- The clusters that the data of a file takes. -/
def dataClusters (v : Volume) (e : Extension) : ℕ :=
  (e.dataLength + v.clusterBytes - 1) / v.clusterBytes

/-- The data of the file, for the given flag `nofatchain`, is in the clusters of the list: in
consecutive ones; in none, for there is no first cluster; or in those of the chain in the FAT. -/
inductive DataIn (v : Volume) (disk : Mem) (e : Extension) : Bool → List ℕ → Prop
  | consecutive : DataIn v disk e true (List.range' e.firstCluster (dataClusters v e))
  | empty : e.firstCluster = 0 → DataIn v disk e false []
  | chain {l : List ℕ} : Chain (v.fatEntry disk) e.firstCluster l endOfChain →
      DataIn v disk e false l

/-- The entries that are used happen to link `n` clusters in their order, the last one to an end. -/
structure LinkedInOrder (v : Volume) (disk : Mem) (c n : ℕ) : Prop where
  pos : 0 < n
  next : ∀ j, j + 1 < n → fatNext v disk (c + j) = some (c + j + 1)
  last : ∃ d, fatNext v disk (c + (n - 1)) = some d ∧ EndsLoop d

/-- When the clusters of the data are loaded. If the flag is set, the entry that is used for the
first cluster is zero, and the size does not overflow, or the clusters happen to be linked in their
order. If it is clear, this entry is zero, and the clusters happen to be consecutive, or the entries
that are used lead through the clusters. -/
def RightLoop (v : Volume) (disk : Mem) (e : Extension) : Bool → List ℕ → Prop
  | true, _ =>
      (fatNext v disk e.firstCluster = some 0 ∧ e.dataLength + v.clusterBytes ≤ 2 ^ 32) ∨
        (fatNext v disk e.firstCluster ≠ some 0 ∧
          LinkedInOrder v disk e.firstCluster (dataClusters v e))
  | false, l =>
      (fatNext v disk e.firstCluster = some 0 ∧ l = List.range' e.firstCluster
        ((e.dataLength + v.clusterBytes - 1) % 2 ^ 32 / v.clusterBytes)) ∨
        (fatNext v disk e.firstCluster ≠ some 0 ∧ Follows v disk e.firstCluster l)

/-- **One cluster more**: it is the last one, or its entry leads to the next one. -/
theorem linkedInOrder_succ : LinkedInOrder v disk c (n + 1) ↔
    (n = 0 ∧ ∃ d, fatNext v disk c = some d ∧ EndsLoop d) ∨
      (fatNext v disk c = some (c + 1) ∧ LinkedInOrder v disk (c + 1) n) := by
  have hshift : ∀ j, c + (j + 1) = c + 1 + j := fun j => Nat.add_right_comm c j 1
  constructor
  · rintro ⟨-, hnext, hlast⟩
    rcases Nat.eq_zero_or_pos n with rfl | hpos
    · exact Or.inl ⟨rfl, hlast⟩
    · refine Or.inr ⟨hnext 0 (Nat.succ_lt_succ hpos), hpos, fun j hj => ?_, ?_⟩
      · rw [← hshift]
        exact hnext (j + 1) (Nat.succ_lt_succ hj)
      · rwa [← hshift, Nat.sub_add_cancel hpos]
  · rintro (⟨rfl, hlast⟩ | ⟨hfirst, hpos, hnext, hlast⟩)
    · exact ⟨Nat.one_pos, fun j hj => absurd hj (Nat.not_lt.mpr (Nat.le_add_left 1 j)), hlast⟩
    · refine ⟨Nat.succ_pos n, fun j hj => ?_, ?_⟩
      · cases j with
        | zero => exact hfirst
        | succ j =>
            rw [hshift]
            exact hnext j (Nat.lt_of_succ_lt_succ hj)
      · rwa [Nat.add_sub_cancel, ← Nat.sub_add_cancel hpos, hshift]

theorem follows_range'_iff (hends : ∀ x ∈ List.range' c n, ¬ EndsLoop x) :
    Follows v disk c (List.range' c n) ↔ LinkedInOrder v disk c n := by
  induction n generalizing c with
  | zero => exact ⟨fun h => absurd h id, fun h => absurd h.pos (lt_irrefl 0)⟩
  | succ n ih =>
      rw [List.range'_succ] at hends ⊢
      obtain ⟨-, hrest⟩ := List.forall_mem_cons.mp hends
      rw [linkedInOrder_succ]
      constructor
      · rintro ⟨-, d, hd, ⟨hend, hnil⟩ | ⟨-, hfollows⟩⟩
        · exact Or.inl ⟨List.range'_eq_nil_iff.mp hnil, d, hd, hend⟩
        · -- the next cluster is the first one of the rest
          cases n with
          | zero => exact absurd hfollows id
          | succ n =>
              have hcons := hfollows
              rw [List.range'_succ] at hcons
              obtain rfl : c + 1 = d := hcons.1
              exact Or.inr ⟨hd, (ih hrest).mp hfollows⟩
      · rintro (⟨rfl, d, hd, hend⟩ | ⟨hd, hlinked⟩)
        · exact ⟨rfl, d, hd, Or.inl ⟨hend, rfl⟩⟩
        · have hmem : c + 1 ∈ List.range' (c + 1) n :=
            List.mem_range'_1.mpr ⟨le_refl _, Nat.lt_add_of_pos_right hlinked.pos⟩
          exact ⟨rfl, c + 1, hd, Or.inr ⟨hrest _ hmem, (ih hrest).mpr hlinked⟩⟩

theorem clusterCountOf_eq (hpos : 0 < v.clusterBytes) : clusterCountOf v e
    = (e.dataLength + v.clusterBytes - 1) % 2 ^ 32 / v.clusterBytes := by
  have hmod : ((e.dataLength + v.clusterBytes) % 2 ^ 32 + 2 ^ 32 - 1) % 2 ^ 32
      = (e.dataLength + v.clusterBytes - 1) % 2 ^ 32 := by omega
  rw [clusterCountOf, sub32, wrap32, hmod]

/-- The number of clusters is right if the size does not overflow. -/
theorem Volume.Sized.clusterCountOf_iff (h : v.Sized) :
    clusterCountOf v e = dataClusters v e ↔ e.dataLength + v.clusterBytes ≤ 2 ^ 32 := by
  obtain ⟨hbytes, -⟩ := h.clusterBytes_eq
  have hpow : v.clusterBytes = 2 ^ (v.sectorsPerClusterShift + 9) := by
    rw [hbytes, pow_add]
    ring
  have hpos : 0 < v.clusterBytes := by
    rw [hpow]
    exact Nat.two_pow_pos _
  obtain ⟨q, hq⟩ : v.clusterBytes ∣ 2 ^ 32 := by
    rw [hpow]
    exact Nat.pow_dvd_pow 2 (by have := h.shift; omega)
  rw [clusterCountOf_eq hpos, dataClusters]
  constructor
  · intro heq
    by_contra hlt
    have hlow : (e.dataLength + v.clusterBytes - 1) % 2 ^ 32 / v.clusterBytes < q := by
      rw [Nat.div_lt_iff_lt_mul hpos, Nat.mul_comm, ← hq]
      exact Nat.mod_lt _ (Nat.two_pow_pos 32)
    have hhigh : q ≤ (e.dataLength + v.clusterBytes - 1) / v.clusterBytes := by
      rw [Nat.le_div_iff_mul_le hpos, Nat.mul_comm, ← hq]
      omega
    omega
  · intro hle
    rw [Nat.mod_eq_of_lt (by omega)]

/-- Clusters of the volume are consecutive with and without overflow. -/
theorem Volume.Sized.map_range_iff (h : v.Sized) (hc : c < 2 ^ 32)
    (hin : ∀ x ∈ l, v.HasCluster x) :
    (l = (List.range (clusterCountOf v e)).map fun j => wrap32 (c + j)) ↔
      l = List.range' c (clusterCountOf v e) := by
  obtain ⟨hbytes, -⟩ := h.clusterBytes_eq
  have hone := Nat.one_le_two_pow (n := v.sectorsPerClusterShift)
  have hcount : clusterCountOf v e * v.clusterBytes < 2 ^ 32 := by
    rw [clusterCountOf_eq (by omega)]
    exact (Nat.div_mul_le_self _ _).trans_lt (Nat.mod_lt _ (Nat.two_pow_pos 32))
  have hsmall : clusterCountOf v e < 2 ^ 23 := by
    have := Nat.mul_le_mul_left (clusterCountOf v e) (show 512 ≤ v.clusterBytes by omega)
    omega
  -- a first cluster of the volume is far from an overflow
  have heq : v.HasCluster c → ((List.range (clusterCountOf v e)).map fun j => wrap32 (c + j))
      = List.range' c (clusterCountOf v e) := by
    intro hcluster
    have hfat := hcluster.fat
    rw [List.range'_eq_map_range]
    refine List.map_congr_left fun j hj => wrap32_of_lt ?_
    have := List.mem_range.mp hj
    omega
  by_cases hzero : clusterCountOf v e = 0
  · rw [hzero, List.range_zero, List.map_nil, List.range'_zero]
  · constructor
    · rintro rfl
      refine heq ?_
      have hfirst := hin (wrap32 (c + 0))
        (List.mem_map.mpr ⟨0, List.mem_range.mpr (Nat.pos_of_ne_zero hzero), rfl⟩)
      rwa [Nat.add_zero, wrap32_of_lt hc] at hfirst
    · rintro rfl
      exact (heq (hin c (List.mem_range'_1.mpr (by omega)))).symm

/-- **Which clusters of the data are loaded**, by the loading part of the call. -/
theorem loadFile_data_iff (h : v.Sized) (hc : e.firstCluster < 2 ^ 32) {flag : Bool}
    (hdata : DataIn v disk e flag l) (hin : ∀ x ∈ l, v.HasCluster x) :
    (∃ fuel r, loadFile v disk stack fuel m dest e = some r ∧ r.loaded = l) ↔
      RightLoop v disk e flag l := by
  rw [loadFile_loaded_iff h.idPerCluster_pos, h.map_range_iff hc hin]
  cases flag with
  | false => rw [RightLoop, clusterCountOf_eq h.clusterBytes_pos]
  | true =>
      cases hdata
      rw [RightLoop, follows_range'_iff fun x hx => (hin x hx).not_endsLoop,
        ← h.clusterCountOf_iff]
      refine or_congr (and_congr_right fun _ => ⟨fun heq => ?_, fun heq => by rw [heq]⟩) Iff.rfl
      have hlen := congrArg List.length heq
      rw [List.length_range', List.length_range'] at hlen
      exact hlen.symm

/-- **Which files are loaded**: the flag plays no part in it. For every well-formed volume and every
file that the search selects, with clusters of the volume. -/
theorem loadsData_iff (h : v.Accepted) (hselects : Selects v upcaseTable m call i e)
    (hdata : DataIn v disk e (noFatChain m call i) l) (hin : ∀ x ∈ l, v.HasCluster x) :
    (∃ fuel n r, readFileExfatHelper v disk stack upcaseTable fuel m call = some (n, r) ∧
      r.loaded = l) ↔ RightLoop v disk e (noFatChain m call i) l := by
  have hc : e.firstCluster < 2 ^ 32 := by
    rw [hselects.eq]
    exact Mem.read32_lt _ _
  rw [helper_loaded_iff h.sized.idPerCluster_pos hselects.findFile,
    ← @loadFile_loaded_iff v disk stack m e call.destBuffer l h.sized.idPerCluster_pos]
  exact loadFile_data_iff h.sized hc hdata hin

/-- A directory with one file `A` of 600 bytes in the clusters 2 and 3, with the flag
`nofatchain`. -/
def contiguousFile : Mem := fun x =>
  if x = 0 then 0x85 else if x = 1 then 2 else if x = 32 then 0xc0 else if x = 33 then 2
  else if x = 35 then 1 else if x = 52 then 2 else if x = 56 then 0x58 else if x = 57 then 2
  else if x = 64 then 0xc1 else if x = 66 then 65 else 0

/-- The search for that file, to be read to `0x10000`. -/
def contiguousCall : FileCall := ⟨fun _ => 65, 1, 0, 1, 0x10000⟩

/-- A drive with a byte in each of its clusters. -/
def contiguousDrive : Mem := fun x => if x = 0x30000 then 7 else if x = 0x30257 then 9 else 0

theorem selects_contiguousFile :
    Selects (smallVolume 0) (fun x => x) contiguousFile contiguousCall 0 ⟨2, 600⟩ := by
  have hlt : 0 < entryCount (smallVolume 0) contiguousCall := by decide +kernel
  have htype : contiguousFile (dirEntry contiguousCall 0) = 0x85 := by decide +kernel
  have hcount : (contiguousFile (dirEntry contiguousCall 0 + 1)).toNat - 1 = 1 := by decide +kernel
  have hlen : (contiguousFile (dirEntry contiguousCall (0 + 1) + 3)).toNat
      = contiguousCall.nameLen := by
    decide +kernel
  have hname : nameEqual contiguousCall (fun j => copyName contiguousFile contiguousCall 0 1
      (fun _ => 0) j) = true := by
    decide +kernel
  have hentry : (⟨contiguousFile.read32 (dirEntry contiguousCall (0 + 1) + 20),
      contiguousFile.read32 (dirEntry contiguousCall (0 + 1) + 24)
        + 2 ^ 32 * contiguousFile.read32 (dirEntry contiguousCall (0 + 1) + 28)⟩ : Extension)
      = ⟨2, 600⟩ := by
    decide +kernel
  refine ⟨fun _ => 0, .refl, ?_⟩
  simp only [searchEntry, if_pos hlt, if_pos htype, hcount, hlen, hentry, true_and]
  rw [if_neg (by simp), if_pos hname]

theorem smallVolume_twoClusters : ∀ x ∈ [2, 3], (smallVolume 0).HasCluster x := by
  intro x hx
  have hle : 2 ≤ x ∧ x ≤ 3 := by
    simp only [List.mem_cons, List.not_mem_nil, or_false] at hx
    omega
  exact smallVolume_hasCluster (by simp) hle.1 (by omega)

/-- Both clusters of that file are loaded from this drive. -/
theorem loadsData_clusters : ∃ fuel n r, readFileExfatHelper (smallVolume 0) contiguousDrive
    (fun _ => 0) (fun x => x) fuel contiguousFile contiguousCall = some (n, r) ∧
      r.loaded = [2, 3] :=
  (loadsData_iff (smallVolume_accepted (by simp)) selects_contiguousFile
    (show DataIn _ _ _ true [2, 3] from .consecutive) smallVolume_twoClusters).mpr
    (Or.inl ⟨by decide +kernel, by decide +kernel⟩)

/-- **What an earlier file has left** in the FAT: an entry that is neither zero nor an end. -/
theorem loadsData_fails :
    ¬ ∀ (v : Volume) (disk stack m : Mem) (upcaseTable : ℕ → ℕ) (call : FileCall) (e : Extension)
      (i : ℕ) (l : List ℕ), v.Accepted → Selects v upcaseTable m call i e →
      DataIn v disk e (noFatChain m call i) l → (∀ x ∈ l, v.HasCluster x) →
      ∃ fuel n r, readFileExfatHelper v disk stack upcaseTable fuel m call = some (n, r) ∧
        r.loaded = l := by
  intro hall
  have hloads := hall (smallVolume 0) (fatDisk (smallVolume 0) fun _ => 7) (fun _ => 0)
    contiguousFile (fun x => x) contiguousCall ⟨2, 600⟩ 0 [2, 3] (smallVolume_accepted (by simp))
    selects_contiguousFile (show DataIn _ _ _ true [2, 3] from .consecutive) smallVolume_twoClusters
  have hnext : fatNext (smallVolume 0) (fatDisk (smallVolume 0) fun _ => 7) 2 = some 7 := by
    decide +kernel
  rcases (helper_loaded_iff (by decide) selects_contiguousFile.findFile).mp hloads with
    ⟨hzero, -⟩ | ⟨-, -, d, hd, hcases⟩
  · exact absurd (hzero.symm.trans hnext) (by simp)
  · obtain rfl : d = 7 := Option.some.inj (hd.symm.trans hnext)
    rcases hcases with ⟨hend, -⟩ | ⟨-, hfollows⟩
    · exact absurd hend (by decide)
    · exact absurd hfollows.1 (by decide)

/-! ### Consecutive clusters -/

/-- The clusters start and end with sectors of the drive. -/
structure Volume.WholeSectors (v : Volume) : Prop where
  size : v.driveBytesPerSector ∣ 512 * 2 ^ v.sectorsPerClusterShift
  start : v.HeapAligned

/-- **The loop over consecutive clusters** places the clusters that it loads. -/
theorem placed_loadConsecutive (hpos : 0 < v.clusterBytes) (n : ℕ) :
    Placed v disk m dest (loadConsecutive v disk dest c ⟨m, []⟩ n) := by
  induction n with
  | zero => exact placed_nil disk m dest
  | succ n ih =>
      have hstep := ih.loadCluster hpos (wrap32 (c + n))
      rw [length_loadConsecutive, List.length_nil, Nat.zero_add] at hstep
      exact hstep

/-- The file is loaded by this loop. -/
theorem loadFile_of_zero {fuel : ℕ} (hid : 0 < v.idPerCluster)
    (hzero : fatNext v disk e.firstCluster = some 0) : loadFile v disk stack fuel m dest e
      = some (loadConsecutive v disk dest e.firstCluster ⟨m, []⟩ (clusterCountOf v e)) := by
  rw [loadFile_eq hid, hzero, Option.bind_some, if_pos rfl]

/-- What the loop over consecutive clusters reads, with the sectors that it takes for them. -/
theorem readFile_placed {fuel : ℕ} (hpos : 3 < v.clusterBytes)
    (hlen : e.dataLength + v.clusterBytes ≤ 2 ^ 32)
    (hfound : findFile v upcaseTable m call = some (some e))
    (hzero : fatNext v disk e.firstCluster = some 0)
    (hlt : ∀ j < dataClusters v e, e.firstCluster + j < 2 ^ 32) :
    ∃ r, readFileExfatHelper v disk stack upcaseTable fuel m call = some (dataClusters v e, r) ∧
      r.loaded = List.range' e.firstCluster (dataClusters v e) ∧
      Placed v disk m call.destBuffer r := by
  have hid : 0 < v.idPerCluster := by
    rw [Volume.idPerCluster]
    omega
  have hcount : clusterCountOf v e = dataClusters v e := by
    rw [clusterCountOf_eq (by omega), dataClusters, Nat.mod_eq_of_lt (by omega)]
  refine ⟨_, ?_, ?_, placed_loadConsecutive (c := e.firstCluster) (by omega) (dataClusters v e)⟩
  · rw [readFile_found hfound, loadFile_of_zero hid hzero, hcount]
    rfl
  · rw [loaded_loadConsecutive_nil, List.range'_eq_map_range]
    exact List.map_congr_left fun j hj => wrap32_of_lt (hlt j (List.mem_range.mp hj))

/-- **Consecutive clusters are read** when they start and end with sectors of the drive: they are in
the destination one after the other, nothing else has changed, and their number is returned. The
directory that was searched may be in the destination. -/
theorem readFile_consecutive {fuel : ℕ} (hsectors : v.WholeSectors)
    (hlen : e.dataLength + 512 * 2 ^ v.sectorsPerClusterShift < 2 ^ 31)
    (hfound : findFile v upcaseTable m call = some (some e))
    (hzero : fatNext v disk e.firstCluster = some 0)
    (hin : ∀ j < dataClusters v e, 2 ≤ e.firstCluster + j ∧
      v.clusterStart (e.firstCluster + j) < 2 ^ 32)
    (hfit : call.destBuffer + v.clusterBytes * dataClusters v e ≤ 2 ^ 32) :
    ∃ r, readFileExfatHelper v disk stack upcaseTable fuel m call = some (dataClusters v e, r) ∧
      ReadsChain v disk m call.destBuffer (List.range' e.firstCluster (dataClusters v e)) r := by
  have hone := Nat.one_le_two_pow (n := v.sectorsPerClusterShift)
  have hshift : v.sectorsPerClusterShift < 23 := by
    by_contra hge
    have hpow : 2 ^ 23 ≤ 2 ^ v.sectorsPerClusterShift := Nat.pow_le_pow_right Nat.two_pos (by omega)
    omega
  have hbytes := clusterBytes_of_dvd hshift hsectors.size
  have hlt : ∀ j < dataClusters v e, e.firstCluster + j < 2 ^ 32 := fun j hj => by
    obtain ⟨h2, hstart⟩ := hin j hj
    have hle := Nat.le_mul_of_pos_right (e.firstCluster + j - 2)
      (Nat.two_pow_pos v.sectorsPerClusterShift)
    rw [Volume.clusterStart] at hstart
    omega
  obtain ⟨r, hrun, hloaded, hplaced⟩ := @readFile_placed v disk stack m upcaseTable call e fuel
    (by omega) (by omega) hfound hzero hlt
  have hnum : r.loaded.length = dataClusters v e := by rw [hloaded, List.length_range']
  obtain ⟨hmem, hframe⟩ := hplaced (by rw [hnum]; exact hfit)
  refine ⟨r, hrun, hloaded, fun j hj k hk => ?_, fun x hx => hframe x ?_⟩
  · rw [List.length_range'] at hj
    have hget := hmem j (hnum.symm ▸ hj) k hk
    obtain ⟨h2, hstart⟩ := hin j hj
    simp only [hloaded, List.getElem_range', Nat.one_mul] at hget
    rw [getHeapLba_mul hshift hsectors.size hsectors.start h2 hstart] at hget
    simp only [List.getElem_range', Nat.one_mul]
    exact hget
  · rw [List.length_range'] at hx
    rwa [hnum]

/-- A volume on a drive with sectors of 1024 bytes, with clusters of one sector that start in the
middle of sectors. -/
def unalignedVolume : Volume where
  fatOffset := 24
  clusterHeapOffset := 129
  clusterCount := 1000
  sectorsPerClusterShift := 1
  driveBytesPerSector := 1024

/-- Two clusters of a drive with data. -/
theorem readFile_consecutive_clusters : ∃ r,
    readFileExfatHelper (smallVolume 0) contiguousDrive (fun _ => 0) (fun x => x) 0 contiguousFile
      contiguousCall = some (2, r) ∧
    ReadsChain (smallVolume 0) contiguousDrive contiguousFile 0x10000 [2, 3] r := by
  have hcount : dataClusters (smallVolume 0) ⟨2, 600⟩ = 2 := by decide +kernel
  have hread := @readFile_consecutive (smallVolume 0) contiguousDrive (fun _ => 0) contiguousFile
    (fun x => x) contiguousCall ⟨2, 600⟩ 0 ⟨by decide, by decide⟩ (by decide)
    selects_contiguousFile.findFile (by decide +kernel) (fun j hj => ?_) (by decide +kernel)
  · rw [hcount] at hread
    exact hread
  · obtain rfl | rfl : j = 0 ∨ j = 1 := by omega
    · exact ⟨by simp, by decide⟩
    · exact ⟨by simp, by decide⟩

/-- **A cluster in the middle of sectors**: reading starts half a sector before it. -/
theorem readFile_unaligned :
    ¬ ∀ (v : Volume) (disk stack m : Mem) (upcaseTable : ℕ → ℕ) (call : FileCall) (e : Extension)
      (fuel : ℕ), (∃ k, v.driveBytesPerSector = 2 ^ k) →
      v.driveBytesPerSector ≤ 512 * 2 ^ v.sectorsPerClusterShift →
      e.dataLength + 512 * 2 ^ v.sectorsPerClusterShift < 2 ^ 31 →
      findFile v upcaseTable m call = some (some e) → fatNext v disk e.firstCluster = some 0 →
      (∀ j < dataClusters v e, 2 ≤ e.firstCluster + j ∧
        v.clusterStart (e.firstCluster + j) < 2 ^ 32) →
      call.destBuffer + v.clusterBytes * dataClusters v e ≤ 2 ^ 32 →
      ∃ r, readFileExfatHelper v disk stack upcaseTable fuel m call = some (dataClusters v e, r) ∧
        ReadsChain v disk m call.destBuffer (List.range' e.firstCluster (dataClusters v e)) r := by
  intro hall
  set disk : Mem := Mem.store (fun _ => 0) 197120 1 with hdisk
  have hcount : dataClusters unalignedVolume ⟨2, 600⟩ = 1 := by decide +kernel
  have hfound : findFile unalignedVolume (fun x => x) contiguousFile contiguousCall
      = some (some ⟨2, 600⟩) := by decide +kernel
  have hzero : fatNext unalignedVolume disk 2 = some 0 := by decide +kernel
  obtain ⟨r, hrun, hread⟩ := hall unalignedVolume disk (fun _ => 0) contiguousFile (fun x => x)
    contiguousCall ⟨2, 600⟩ 0 ⟨10, rfl⟩ (by decide) (by decide) hfound hzero (fun j hj => by
      obtain rfl : j = 0 := by omega
      exact ⟨by simp, by decide⟩) (by decide +kernel)
  obtain ⟨r', hrun', hloaded, hplaced⟩ := @readFile_placed unalignedVolume disk (fun _ => 0)
    contiguousFile (fun x => x) contiguousCall ⟨2, 600⟩ 0 (by decide +kernel) (by decide +kernel)
    hfound hzero (fun j hj => show 2 + j < 2 ^ 32 by omega)
  obtain rfl : r = r' := (Prod.mk.inj (Option.some.inj (hrun.symm.trans hrun'))).2
  rw [hcount] at hloaded hread
  have hnum : r.loaded.length = 1 := by rw [hloaded, List.length_range']
  obtain ⟨hmem, -⟩ := hplaced (by rw [hnum]; decide +kernel)
  have hwant := hread.contents 0 (by simp) 0 (by decide +kernel)
  have hgot := hmem 0 (by omega) 0 (by decide +kernel)
  simp only [hloaded, List.getElem_range'] at hgot hwant
  exact absurd (hgot.symm.trans hwant) (by decide +kernel)

end LoofOS
