import LoofOS.CaseFold
import LoofOS.Contiguous

/-!
# Accesses to Arrays while a File is Looked Up

`_read_file_exfat_helper` takes indexes from the directory and from the FAT: the number of name
entries, the characters of names, and the numbers of clusters. This module lists the accesses to
`filename`, `upcase_table`, `fat_buffer` and `dir_buffer` that a call makes (`roundAccesses`,
`fatAccess`), and says for which directories and drives they are in bounds.

The search goes from file to file, and `filename` is not cleared in between. So a character that a
longer name has left is mapped by the up-case table once for each file since then (`leftChar`).

## Main results

* `roundInBounds_iff`: the accesses of one round of the search.
* `accessesInBounds_iff`: the directories and drives for which all accesses are in bounds.
-/

namespace LoofOS

variable {v : Volume} {disk stack m : Mem} {upcaseTable : ℕ → ℕ} {call : FileCall} {e : Extension}
  {fs : List ℕ} {c i k n : ℕ}

/-! ### The accesses -/

/-- An access to one of the arrays, with its index; for `dir_buffer` the number of the entry. -/
inductive ArrayAccess
  | filename (j : ℕ)
  | upcaseTable (j : ℕ)
  | fatBuffer (j : ℤ)
  | dirBuffer (k : ℕ)
  deriving DecidableEq

/-- The array has a place for it; a directory entry lies inside the clusters that were loaded. -/
def ArrayAccess.InBounds (v : Volume) (call : FileCall) : ArrayAccess → Prop
  | .filename j => j < 255
  | .upcaseTable j => j < 128
  | .fatBuffer j => 0 ≤ j ∧ j < v.idPerCluster
  | .dirBuffer k => 32 * (k + 1) ≤ call.clusters * v.clusterBytes

/-- The loop over `n` name entries. -/
def nameAccesses (i n : ℕ) : List ArrayAccess :=
  (List.range n).flatMap fun j =>
    .dirBuffer (i + j + 2) :: (List.range 15).map fun x => .filename (j * 15 + x)

/-- The loop that applies the up-case table. -/
def lookupAccesses (chars : ℕ → ℕ) : List ArrayAccess :=
  (List.range 255).flatMap fun j => [.filename j, .upcaseTable (chars j)]

/-- The loop that compares the names, which is left at the first difference. -/
def compareAccesses (call : FileCall) (filename : ℕ → ℕ) : List ArrayAccess :=
  ((List.range call.nameLen).filter fun j => nameEqual { call with nameLen := j } filename).map
    .filename

/-- The accesses of one round of the loop over the directory entries. -/
def roundAccesses (v : Volume) (upcaseTable : ℕ → ℕ) (m : Mem) (call : FileCall)
    (s : ℕ × (ℕ → ℕ)) : List ArrayAccess :=
  let (i, filename) := s
  if i < entryCount v call then
    if m (dirEntry call i) = 0x85 then
      let nameEntries := (m (dirEntry call i + 1)).toNat - 1
      let chars := copyName m call i nameEntries filename
      .dirBuffer i :: .dirBuffer (i + 1) :: nameAccesses i nameEntries ++ lookupAccesses chars ++
        if (m (dirEntry call (i + 1) + 3)).toNat = call.nameLen then
          compareAccesses call fun j => upcaseTable (chars j)
        else []
    else [.dirBuffer i]
  else []

/-- The access to `fat_buffer` for cluster `c`: the remainder of values of type `int`. -/
def fatAccess (v : Volume) (c : ℕ) : ArrayAccess :=
  .fatBuffer (Int.tmod (if c < 2 ^ 31 then (c : ℤ) else (c : ℤ) - 2 ^ 32) v.idPerCluster)

/-- The accesses while a file is loaded: one to see whether it has a chain, and one in each round of
the loop through the FAT. -/
def LoadInBounds (v : Volume) (disk stack m : Mem) (call : FileCall) (e : Extension) : Prop :=
  (fatAccess v e.firstCluster).InBounds v call ∧
    ∀ i, fatIndex v e.firstCluster = some i →
      (loadFat v disk stack e.firstCluster).read32 (4 * i) ≠ 0 →
      ∀ s, Loop.Visits (linkBody v disk call.destBuffer)
        ⟨e.firstCluster, loadFat v disk stack e.firstCluster, 0, ⟨m, []⟩⟩ s →
        (fatAccess v s.currentClusterId).InBounds v call

/-- All accesses of a call are in bounds. -/
def AccessesInBounds (v : Volume) (disk stack : Mem) (upcaseTable : ℕ → ℕ) (m : Mem)
    (call : FileCall) : Prop :=
  (∀ s, Loop.Visits (searchEntry v upcaseTable m call) (0, fun _ => 0) s →
    ∀ a ∈ roundAccesses v upcaseTable m call s, a.InBounds v call) ∧
  ∀ i e, Selects v upcaseTable m call i e → LoadInBounds v disk stack m call e

/-! ### The directory -/

/-- `secondary_count` of entry `i`. -/
def secondaryCount (m : Mem) (call : FileCall) (i : ℕ) : ℕ := (m (dirEntry call i + 1)).toNat

/-- Character number `k` of the name entries behind entry `i`. -/
def nameChar (m : Mem) (call : FileCall) (i k : ℕ) : ℕ :=
  m.read16 (dirEntry call (i + k / 15 + 2) + 2 + 2 * (k % 15))

/-- The character that files `fs`, the last one first, have left at place `k` of `filename`, and how
often it has been mapped. -/
def leftChar (m : Mem) (call : FileCall) (k : ℕ) : List ℕ → ℕ × ℕ
  | [] => (0, 0)
  | i :: fs =>
      if k < 15 * (secondaryCount m call i - 1) then (nameChar m call i k, 1)
      else ((leftChar m call k fs).1, (leftChar m call k fs).2 + 1)

/-- What is at place `k` of `filename` behind files `fs`. -/
def heldChar (upcaseTable : ℕ → ℕ) (m : Mem) (call : FileCall) (fs : List ℕ) (k : ℕ) : ℕ :=
  upcaseTable^[(leftChar m call k fs).2] (leftChar m call k fs).1

/-- The entries of a file start at entry `i`. -/
def IsFile (v : Volume) (m : Mem) (call : FileCall) (i : ℕ) : Prop :=
  i < entryCount v call ∧ m (dirEntry call i) = 0x85

/-- The file at entry `i` has the name that is looked for. -/
def NameMatches (upcaseTable : ℕ → ℕ) (m : Mem) (call : FileCall) (fs : List ℕ) (i : ℕ) : Prop :=
  (m (dirEntry call (i + 1) + 3)).toNat = call.nameLen ∧
    nameEqual call (heldChar upcaseTable m call (i :: fs)) = true

instance (upcaseTable : ℕ → ℕ) (m : Mem) (call : FileCall) (fs : List ℕ) (i : ℕ) :
    Decidable (NameMatches upcaseTable m call fs i) := inferInstanceAs (Decidable (_ ∧ _))

/-- The walk through the directory comes to entry `i` behind files `fs`, none of which has the name
that is looked for. -/
inductive Reaches (v : Volume) (upcaseTable : ℕ → ℕ) (m : Mem) (call : FileCall) :
    List ℕ → ℕ → Prop
  | start : Reaches v upcaseTable m call [] 0
  | other {fs : List ℕ} {i : ℕ} : Reaches v upcaseTable m call fs i → i < entryCount v call →
      m (dirEntry call i) ≠ 0x85 → Reaches v upcaseTable m call fs (i + 1)
  | file {fs : List ℕ} {i : ℕ} : Reaches v upcaseTable m call fs i → IsFile v m call i →
      ¬ NameMatches upcaseTable m call fs i →
      Reaches v upcaseTable m call (i :: fs) (i + secondaryCount m call i + 1)

/-- A file has at most 17 name entries, its entries lie inside the clusters of the directory, and
its characters are those of the up-case table, and so are those that earlier files have left. -/
structure FileFits (v : Volume) (upcaseTable : ℕ → ℕ) (m : Mem) (call : FileCall) (fs : List ℕ)
    (i : ℕ) : Prop where
  count : secondaryCount m call i ≤ 18
  inside : 32 * (i + max 1 (secondaryCount m call i) + 1) ≤ call.clusters * v.clusterBytes
  char : ∀ k < 15 * (secondaryCount m call i - 1), nameChar m call i k < 128
  left : ∀ k < 255, 15 * (secondaryCount m call i - 1) ≤ k → heldChar upcaseTable m call fs k < 128

/-! ### One round of the search -/

/-- **What a file does to `filename`.** -/
theorem heldChar_cons : heldChar upcaseTable m call (i :: fs) = fun k =>
    upcaseTable (copyName m call i (secondaryCount m call i - 1)
      (heldChar upcaseTable m call fs) k) := by
  funext k
  rw [heldChar, leftChar, copyName]
  split
  · rfl
  · exact Function.iterate_succ_apply' upcaseTable _ _

/-- An entry at which no file starts. -/
theorem searchEntry_of_not_isFile (hno : ¬ IsFile v m call i) (filename : ℕ → ℕ) :
    searchEntry v upcaseTable m call (i, filename) =
      if i < entryCount v call then Sum.inl (i + 1, filename) else Sum.inr (some none) := by
  by_cases hlt : i < entryCount v call
  · rw [if_pos hlt]
    exact searchEntry_other filename hlt fun htype => hno ⟨hlt, htype⟩
  · simp only [searchEntry, if_neg hlt]

/-- An entry at which a file starts, with room for its name. -/
theorem searchEntry_isFile (hfile : IsFile v m call i) (hcount : secondaryCount m call i ≤ 18) :
    searchEntry v upcaseTable m call (i, heldChar upcaseTable m call fs) =
      if NameMatches upcaseTable m call fs i then
        Sum.inr (some (some {
          firstCluster := m.read32 (dirEntry call (i + 1) + 20)
          dataLength := m.read32 (dirEntry call (i + 1) + 24)
            + 2 ^ 32 * m.read32 (dirEntry call (i + 1) + 28) }))
      else Sum.inl (i + secondaryCount m call i + 1, heldChar upcaseTable m call (i :: fs)) := by
  have hroom : ¬ 17 < (m (dirEntry call i + 1)).toNat - 1 := by
    rw [secondaryCount] at hcount
    omega
  simp only [searchEntry, if_pos hfile.1, if_pos hfile.2, if_neg hroom, NameMatches, heldChar_cons]
  rfl

theorem nameAccesses_inBounds_iff : (∀ a ∈ nameAccesses i n, a.InBounds v call) ↔
    n ≤ 17 ∧ (0 < n → 32 * (i + n + 2) ≤ call.clusters * v.clusterBytes) := by
  simp only [nameAccesses, List.mem_flatMap, List.mem_range, List.mem_cons, List.mem_map]
  constructor
  · intro hall
    have hentry : ∀ j < n, 32 * (i + j + 2 + 1) ≤ call.clusters * v.clusterBytes :=
      fun j hj => hall _ ⟨j, hj, Or.inl rfl⟩
    have hchar : ∀ j < n, j * 15 + 14 < 255 :=
      fun j hj => hall _ ⟨j, hj, Or.inr ⟨14, by simp, rfl⟩⟩
    refine ⟨?_, fun hpos => ?_⟩
    · by_contra hlt
      exact absurd (hchar 17 (by omega)) (by simp)
    · have hlast := hentry (n - 1) (by omega)
      rwa [show i + (n - 1) + 2 + 1 = i + n + 2 by omega] at hlast
  · rintro ⟨hcount, hinside⟩ a ⟨j, hj, rfl | ⟨x, hx, rfl⟩⟩
    · have hlast := hinside (by omega)
      change 32 * (i + j + 2 + 1) ≤ call.clusters * v.clusterBytes
      omega
    · change j * 15 + x < 255
      omega

theorem lookupAccesses_inBounds_iff {chars : ℕ → ℕ} :
    (∀ a ∈ lookupAccesses chars, a.InBounds v call) ↔ ∀ k < 255, chars k < 128 := by
  simp only [lookupAccesses, List.mem_flatMap, List.mem_range, List.mem_cons, List.not_mem_nil,
    or_false]
  constructor
  · exact fun hall k hk => hall _ ⟨k, hk, Or.inr rfl⟩
  · rintro hchars a ⟨k, hk, rfl | rfl⟩
    · exact hk
    · exact hchars k hk

theorem compareAccesses_inBounds (hname : call.nameLen ≤ 255) (filename : ℕ → ℕ) :
    ∀ a ∈ compareAccesses call filename, a.InBounds v call := by
  intro a ha
  obtain ⟨j, hj, rfl⟩ := List.mem_map.mp ha
  have hlt := List.mem_range.mp (List.mem_filter.mp hj).1
  exact lt_of_lt_of_le hlt hname

/-- The loop over the directory entries stays inside the clusters. -/
theorem entryCount_le (h : v.Sized) : 32 * entryCount v call ≤ call.clusters * v.clusterBytes := by
  obtain ⟨hbytes, -⟩ := h.clusterBytes_eq
  have hbit : bit32 v.sectorsPerClusterShift = 2 ^ v.sectorsPerClusterShift :=
    bit32_of_lt (by have := h.shift; omega)
  have hsize : v.driveBytesPerSector * v.getClusterSize call.clusters
      ≤ call.clusters * v.clusterBytes := by
    have hwrap : wrap32 (v.shiftCluster call.clusters * 512) ≤ call.clusters * v.clusterBytes := by
      rw [Volume.shiftCluster, hbit, hbytes, Nat.mul_assoc, Nat.mul_comm _ 512]
      exact Nat.mod_le _ _
    exact (Nat.mul_div_le _ _).trans hwrap
  have hwrap := Nat.mod_le (v.driveBytesPerSector * v.getClusterSize call.clusters) (2 ^ 32)
  rw [entryCount, wrap32]
  omega

/-- **The accesses of one round** are in bounds if and only if the file fits. -/
theorem roundInBounds_iff (h : v.Sized) (hname : call.nameLen ≤ 255) :
    (∀ a ∈ roundAccesses v upcaseTable m call (i, heldChar upcaseTable m call fs),
      a.InBounds v call) ↔ (IsFile v m call i → FileFits v upcaseTable m call fs i) := by
  have hentries := @entryCount_le v call h
  by_cases hlt : i < entryCount v call
  · have hself : (ArrayAccess.dirBuffer i).InBounds v call := by
      change 32 * (i + 1) ≤ call.clusters * v.clusterBytes
      omega
    by_cases htype : m (dirEntry call i) = 0x85
    · have hcompare : ∀ filename,
          ∀ a ∈ (if (m (dirEntry call (i + 1) + 3)).toNat = call.nameLen then
          compareAccesses call filename else []), a.InBounds v call := by
        intro filename a ha
        split at ha
        · exact compareAccesses_inBounds hname filename a ha
        · cases ha
      simp only [roundAccesses, if_pos hlt, if_pos htype, List.cons_append, List.forall_mem_cons,
        List.forall_mem_append, nameAccesses_inBounds_iff, lookupAccesses_inBounds_iff]
      rw [← secondaryCount]
      constructor
      · rintro ⟨-, hnext, ⟨⟨hcount, hinside⟩, hchars⟩, -⟩ -
        have hnext : 32 * (i + 1 + 1) ≤ call.clusters * v.clusterBytes := hnext
        refine ⟨by omega, ?_, fun k hk => ?_, fun k hk hle => ?_⟩
        · rcases Nat.lt_or_ge 1 (secondaryCount m call i) with hmore | hless
          · have hlast := hinside (by omega)
            omega
          · omega
        · have hchar := hchars k (by omega)
          rwa [copyName, if_pos hk] at hchar
        · have hchar := hchars k hk
          rwa [copyName, if_neg (by omega)] at hchar
      · intro hfits
        obtain ⟨hcount, hinside, hchar, hleft⟩ := hfits ⟨hlt, htype⟩
        refine ⟨hself, ?_, ⟨⟨by omega, fun hpos => by omega⟩, fun k hk => ?_⟩, hcompare _⟩
        · change 32 * (i + 1 + 1) ≤ call.clusters * v.clusterBytes
          omega
        · rw [copyName]
          split
          · exact hchar k ‹_›
          · exact hleft k hk (by omega)
    · simp only [roundAccesses, if_pos hlt, if_neg htype, List.forall_mem_cons]
      exact ⟨fun _ hfile => absurd hfile.2 htype, fun _ => ⟨hself, fun _ ha => by cases ha⟩⟩
  · simp only [roundAccesses, if_neg hlt]
    exact ⟨fun _ hfile => absurd hfile.1 hlt, fun _ _ ha => by cases ha⟩

/-! ### The walk through the directory -/

/-- **The search visits the entries that the walk reaches.** -/
theorem reaches_of_visits {s : ℕ × (ℕ → ℕ)}
    (hvisits : Loop.Visits (searchEntry v upcaseTable m call) (0, fun _ => 0) s) :
    ∃ fs, Reaches v upcaseTable m call fs s.1 ∧ s.2 = heldChar upcaseTable m call fs := by
  refine hvisits.invariant (I := fun s => ∃ fs, Reaches v upcaseTable m call fs s.1 ∧
    s.2 = heldChar upcaseTable m call fs) ?_ ⟨[], .start, rfl⟩
  rintro ⟨i, filename⟩ s' ⟨fs, hreaches, hheld⟩ hbody
  obtain rfl : filename = heldChar upcaseTable m call fs := hheld
  by_cases hfile : IsFile v m call i
  · have hcount : secondaryCount m call i ≤ 18 := by
      by_contra hmore
      rw [secondaryCount] at hmore
      have hfull : 17 < (m (dirEntry call i + 1)).toNat - 1 := by omega
      simp only [searchEntry, if_pos hfile.1, if_pos hfile.2, if_pos hfull] at hbody
      cases hbody
    rw [searchEntry_isFile hfile hcount] at hbody
    split at hbody
    · cases hbody
    · rename_i hno
      obtain rfl := Sum.inl.inj hbody
      exact ⟨i :: fs, hreaches.file hfile hno, rfl⟩
  · rw [searchEntry_of_not_isFile hfile] at hbody
    split at hbody
    · rename_i hlt
      obtain rfl := Sum.inl.inj hbody
      exact ⟨fs, hreaches.other hlt fun htype => hfile ⟨hlt, htype⟩, rfl⟩
    · cases hbody

/-- As long as the files fit, the walk is what the search does. -/
theorem visits_of_reaches
    (hfits : ∀ fs i, Loop.Visits (searchEntry v upcaseTable m call) (0, fun _ => 0)
      (i, heldChar upcaseTable m call fs) → IsFile v m call i → secondaryCount m call i ≤ 18)
    (hreaches : Reaches v upcaseTable m call fs i) :
    Loop.Visits (searchEntry v upcaseTable m call) (0, fun _ => 0)
      (i, heldChar upcaseTable m call fs) := by
  induction hreaches with
  | start => exact .refl
  | other _ hlt htype ih => exact ih.step (searchEntry_other _ hlt htype)
  | file _ hfile hno ih =>
      exact ih.step ((searchEntry_isFile hfile (hfits _ _ ih hfile)).trans (if_neg hno))

/-! ### The walk through the FAT -/

/-- The remainder of the number of the cluster, as an `int`, is not negative. -/
def Indexable (v : Volume) (c : ℕ) : Prop := c < 2 ^ 31 ∨ v.idPerCluster ∣ 2 ^ 32 - c

theorem fatIndex_isSome_iff : (fatIndex v c).isSome ↔ Indexable v c := by
  rw [fatIndex, Indexable, Nat.dvd_iff_mod_eq_zero]
  split
  · exact ⟨fun _ => Or.inl ‹_›, fun _ => rfl⟩
  · split
    · exact ⟨fun _ => Or.inr ‹_›, fun _ => rfl⟩
    · rename_i hlow hmod
      refine ⟨fun hsome => ?_, fun hindex => (hindex.elim hlow hmod).elim⟩
      cases hsome

theorem fatAccess_inBounds_iff (hid : 0 < v.idPerCluster) (hc : c < 2 ^ 32) :
    (fatAccess v c).InBounds v call ↔ Indexable v c := by
  rw [fatAccess, Indexable]
  by_cases hlow : c < 2 ^ 31
  · rw [if_pos hlow, ArrayAccess.InBounds, ← Int.ofNat_tmod]
    have hlt := Nat.mod_lt c hid
    exact ⟨fun _ => Or.inl hlow, fun _ => ⟨by omega, by omega⟩⟩
  · have hneg : ((c : ℤ) - 2 ^ 32) = -((2 ^ 32 - c : ℕ) : ℤ) := by omega
    rw [if_neg hlow, hneg, ArrayAccess.InBounds, Int.neg_tmod, ← Int.ofNat_tmod,
      Nat.dvd_iff_mod_eq_zero]
    omega

/-- The clusters that the loop through the FAT comes to from `c₀` on. -/
inductive LinkedFrom (v : Volume) (disk : Mem) (c₀ : ℕ) : ℕ → Prop
  | first : LinkedFrom v disk c₀ c₀
  | next {c d : ℕ} : LinkedFrom v disk c₀ c → fatNext v disk c = some d → ¬ EndsLoop d →
      LinkedFrom v disk c₀ d

/-- The first cluster has an index in `fat_buffer`, and, if it has a chain, so has every cluster
that the chain leads to. -/
structure ChainFits (v : Volume) (disk : Mem) (c₀ : ℕ) : Prop where
  first : Indexable v c₀
  linked : fatNext v disk c₀ ≠ some 0 → ∀ c, LinkedFrom v disk c₀ c → Indexable v c

theorem linkedFrom_lt {c₀ : ℕ} (h₀ : c₀ < 2 ^ 32) (h : LinkedFrom v disk c₀ c) : c < 2 ^ 32 := by
  cases h with
  | first => exact h₀
  | next _ hd _ =>
      rw [fatNext, Option.map_eq_some_iff] at hd
      obtain ⟨i, -, rfl⟩ := hd
      exact Mem.read32_lt _ _

/-- **The loop visits the clusters that are linked.** -/
theorem linkedFrom_of_visits {s₀ s : LinkState} {dest : ℕ} (hid : 0 < v.idPerCluster)
    (hs₀ : HoldsEntry v disk s₀) (hvisits : Loop.Visits (linkBody v disk dest) s₀ s) :
    LinkedFrom v disk s₀.currentClusterId s.currentClusterId ∧ HoldsEntry v disk s := by
  refine hvisits.invariant (I := fun s => LinkedFrom v disk s₀.currentClusterId s.currentClusterId ∧
    HoldsEntry v disk s) ?_ ⟨.first, hs₀⟩
  rintro s s' ⟨hlinked, hs⟩ hbody
  have hround := @linkBody_of_next v disk dest s hid hs
  cases hd : fatNext v disk s.currentClusterId with
  | none =>
      simp only [hd] at hround
      cases hround.symm.trans hbody
  | some d =>
      simp only [hd] at hround
      obtain ⟨t, ht, hcur, -, hstep⟩ := hround
      rw [hstep] at hbody
      split at hbody
      · cases hbody
      · rename_i hgo
        obtain rfl := Sum.inl.inj hbody
        exact ⟨hcur.symm ▸ hlinked.next hd hgo, ht⟩

theorem visits_of_linkedFrom {s₀ : LinkState} {dest : ℕ} (hid : 0 < v.idPerCluster)
    (hs₀ : HoldsEntry v disk s₀) (hlinked : LinkedFrom v disk s₀.currentClusterId c) :
    ∃ s, Loop.Visits (linkBody v disk dest) s₀ s ∧ s.currentClusterId = c := by
  induction hlinked with
  | first => exact ⟨s₀, .refl, rfl⟩
  | next _ hd hgo ih =>
      obtain ⟨s, hvisits, rfl⟩ := ih
      have hround := @linkBody_of_next v disk dest s hid (linkedFrom_of_visits hid hs₀ hvisits).2
      simp only [hd] at hround
      obtain ⟨t, -, hcur, -, hstep⟩ := hround
      exact ⟨t, hvisits.step (hstep.trans (if_neg hgo)), hcur⟩

/-- **The accesses while a file is loaded** are in bounds if and only if its chain fits. -/
theorem loadInBounds_iff (hid : 0 < v.idPerCluster) (h₀ : e.firstCluster < 2 ^ 32) :
    LoadInBounds v disk stack m call e ↔ ChainFits v disk e.firstCluster := by
  have hs₀ := holdsEntry_start hid disk stack m e.firstCluster
  have hzero : ∀ i, fatIndex v e.firstCluster = some i →
      ((loadFat v disk stack e.firstCluster).read32 (4 * i) ≠ 0 ↔
        fatNext v disk e.firstCluster ≠ some 0) := by
    intro i hi
    rw [@fatNext_eq v disk _ i hid hi stack, ne_eq, ne_eq, Option.some.injEq]
  rw [LoadInBounds, fatAccess_inBounds_iff hid h₀]
  constructor
  · rintro ⟨hfirst, hloop⟩
    refine ⟨hfirst, fun hne c hlinked => ?_⟩
    obtain ⟨i, hi⟩ := Option.isSome_iff_exists.mp (fatIndex_isSome_iff.mpr hfirst)
    obtain ⟨s, hvisits, rfl⟩ := visits_of_linkedFrom hid hs₀ hlinked
    exact (fatAccess_inBounds_iff hid (linkedFrom_lt h₀ hlinked)).mp
      (hloop i hi ((hzero i hi).mpr hne) s hvisits)
  · rintro ⟨hfirst, hlinked⟩
    refine ⟨hfirst, fun i hi hne s hvisits => ?_⟩
    obtain ⟨hreach, -⟩ := linkedFrom_of_visits hid hs₀ hvisits
    exact (fatAccess_inBounds_iff hid (linkedFrom_lt h₀ hreach)).mpr
      (hlinked ((hzero i hi).mp hne) _ hreach)

/-! ### One call -/

/-- The files that the walk reaches fit, and if one has the name that is looked for, so does its
chain. -/
structure DirectoryFits (v : Volume) (disk : Mem) (upcaseTable : ℕ → ℕ) (m : Mem)
    (call : FileCall) : Prop where
  file : ∀ fs i, Reaches v upcaseTable m call fs i → IsFile v m call i →
    FileFits v upcaseTable m call fs i
  chain : ∀ fs i, Reaches v upcaseTable m call fs i → IsFile v m call i →
    NameMatches upcaseTable m call fs i → ChainFits v disk (m.read32 (dirEntry call (i + 1) + 20))

/-- **All accesses are in bounds** if and only if the files that are reached fit. For every content
of the directory, of the FAT and of the memory behind the up-case table. -/
theorem accessesInBounds_iff (h : v.Sized) (hname : call.nameLen ≤ 255) :
    AccessesInBounds v disk stack upcaseTable m call ↔ DirectoryFits v disk upcaseTable m call := by
  have hid := h.idPerCluster_pos
  constructor
  · rintro ⟨hsearch, hload⟩
    have hfits : ∀ fs i, Loop.Visits (searchEntry v upcaseTable m call) (0, fun _ => 0)
        (i, heldChar upcaseTable m call fs) → IsFile v m call i →
        FileFits v upcaseTable m call fs i :=
      fun fs i hvisits => (roundInBounds_iff h hname).mp (hsearch _ hvisits)
    have hvisits : ∀ fs i, Reaches v upcaseTable m call fs i →
        Loop.Visits (searchEntry v upcaseTable m call) (0, fun _ => 0)
          (i, heldChar upcaseTable m call fs) :=
      fun fs i => visits_of_reaches fun fs i hvisits hfile => (hfits fs i hvisits hfile).count
    refine ⟨fun fs i hreaches => hfits fs i (hvisits fs i hreaches),
      fun fs i hreaches hfile hmatch => ?_⟩
    have hbody := @searchEntry_isFile v m upcaseTable call fs i hfile
      (hfits fs i (hvisits fs i hreaches) hfile).count
    exact (loadInBounds_iff hid (Mem.read32_lt _ _)).mp
      (hload i _ ⟨_, hvisits fs i hreaches, hbody.trans (if_pos hmatch)⟩)
  · rintro ⟨hfile, hchain⟩
    constructor
    · rintro ⟨i, filename⟩ hvisits
      obtain ⟨fs, hreaches, hheld⟩ := reaches_of_visits hvisits
      obtain rfl : filename = heldChar upcaseTable m call fs := hheld
      exact (roundInBounds_iff h hname).mpr (hfile fs i hreaches)
    · intro i e hselects
      have hentry := hselects.eq
      obtain ⟨filename, hvisits, hbody⟩ := hselects
      obtain ⟨fs, hreaches, hheld⟩ := reaches_of_visits hvisits
      obtain rfl : filename = heldChar upcaseTable m call fs := hheld
      have hstart : IsFile v m call i := by
        by_contra hno
        rw [searchEntry_of_not_isFile hno] at hbody
        split at hbody <;> cases hbody
      have hmatch : NameMatches upcaseTable m call fs i := by
        by_contra hno
        rw [searchEntry_isFile hstart (hfile fs i hreaches hstart).count, if_neg hno] at hbody
        cases hbody
      have hlt : e.firstCluster < 2 ^ 32 := by
        rw [hentry]
        exact Mem.read32_lt _ _
      refine (loadInBounds_iff hid hlt).mpr ?_
      rw [hentry]
      exact hchain fs i hreaches hstart hmatch

/-! ### What earlier names have left -/

/-- A table that maps its characters to its characters keeps `filename` in its range. -/
theorem heldChar_lt (htable : ∀ x < 128, upcaseTable x < 128)
    (hchar : ∀ f ∈ fs, ∀ k < 15 * (secondaryCount m call f - 1), nameChar m call f k < 128)
    (k : ℕ) : heldChar upcaseTable m call fs k < 128 := by
  induction fs with
  | nil => exact Nat.succ_pos 127
  | cons i fs ih =>
      obtain ⟨hself, hrest⟩ := List.forall_mem_cons.mp hchar
      rw [heldChar_cons]
      refine htable _ ?_
      rw [copyName]
      split
      · exact hself k ‹_›
      · exact ih hrest

theorem Reaches.isFile (h : Reaches v upcaseTable m call fs i) :
    ∀ f ∈ fs, ∃ fs', Reaches v upcaseTable m call fs' f ∧ IsFile v m call f := by
  induction h with
  | start => exact fun f hf => absurd hf List.not_mem_nil
  | other _ _ _ ih => exact ih
  | file hreaches hfile _ ih =>
      intro f hf
      rcases List.mem_cons.mp hf with rfl | hf
      · exact ⟨_, hreaches, hfile⟩
      · exact ih f hf

/-- **With such a table** the characters of the names themselves are enough. -/
theorem directoryFits_of_table (htable : ∀ x < 128, upcaseTable x < 128)
    (hfile : ∀ fs i, Reaches v upcaseTable m call fs i → IsFile v m call i →
      secondaryCount m call i ≤ 18 ∧
      32 * (i + max 1 (secondaryCount m call i) + 1) ≤ call.clusters * v.clusterBytes ∧
      ∀ k < 15 * (secondaryCount m call i - 1), nameChar m call i k < 128)
    (hchain : ∀ fs i, Reaches v upcaseTable m call fs i → IsFile v m call i →
      NameMatches upcaseTable m call fs i →
      ChainFits v disk (m.read32 (dirEntry call (i + 1) + 20))) :
    DirectoryFits v disk upcaseTable m call := by
  refine ⟨fun fs i hreaches hstart => ?_, hchain⟩
  obtain ⟨hcount, hinside, hchar⟩ := hfile fs i hreaches hstart
  refine ⟨hcount, hinside, hchar, fun k _ _ => heldChar_lt htable (fun f hf => ?_) k⟩
  obtain ⟨fs', hreaches', hstart'⟩ := hreaches.isFile f hf
  exact (hfile fs' f hreaches' hstart').2.2

/-- A file with a name and two clusters is found at once. -/
theorem accessesInBounds_contiguousFile : AccessesInBounds (smallVolume 0) contiguousDrive
    (fun _ => 0) (fun x => x) contiguousFile contiguousCall := by
  have hwalk : ∀ {fs i}, Reaches (smallVolume 0) (fun x => x) contiguousFile contiguousCall fs i →
      fs = [] ∧ i = 0 := by
    intro fs i hreaches
    induction hreaches with
    | start => exact ⟨rfl, rfl⟩
    | other _ _ htype ih =>
        obtain ⟨-, rfl⟩ := ih
        exact absurd (by decide +kernel) htype
    | file _ _ hno ih =>
        obtain ⟨rfl, rfl⟩ := ih
        exact absurd (by decide +kernel) hno
  refine (accessesInBounds_iff (smallVolume_accepted (by simp)).sized (by decide)).mpr
    (directoryFits_of_table (fun x hx => hx) (fun fs i hreaches _ => ?_)
      fun fs i hreaches _ _ => ?_)
  · obtain ⟨-, rfl⟩ := hwalk hreaches
    have hcount : secondaryCount contiguousFile contiguousCall 0 = 2 := by decide +kernel
    rw [hcount]
    exact ⟨by simp, by decide +kernel, by decide +kernel⟩
  · obtain ⟨-, rfl⟩ := hwalk hreaches
    have hnext : fatNext (smallVolume 0) contiguousDrive
        (contiguousFile.read32 (dirEntry contiguousCall (0 + 1) + 20)) = some 0 := by decide +kernel
    exact ⟨Or.inl (by decide +kernel), fun hne => absurd hnext hne⟩

/-- **A letter with an accent** in a name is no index of the up-case table. -/
theorem accessesInBounds_fails :
    ¬ ∀ (v : Volume) (disk stack : Mem) (upcaseTable : ℕ → ℕ) (m : Mem) (call : FileCall),
      v.Sized → call.nameLen ≤ 255 → AccessesInBounds v disk stack upcaseTable m call := by
  intro hall
  have hsized := (@smallVolume_accepted 0 (by simp)).sized
  obtain ⟨hsearch, -⟩ :=
    hall (smallVolume 0) (fun _ => 0) (fun _ => 0) (fun x => x) (oneNameDir 0xe9)
    (oneNameCall 97) hsized (by decide)
  have hfits := (@roundInBounds_iff _ _ (fun x => x) _ [] 0 hsized (by decide)).mp
    (hsearch _ .refl) ⟨by decide +kernel, by decide +kernel⟩
  exact absurd (hfits.char 0 (by decide +kernel)) (by decide +kernel)

end LoofOS
