import LoofOS.ClusterChain
import Mathlib.Data.List.Find

/-!
# Searching a Directory

The loop of `_read_file_exfat_helper` over the entries of a directory, on a directory that
consists of files and of entries that belong to no file. A file is passed with all its entries,
so the search looks at the files in their order and at nothing inside them, and it selects the
first one whose mapped name is the component of the path, whatever `filename` was left with by
the files before it.

A set of entries (`HoldsSet`) is described from an address on, so that it can be found on the
drive as well as in the buffer that was loaded from there.

## Main results

* `iter_past`: a search passes the files with other names.
* `findFile_of_holdsSets`, `findFile_eq`: the lookup in a directory.
* `readFileExfatHelper_selects`: the file that a call loads.
-/

namespace LoofOS

/-! ### Directories -/

/-- A file as its directory entries describe it. -/
structure DirFile where
  name : List ℕ
  extension : Extension
  length_pos : 0 < name.length
  length_le : name.length ≤ 255

theorem length_oneChar_le (a : ℕ) : [a].length ≤ 255 := Nat.le_add_left 1 254

/-- A file whose name is one character. -/
def DirFile.ofChar (a : ℕ) (extension : Extension) : DirFile :=
  ⟨[a], extension, Nat.one_pos, length_oneChar_le a⟩

/-- The number of name entries of a file. -/
def DirFile.nameEntries (f : DirFile) : ℕ := (f.name.length + 14) / 15

/-- The entries of a file, from entry `i` of the directory on. -/
structure HoldsFile (m : Mem) (call : FileCall) (i : ℕ) (f : DirFile) : Prop where
  type : m (dirEntry call i) = 0x85
  secondaryCount : (m (dirEntry call i + 1)).toNat = f.nameEntries + 1
  extensionType : m (dirEntry call (i + 1)) = 0xc0
  nameLength : (m (dirEntry call (i + 1) + 3)).toNat = f.name.length
  firstCluster : m.read32 (dirEntry call (i + 1) + 20) = f.extension.firstCluster
  dataLength : m.read32 (dirEntry call (i + 1) + 24)
    + 2 ^ 32 * m.read32 (dirEntry call (i + 1) + 28) = f.extension.dataLength
  nameType : ∀ j < f.nameEntries, m (dirEntry call (i + j + 2)) = 0xc1
  char : ∀ k (hk : k < f.name.length),
    m.read16 (dirEntry call (i + k / 15 + 2) + 2 + 2 * (k % 15)) = f.name[k]
  padding : ∀ k, f.name.length ≤ k → k < 15 * f.nameEntries →
    m.read16 (dirEntry call (i + k / 15 + 2) + 2 + 2 * (k % 15)) = 0

/-- What a directory consists of: files, and entries that belong to no file. -/
inductive DirItem
  | file (f : DirFile)
  | other

/-- The number of entries of an item. -/
def DirItem.size : DirItem → ℕ
  | .file f => f.nameEntries + 2
  | .other => 1

/-- The item is in memory, from entry `i` of the directory on. -/
def DirItem.Holds (m : Mem) (call : FileCall) (i : ℕ) : DirItem → Prop
  | .file f => HoldsFile m call i f
  | .other => m (dirEntry call i) ≠ 0x85

/-- The items follow one another from entry `i` on, and end with entry `n`. -/
def HoldsItems (m : Mem) (call : FileCall) (n : ℕ) : ℕ → List DirItem → Prop
  | i, [] => i = n
  | i, item :: rest => item.Holds m call i ∧ HoldsItems m call n (i + item.size) rest

/-- The files of a directory. -/
def filesOf : List DirItem → List DirFile
  | [] => []
  | .file f :: rest => f :: filesOf rest
  | .other :: rest => filesOf rest

/-- The component of the path that is looked up. -/
structure FileCall.Names (call : FileCall) (component : List ℕ) : Prop where
  length : call.nameLen = component.length
  char : ∀ j (hj : j < component.length), (call.name j).toInt = component[j]

/-- The entries of a file, from entry `i` of the directory at `base` on. What the name entries
hold behind the name is left open. -/
structure HoldsSet (m : Mem) (base i : ℕ) (f : DirFile) : Prop where
  type : m (base + 32 * i) = 0x85
  secondaryCount : (m (base + 32 * i + 1)).toNat = f.nameEntries + 1
  extensionType : m (base + 32 * (i + 1)) = 0xc0
  nameLength : (m (base + 32 * (i + 1) + 3)).toNat = f.name.length
  firstCluster : m.read32 (base + 32 * (i + 1) + 20) = f.extension.firstCluster
  dataLength : m.read32 (base + 32 * (i + 1) + 24)
    + 2 ^ 32 * m.read32 (base + 32 * (i + 1) + 28) = f.extension.dataLength
  nameType : ∀ j < f.nameEntries, m (base + 32 * (i + j + 2)) = 0xc1
  char : ∀ k (hk : k < f.name.length),
    m.read16 (base + 32 * (i + k / 15 + 2) + 2 + 2 * (k % 15)) = f.name[k]

/-- The item is in memory, from entry `i` of the directory at `base` on. -/
def DirItem.HoldsAt (m : Mem) (base i : ℕ) : DirItem → Prop
  | .file f => HoldsSet m base i f
  | .other => m (base + 32 * i) ≠ 0x85

/-- The items follow one another from entry `i` on, and end with entry `n`. -/
def HoldsSets (m : Mem) (base n : ℕ) : ℕ → List DirItem → Prop
  | i, [] => i = n
  | i, item :: rest => item.HoldsAt m base i ∧ HoldsSets m base n (i + item.size) rest

theorem DirItem.size_pos (item : DirItem) : 0 < item.size := by
  cases item with
  | file f => exact Nat.succ_pos _
  | other => exact Nat.one_pos

/-- The entries of a list of items. -/
def entriesOf (items : List DirItem) : ℕ := (items.map DirItem.size).sum

/-- Items in two parts. -/
theorem holdsSets_append {m : Mem} {base n i : ℕ} {items items' : List DirItem} :
    HoldsSets m base n i (items ++ items') ↔
      HoldsSets m base (i + entriesOf items) i items ∧
        HoldsSets m base n (i + entriesOf items) items' := by
  induction items generalizing i with
  | nil => simp [HoldsSets, entriesOf]
  | cons item rest ih =>
      have hsum : i + entriesOf (item :: rest) = i + item.size + entriesOf rest := by
        rw [entriesOf, List.map_cons, List.sum_cons, entriesOf, Nat.add_assoc]
      rw [List.cons_append, HoldsSets, ih, HoldsSets, hsum, and_assoc]

theorem holdsSets_le {m : Mem} {base n i : ℕ} {items : List DirItem}
    (h : HoldsSets m base n i items) : i ≤ n := by
  induction items generalizing i with
  | nil => exact h.le
  | cons item rest ih => exact (Nat.le_add_right i item.size).trans (ih h.2)

/-- A set of entries depends on its bytes only, wherever they are. -/
theorem HoldsSet.congr {m m' : Mem} {base base' i n : ℕ} {f : DirFile} (h : HoldsSet m base i f)
    (hn : i + (f.nameEntries + 2) ≤ n)
    (heq : ∀ a, a < 32 * n → m' (base' + a) = m (base + a)) : HoldsSet m' base' i f := by
  have hpos := f.length_pos
  have hbyte : ∀ a b, a + b < 32 * n → m' (base' + a + b) = m (base + a + b) := fun a b hab => by
    rw [Nat.add_assoc, heq _ hab, Nat.add_assoc]
  have hword : ∀ a b, a + b + 3 < 32 * n → m'.read32 (base' + a + b) = m.read32 (base + a + b) :=
    fun a b hab => by
      simp only [Mem.read32, Nat.add_assoc]
      rw [heq (a + b) (by omega), heq (a + (b + 1)) (by omega), heq (a + (b + 2)) (by omega),
        heq (a + (b + 3)) (by omega)]
  refine ⟨?_, ?_, ?_, ?_, ?_, ?_, fun j hj => ?_, fun k hk => ?_⟩
  · exact (heq _ (by omega)).trans h.type
  · rw [hbyte _ 1 (by omega)]
    exact h.secondaryCount
  · exact (heq _ (by omega)).trans h.extensionType
  · rw [hbyte _ 3 (by omega)]
    exact h.nameLength
  · rw [hword _ 20 (by omega)]
    exact h.firstCluster
  · rw [hword _ 24 (by omega), hword _ 28 (by omega)]
    exact h.dataLength
  · exact (heq _ (by omega)).trans (h.nameType j hj)
  · have hentry : k / 15 < f.nameEntries := by
      rw [DirFile.nameEntries]
      omega
    rw [← h.char k hk, Mem.read16, Mem.read16]
    simp only [Nat.add_assoc]
    rw [heq _ (by omega), heq _ (by omega)]

theorem HoldsSets.congr {m m' : Mem} {base base' n i : ℕ} {items : List DirItem}
    (h : HoldsSets m base n i items) (heq : ∀ a, a < 32 * n → m' (base' + a) = m (base + a)) :
    HoldsSets m' base' n i items := by
  induction items generalizing i with
  | nil => exact h
  | cons item rest ih =>
      obtain ⟨hitem, hrest⟩ := h
      have hend := holdsSets_le hrest
      have hsize := item.size_pos
      refine ⟨?_, ih hrest⟩
      cases item with
      | file f => exact HoldsSet.congr hitem hend heq
      | other =>
          change m' (base' + 32 * i) ≠ 0x85
          rw [heq _ (by omega)]
          exact hitem

/-- The item on which a number of entries ends. -/
theorem exists_crossing {items : List DirItem} {n : ℕ} (h : n < entriesOf items) :
    ∃ before item after, items = before ++ item :: after ∧ entriesOf before ≤ n ∧
      n < entriesOf before + item.size := by
  induction items generalizing n with
  | nil => exact absurd h (Nat.not_lt_zero n)
  | cons item rest ih =>
      have hsum : entriesOf (item :: rest) = item.size + entriesOf rest := by
        rw [entriesOf, List.map_cons, List.sum_cons, entriesOf]
      by_cases hlt : n < item.size
      · exact ⟨[], item, rest, rfl, Nat.zero_le n, by rw [entriesOf]; simpa using hlt⟩
      · obtain ⟨before, item', after, rfl, hle, hcross⟩ := @ih (n - item.size) (by omega)
        have hsum' : entriesOf (item :: before) = item.size + entriesOf before := by
          rw [entriesOf, List.map_cons, List.sum_cons, entriesOf]
        exact ⟨item :: before, item', after, rfl, by omega, by omega⟩

/-- Entries that belong to no file. -/
theorem holdsSets_replicate {m : Mem} {base k i : ℕ}
    (h : ∀ j < k, m (base + 32 * (i + j)) ≠ 0x85) :
    HoldsSets m base (i + k) i (List.replicate k .other) := by
  induction k generalizing i with
  | zero => exact rfl
  | succ k ih =>
      refine ⟨h 0 (Nat.succ_pos k), ?_⟩
      have hrest := @ih (i + 1) fun j hj => by
        have hentry := h (j + 1) (by omega)
        rwa [Nat.add_comm j, ← Nat.add_assoc] at hentry
      rwa [Nat.add_assoc, Nat.add_comm 1] at hrest

/-- Complete file entries are a set of entries. -/
theorem HoldsFile.holdsSet {m : Mem} {call : FileCall} {i : ℕ} {f : DirFile}
    (h : HoldsFile m call i f) : HoldsSet m call.dirBuffer i f :=
  ⟨h.type, h.secondaryCount, h.extensionType, h.nameLength, h.firstCluster, h.dataLength,
    h.nameType, h.char⟩

theorem HoldsItems.holdsSets {m : Mem} {call : FileCall} {n i : ℕ} {items : List DirItem}
    (h : HoldsItems m call n i items) : HoldsSets m call.dirBuffer n i items := by
  induction items generalizing i with
  | nil => exact h
  | cons item rest ih =>
      refine ⟨?_, ih h.2⟩
      cases item with
      | file f => exact HoldsFile.holdsSet h.1
      | other => exact h.1

theorem filesOf_append (items items' : List DirItem) :
    filesOf (items ++ items') = filesOf items ++ filesOf items' := by
  induction items with
  | nil => rfl
  | cons item rest ih =>
      cases item with
      | file f => rw [List.cons_append, filesOf, filesOf, ih, List.cons_append]
      | other => rw [List.cons_append, filesOf, filesOf, ih]

theorem filesOf_replicate (k : ℕ) : filesOf (List.replicate k .other) = [] := by
  induction k with
  | zero => rfl
  | succ k ih => rw [List.replicate_succ, filesOf, ih]

/-- The place of a file among the items. -/
theorem exists_of_filesOf_eq {items : List DirItem} {pre post : List DirFile} {f : DirFile}
    (h : filesOf items = pre ++ f :: post) :
    ∃ before after, items = before ++ .file f :: after ∧ filesOf before = pre ∧
      filesOf after = post := by
  induction items generalizing pre with
  | nil =>
      rw [filesOf, eq_comm, List.append_eq_nil_iff] at h
      exact absurd h.2 (List.cons_ne_nil f post)
  | cons item rest ih =>
      cases item with
      | other =>
          obtain ⟨before, after, rfl, hpre, hpost⟩ := ih h
          exact ⟨.other :: before, after, rfl, hpre, hpost⟩
      | file g =>
          cases pre with
          | nil =>
              obtain ⟨rfl, rfl⟩ := List.cons.inj h
              exact ⟨[], rest, rfl, rfl, rfl⟩
          | cons p pre =>
              obtain ⟨rfl, hrest⟩ := List.cons.inj h
              obtain ⟨before, after, rfl, hpre, hpost⟩ := ih hrest
              exact ⟨.file g :: before, after, rfl, by rw [filesOf, hpre], hpost⟩

/-! ### The lookup -/

section Lookup

variable {v : Volume} {upcaseTable : ℕ → ℕ} {m : Mem} {call : FileCall} {component : List ℕ}

theorem DirFile.length_le_entries (f : DirFile) : f.name.length ≤ 15 * f.nameEntries := by
  rw [DirFile.nameEntries]
  omega

theorem DirFile.nameEntries_le (f : DirFile) : f.nameEntries ≤ 17 := by
  have := f.length_le
  rw [DirFile.nameEntries]
  omega

/-- The characters that are compared are those of the file, whatever the buffer held before. -/
theorem copyName_of_holdsSet {i : ℕ} {f : DirFile} (h : HoldsSet m call.dirBuffer i f)
    (filename : ℕ → ℕ) {k : ℕ} (hk : k < f.name.length) :
    copyName m call i f.nameEntries filename k = f.name[k] := by
  rw [← h.char k hk, copyName, if_pos (hk.trans_le f.length_le_entries)]
  rfl

/-- The mapped name of the file is the name that is looked up. -/
def DirFile.Matches (f : DirFile) (upcaseTable : ℕ → ℕ) (call : FileCall) : Prop :=
  f.name.length = call.nameLen ∧
    ∀ j (hj : j < f.name.length), ((upcaseTable f.name[j] : ℕ) : ℤ) = (call.name j).toInt

instance (f : DirFile) : Decidable (f.Matches upcaseTable call) :=
  inferInstanceAs (Decidable (_ ∧ _))

/-- **One comparison**: the mapped name against the component as it is. -/
theorem nameEqual_iff {i : ℕ} {f : DirFile} (h : HoldsSet m call.dirBuffer i f)
    (filename : ℕ → ℕ) (hlen : f.name.length = call.nameLen) :
    nameEqual call (fun j => upcaseTable (copyName m call i f.nameEntries filename j)) = true ↔
      f.Matches upcaseTable call := by
  simp only [nameEqual, List.all_eq_true, List.mem_range, beq_iff_eq, DirFile.Matches, hlen,
    true_and]
  refine forall₂_congr fun j hj => ?_
  rw [copyName_of_holdsSet h filename]

/-- The component of a path that is looked up is spelled by ASCII characters. -/
theorem matches_iff (hc : call.Names component) (f : DirFile) :
    f.Matches upcaseTable call ↔ f.name.map upcaseTable = component := by
  constructor
  · rintro ⟨hlen, hchar⟩
    have hcomp : f.name.length = component.length := hlen.trans hc.length
    refine List.ext_getElem (by rw [List.length_map, hcomp]) fun j hj hj' => ?_
    have heq := hchar j (by omega)
    rw [hc.char j hj'] at heq
    rw [List.getElem_map]
    exact Int.ofNat.inj heq
  · rintro rfl
    have hlen : f.name.length = call.nameLen := by rw [hc.length, List.length_map]
    refine ⟨hlen, fun j hj => ?_⟩
    rw [hc.char j (by rwa [List.length_map]), List.getElem_map]

/-- An entry that belongs to no file is passed. -/
theorem searchEntry_other {i : ℕ} (filename : ℕ → ℕ) (hi : i < entryCount v call)
    (h : m (dirEntry call i) ≠ 0x85) :
    searchEntry v upcaseTable m call (i, filename) = Sum.inl (i + 1, filename) := by
  simp only [searchEntry, if_pos hi, if_neg h]

/-- A file whose length or whose characters are not those of the component is passed. -/
theorem searchEntry_of_ne {i count : ℕ} (filename : ℕ → ℕ) (hi : i < entryCount v call)
    (htype : m (dirEntry call i) = 0x85)
    (hcount : (m (dirEntry call i + 1)).toNat = count + 1) (hroom : count ≤ 17)
    (hne : (m (dirEntry call (i + 1) + 3)).toNat = call.nameLen →
      nameEqual call (fun j => upcaseTable (copyName m call i count filename j)) ≠ true) :
    ∃ filename', searchEntry v upcaseTable m call (i, filename)
      = Sum.inl (i + (count + 2), filename') := by
  refine ⟨fun j => upcaseTable (copyName m call i count filename j), ?_⟩
  simp only [searchEntry, if_pos hi, if_pos htype, hcount, Nat.add_sub_cancel,
    if_neg (Nat.not_lt.mpr hroom)]
  rw [if_neg fun hboth => hne hboth.1 hboth.2]
  rfl

/-- The search ends behind the last entry. -/
theorem iter_end {n fuel : ℕ} (hn : entryCount v call ≤ n) (hfuel : 0 < fuel)
    (filename : ℕ → ℕ) :
    Loop.iter (searchEntry v upcaseTable m call) fuel (n, filename) = some (some none) := by
  obtain ⟨fuel, rfl⟩ : ∃ k, fuel = k + 1 := ⟨fuel - 1, by omega⟩
  refine Loop.iter_succ_of_inr ?_ fuel
  simp only [searchEntry, if_neg (Nat.not_lt.mpr hn)]

/-- A file is selected, or all its entries are passed. -/
theorem searchEntry_file {i : ℕ} {f : DirFile} (filename : ℕ → ℕ)
    (hi : i < entryCount v call) (h : HoldsSet m call.dirBuffer i f) :
    ∃ filename', searchEntry v upcaseTable m call (i, filename) =
      if f.Matches upcaseTable call then Sum.inr (some (some f.extension))
      else Sum.inl (i + (f.nameEntries + 2), filename') := by
  refine ⟨fun j => upcaseTable (copyName m call i f.nameEntries filename j), ?_⟩
  have hroom : ¬ 17 < f.nameEntries := Nat.not_lt.mpr f.nameEntries_le
  have htype : m (dirEntry call i) = 0x85 := h.type
  have hcount : (m (dirEntry call i + 1)).toNat = f.nameEntries + 1 := h.secondaryCount
  have hlength : (m (dirEntry call (i + 1) + 3)).toNat = f.name.length := h.nameLength
  have hfirst : m.read32 (dirEntry call (i + 1) + 20) = f.extension.firstCluster := h.firstCluster
  have hdata : m.read32 (dirEntry call (i + 1) + 24)
      + 2 ^ 32 * m.read32 (dirEntry call (i + 1) + 28) = f.extension.dataLength := h.dataLength
  simp only [searchEntry, if_pos hi, if_pos htype, hcount, Nat.add_sub_cancel, if_neg hroom,
    hlength, hfirst, hdata]
  by_cases hlen : f.name.length = call.nameLen
  · simp only [hlen, true_and, nameEqual_iff h filename hlen]
    rfl
  · rw [if_neg fun hboth => hlen hboth.1, if_neg fun hmatches => hlen hmatches.1]
    rfl

/-- **Files with other names are passed**, all their entries at once. -/
theorem iter_past {n i fuel : ℕ} {items : List DirItem}
    (h : HoldsSets m call.dirBuffer n i items) (hn : n ≤ entryCount v call)
    (hother : ∀ f ∈ filesOf items, ¬ f.Matches upcaseTable call)
    (hfuel : entryCount v call < fuel + i) (filename : ℕ → ℕ) :
    ∃ fuel' filename', entryCount v call < fuel' + n ∧
      Loop.iter (searchEntry v upcaseTable m call) fuel (i, filename)
        = Loop.iter (searchEntry v upcaseTable m call) fuel' (n, filename') := by
  induction items generalizing i fuel filename with
  | nil =>
      obtain rfl : i = n := h
      exact ⟨fuel, filename, hfuel, rfl⟩
  | cons item rest ih =>
      obtain ⟨hitem, hrest⟩ := h
      have hend := holdsSets_le hrest
      have hsize := item.size_pos
      have hi : i < entryCount v call := by omega
      obtain ⟨fuel, rfl⟩ : ∃ k, fuel = k + 1 := ⟨fuel - 1, by omega⟩
      cases item with
      | other =>
          rw [Loop.iter_succ_of_inl (searchEntry_other filename hi hitem)]
          exact ih hrest hother (by change _ < fuel + (i + 1); omega) filename
      | file f =>
          obtain ⟨filename', hbody⟩ :=
            @searchEntry_file v upcaseTable m call i f filename hi hitem
          rw [if_neg (hother f List.mem_cons_self)] at hbody
          rw [Loop.iter_succ_of_inl hbody]
          refine ih hrest (fun g hg => hother g (List.mem_cons_of_mem f hg)) ?_ filename'
          change _ < fuel + (i + (f.nameEntries + 2))
          omega

/-- **A file is found** behind files with other names. -/
theorem findFile_of_first {i : ℕ} {before : List DirItem} {f : DirFile}
    (h : HoldsSets m call.dirBuffer i 0 before) (hf : HoldsSet m call.dirBuffer i f)
    (hi : i < entryCount v call) (hother : ∀ g ∈ filesOf before, ¬ g.Matches upcaseTable call)
    (hname : f.Matches upcaseTable call) :
    findFile v upcaseTable m call = some (some f.extension) := by
  obtain ⟨fuel, filename, hfuel, hiter⟩ := iter_past h hi.le hother
    (Nat.lt_succ_self (entryCount v call)) fun _ => 0
  obtain ⟨filename', hbody⟩ :=
    @searchEntry_file v upcaseTable m call i f filename hi hf
  rw [if_pos hname] at hbody
  obtain ⟨fuel, rfl⟩ : ∃ k, fuel = k + 1 := ⟨fuel - 1, by omega⟩
  rw [findFile, hiter, Loop.iter_succ_of_inr hbody]
  rfl

/-- **The search is over** with the first file that matches, whatever is behind the items. -/
theorem findFile_of_found {items : List DirItem} {i : ℕ} {f : DirFile}
    (h : HoldsSets m call.dirBuffer i 0 items) (hi : i ≤ entryCount v call)
    (hfind : (filesOf items).find? (fun f => f.Matches upcaseTable call) = some f) :
    findFile v upcaseTable m call = some (some f.extension) := by
  obtain ⟨hname, pre, post, hfiles, hother⟩ := List.find?_eq_some_iff_append.mp hfind
  obtain ⟨before, after, rfl, rfl, -⟩ := exists_of_filesOf_eq hfiles
  obtain ⟨hbefore, hf, hrest⟩ := holdsSets_append.mp h
  have hend := holdsSets_le hrest
  have hsize := (DirItem.file f).size_pos
  exact findFile_of_first hbefore (Nat.zero_add _ ▸ hf) (by omega)
    (fun g hg => by simpa using hother g hg) (by simpa using hname)

/-- **The lookup in a directory** finds the first file that matches. -/
theorem findFile_of_holdsSets {items : List DirItem}
    (h : HoldsSets m call.dirBuffer (entryCount v call) 0 items) :
    findFile v upcaseTable m call = some (((filesOf items).find?
      fun f => f.Matches upcaseTable call).map DirFile.extension) := by
  cases hfind : (filesOf items).find? fun f => f.Matches upcaseTable call with
  | none =>
      have hother : ∀ f ∈ filesOf items, ¬ f.Matches upcaseTable call := fun f hf => by
        simpa using List.find?_eq_none.mp hfind f hf
      obtain ⟨fuel, filename, hfuel, hiter⟩ := iter_past h (le_refl _) hother
        (Nat.lt_succ_self _) fun _ => 0
      rw [findFile, hiter, iter_end (le_refl _) (by omega)]
      rfl
  | some f => exact findFile_of_found h (le_refl _) hfind

/-- The lookup of a name that is spelled by ASCII characters. -/
theorem findFile_of_names (hc : call.Names component) {items : List DirItem}
    (h : HoldsSets m call.dirBuffer (entryCount v call) 0 items) :
    findFile v upcaseTable m call = some (((filesOf items).find?
      fun f => f.name.map upcaseTable = component).map DirFile.extension) := by
  rw [findFile_of_holdsSets h]
  refine congrArg (fun o => some (Option.map DirFile.extension o)) (List.find?_congr fun f _ => ?_)
  rw [decide_eq_decide.mpr (matches_iff hc f)]

theorem findFile_eq (hc : call.Names component) {items : List DirItem}
    (h : HoldsItems m call (entryCount v call) 0 items) :
    findFile v upcaseTable m call = some (((filesOf items).find?
      fun f => f.name.map upcaseTable = component).map DirFile.extension) :=
  findFile_of_names hc h.holdsSets

end Lookup

/-- **Which file is loaded**: the first one whose mapped name is the component, with its own
first cluster and length. Without such a file the call returns 0 and changes nothing. -/
theorem readFileExfatHelper_selects {v : Volume} {upcaseTable : ℕ → ℕ} {m : Mem}
    {call : FileCall} {component : List ℕ} {items : List DirItem} (hc : call.Names component)
    (h : HoldsSets m call.dirBuffer (entryCount v call) 0 items) (disk stack : Mem) (fuel : ℕ) :
    (∀ f, (filesOf items).find? (fun f => f.name.map upcaseTable = component) = some f →
      readFileExfatHelper v disk stack upcaseTable fuel m call =
        (loadFile v disk stack fuel m call.destBuffer f.extension).map
          fun r => (clusterCountOf v f.extension, r)) ∧
    ((∀ f ∈ filesOf items, f.name.map upcaseTable ≠ component) →
      readFileExfatHelper v disk stack upcaseTable fuel m call = some (0, ⟨m, []⟩)) := by
  have hfound := @findFile_of_names v upcaseTable m call component hc items h
  constructor
  · intro f hf
    rw [hf] at hfound
    rw [readFileExfatHelper, hfound]
    rfl
  · intro hnone
    have hfind : (filesOf items).find? (fun f => f.name.map upcaseTable = component) = none :=
      List.find?_eq_none.mpr fun f hf => by simpa using hnone f hf
    rw [hfind] at hfound
    rw [readFileExfatHelper, hfound]
    rfl

/-! A directory with the files `AB` and `A`, in this order. -/

def twoFiles : List DirFile :=
  [⟨[65, 66], ⟨5, 700⟩, Nat.two_pos, Nat.le_add_left 2 253⟩,
    .ofChar 65 ⟨6, 300⟩]

def twoFilesDir : Mem := fun x =>
  if x = 0 ∨ x = 96 then 0x85 else if x = 1 ∨ x = 97 then 2
  else if x = 32 ∨ x = 128 then 0xc0 else if x = 35 then 2 else if x = 131 then 1
  else if x = 52 then 5 else if x = 148 then 6
  else if x = 56 then 0xbc else if x = 57 then 2 else if x = 152 then 0x2c else if x = 153 then 1
  else if x = 64 ∨ x = 160 then 0xc1
  else if x = 66 ∨ x = 162 then 65 else if x = 68 then 66 else 0

theorem holdsSets_twoFiles :
    HoldsSets twoFilesDir 0 16 0 (twoFiles.map .file ++ List.replicate 10 .other) := by
  refine ⟨⟨rfl, rfl, rfl, rfl, rfl, rfl, fun j hj => ?_, ?_⟩,
    ⟨rfl, rfl, rfl, rfl, rfl, rfl, fun j hj => ?_, ?_⟩, ?_⟩
  · obtain rfl : j = 0 := Nat.lt_one_iff.mp hj
    rfl
  · intro k hk
    have hk : k < 2 := hk
    obtain rfl | rfl : k = 0 ∨ k = 1 := by omega
    · rfl
    · rfl
  · obtain rfl : j = 0 := Nat.lt_one_iff.mp hj
    rfl
  · intro k hk
    obtain rfl : k = 0 := Nat.lt_one_iff.mp hk
    rfl
  · exact @holdsSets_replicate twoFilesDir 0 10 6 (by decide)

/-- The longer name before it does not hide the second file. -/
theorem readFileExfatHelper_selects_second :
    readFileExfatHelper (smallVolume 0) (fun _ => 0) (fun _ => 0) (fun a => a) 1 twoFilesDir
      ⟨fun _ => 65, 1, 0, 1, 0x10000⟩ =
        (loadFile (smallVolume 0) (fun _ => 0) (fun _ => 0) 1 twoFilesDir 0x10000 ⟨6, 300⟩).map
          fun r => (1, r) := by
  have hc : FileCall.Names ⟨fun _ => 65, 1, 0, 1, 0x10000⟩ [65] := by
    refine ⟨rfl, fun j hj => ?_⟩
    obtain rfl : j = 0 := by simpa using hj
    rfl
  exact (readFileExfatHelper_selects hc holdsSets_twoFiles _ _ _).1
    (.ofChar 65 ⟨6, 300⟩) rfl

end LoofOS
