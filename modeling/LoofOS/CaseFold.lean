import LoofOS.DirectoryScan

/-!
# Looking Up Names by the Up-Case Table

The lookup in a directory compares characters of names, mapped by `upcase_table`, with the
characters of the path as they are (`findFile_eq`). `init_exfat` copies 128 bytes of the up-case
table on the volume, which are 64 of its entries (`upcaseTable_initExfat`), so the other ASCII
characters stay what they are.

## Main results

* `upcaseTable_initExfat`: the table that names are mapped by.
* `foldsCase_iff`: names are looked up as the table on the volume asks for if and only if this
  table changes none of their characters.
-/

namespace LoofOS

/-! ### The up-case table -/

section Table

variable {n : ℕ} {disk loadBuffer : Mem} {behind stored : ℕ → ℕ}

/-- The first sector of the partition. -/
def bootSector (n : ℕ) (disk : Mem) : Mem := fun j => disk (0x100 * 512 / n * n + j)

/-- The volume that the boot sector describes. -/
def diskVolume (n : ℕ) (disk : Mem) : Volume := bootRecord n (bootSector n disk)

/-- The bytes of a cluster on the drive. -/
def Volume.clusterAt (v : Volume) (disk : Mem) (c : ℕ) : Mem := fun j =>
  disk (v.getHeapLba c * v.driveBytesPerSector + j)

/-- The up-case table on the volume: the 16-bit entries of the cluster that the first up-case
entry of the root directory names. -/
def storedTable (n : ℕ) (disk : Mem) : Option (ℕ → ℕ) :=
  let v := diskVolume n disk
  let root := v.clusterAt disk ((bootSector n disk).read32 96)
  (upcaseEntry n root).map fun i a =>
    (v.clusterAt disk (root.read32 (i + 20))).read16 (2 * a)

/-- A sector read to the start of a buffer. -/
theorem biosExtRead_sector {v : Volume} (hv : v.driveBytesPerSector = n) (hn : n ≤ 2 ^ 32)
    (disk out : Mem) (lba : ℕ) {x : ℕ} (hx : x < n) :
    biosExtRead v disk out 0 lba 1 x = disk (lba * n + x) := by
  rw [biosExtRead_apply disk out lba (by omega), if_pos (by omega), hv, Nat.sub_zero]

/-- The fields of the boot record lie in its first 512 bytes. -/
theorem bootRecord_congr {b b' : Mem} (h : ∀ x < 512, b x = b' x) :
    bootRecord n b = bootRecord n b' ∧ b.read32 96 = b'.read32 96 := by
  have hword : ∀ a, a + 4 ≤ 512 → b.read32 a = b'.read32 a := fun a ha =>
    Mem.read32_congr fun x _ hx => h x (by omega)
  refine ⟨?_, hword 96 (by simp)⟩
  rw [bootRecord, bootRecord, hword 80 (by simp), hword 88 (by simp), hword 92 (by simp),
    h 109 (by simp)]

/-- The search for the up-case entry stays in its sector. -/
theorem upcaseEntry_congr {b b' : Mem} (hn : 32 ∣ n) (h : ∀ x < n, b x = b' x) :
    upcaseEntry n b = upcaseEntry n b' := by
  obtain ⟨k, rfl⟩ := hn
  refine congrArg (Option.map _) (List.find?_congr fun i hi => ?_)
  rw [h (32 * i) (by have := List.mem_range.mp hi; omega)]

theorem upcaseEntry_le {b : Mem} {i : ℕ} (hn : 32 ∣ n) (h : upcaseEntry n b = some i) :
    i + 32 ≤ n := by
  obtain ⟨k, rfl⟩ := hn
  obtain ⟨j, hj, rfl⟩ := Option.map_eq_some_iff.mp h
  have := List.mem_range.mp (List.mem_of_find?_eq_some hj)
  omega

theorem Volume.Sized.sector_bounds (h : (diskVolume n disk).Sized) :
    512 ≤ n ∧ n ≤ 2 ^ 32 ∧ 32 ∣ n := by
  obtain ⟨k, hk, hsector⟩ := h.sector
  change n = 2 ^ k at hsector
  have hcluster := h.cluster
  have hpow : 2 ^ (diskVolume n disk).sectorsPerClusterShift < 2 ^ 23 :=
    Nat.pow_lt_pow_right (by omega) h.shift
  change n ≤ _ at hcluster
  refine ⟨?_, by omega, ?_⟩
  · rw [hsector]
    exact Nat.pow_le_pow_right (n := 2) (by omega) hk
  · rw [hsector]
    exact Nat.pow_dvd_pow (n := k) 2 (by omega : 5 ≤ k)

/-- What `init_exfat` takes from the first sector of the partition. -/
theorem bootRecord_load (hv : (diskVolume n disk).Sized) (loadBuffer : Mem) :
    bootRecord n (biosExtRead ⟨0, 0, 0, 0, n⟩ disk loadBuffer 0 (0x100 * 512 / n) 1)
        = diskVolume n disk ∧
      (biosExtRead ⟨0, 0, 0, 0, n⟩ disk loadBuffer 0 (0x100 * 512 / n) 1).read32 96
        = (bootSector n disk).read32 96 := by
  obtain ⟨h512, hn, -⟩ := hv.sector_bounds
  refine bootRecord_congr fun x hx => ?_
  rw [biosExtRead_sector rfl hn disk loadBuffer _ (hx.trans_le h512), bootSector]

/-- **The table after `init_exfat`**: the first 64 entries are those on the volume. -/
theorem upcaseTable_initExfat (hv : (diskVolume n disk).Sized)
    (h : storedTable n disk = some stored) :
    (initExfat n disk loadBuffer behind).volume = diskVolume n disk ∧
      ∀ a < 128, (initExfat n disk loadBuffer behind).upcaseTable a
        = if a < 64 then stored a else a := by
  obtain ⟨h512, hn, hdvd⟩ := hv.sector_bounds
  obtain ⟨b, hb⟩ : ∃ b, b = biosExtRead ⟨0, 0, 0, 0, n⟩ disk loadBuffer 0 (0x100 * 512 / n) 1 :=
    ⟨_, rfl⟩
  obtain ⟨hboot, hroot⟩ := bootRecord_load hv loadBuffer
  rw [← hb] at hboot hroot
  have hsector : ∀ (out : Mem) (c x : ℕ), x < n →
      biosExtRead (diskVolume n disk) disk out 0 ((diskVolume n disk).getHeapLba c) 1 x
        = (diskVolume n disk).clusterAt disk c x :=
    fun out c x hx => biosExtRead_sector rfl hn disk out _ hx
  simp only [storedTable, Option.map_eq_some_iff] at h
  obtain ⟨i, hi, rfl⟩ := h
  have hi32 := upcaseEntry_le hdvd hi
  rw [initExfat]
  simp only [← hb, hboot, hroot]
  rw [upcaseEntry_congr hdvd (hsector b _), hi]
  refine ⟨rfl, fun a ha => ?_⟩
  simp only [copyTable]
  by_cases h64 : a < 64
  · rw [if_pos (by omega), if_pos h64, Mem.read32_congr fun x _ hx => hsector b _ x (by omega),
      Mem.read16, hsector _ _ _ (by omega), hsector _ _ _ (by omega), Mem.read16]
  · rw [if_neg (by omega), if_pos ha, if_neg h64]

end Table

/-! ### Folding -/

/-- The characters of names and of the components of a path: ASCII without NUL and `/`. -/
def NameChar (a : ℕ) : Prop := 0 < a ∧ a < 128 ∧ a ≠ 47

/-- Names over an alphabet are looked up by the table that is stored on the volume: a component
selects the first file whose name is equal to it after both have been mapped, and the entries
that are used are those of the stored table. -/
structure FoldsCase (x : Mounted) (stored : ℕ → ℕ) (alphabet : ℕ → Prop) : Prop where
  table : ∀ a, alphabet a → x.upcaseTable a = stored a
  lookup : ∀ (m : Mem) (call : FileCall) (items : List DirItem) (component : List ℕ),
    HoldsItems m call (entryCount x.volume call) 0 items →
    (∀ f ∈ filesOf items, ∀ a ∈ f.name, alphabet a) →
    call.Names component → (∀ a ∈ component, alphabet a) →
    findFile x.volume x.upcaseTable m call = some (((filesOf items).find?
      fun f => f.name.map stored = component.map stored).map DirFile.extension)

/-! A directory with one file, whose name is one character, and the component `c`. -/

def oneNameFile (a : ℕ) : DirFile := ⟨[a], ⟨0, 0⟩, Nat.one_pos, Nat.le_add_left 1 254⟩

def oneNameDir (a : ℕ) : Mem := fun x =>
  if x = 0 then 0x85 else if x = 1 then 2 else if x = 32 then 0xc0 else if x = 35 then 1
  else if x = 64 then 0xc1 else if x = 66 then UInt8.ofNat a else 0

def oneNameCall (c : ℕ) : FileCall := ⟨fun _ => Int8.ofNat c, 1, 0, 1, 0x10000⟩

/-- The items of that directory in a buffer of `n` entries. -/
def oneNameItems (a n : ℕ) : List DirItem :=
  .file (oneNameFile a) :: List.replicate (n - 3) .other

theorem nameEntries_oneNameFile (a : ℕ) : (oneNameFile a).nameEntries = 1 := by
  simp only [DirFile.nameEntries, oneNameFile, List.length_singleton, Nat.reduceAdd, Nat.reduceDiv]

theorem filesOf_oneNameItems (a n : ℕ) : filesOf (oneNameItems a n) = [oneNameFile a] := by
  rw [oneNameItems, filesOf, filesOf_replicate]

theorem names_oneNameCall {c : ℕ} (hc : c < 128) : (oneNameCall c).Names [c] where
  length := rfl
  char := by
    intro j hj
    obtain rfl : j = 0 := by simpa using hj
    exact Int8.toInt_ofNat_of_lt (by omega)

theorem oneNameDir_of_lt {a x : ℕ} (h : 66 < x) : oneNameDir a x = 0 := by
  simp only [oneNameDir]
  repeat rw [if_neg (by omega)]

/-- The file is at the start of the buffer. -/
theorem holdsFile_oneNameDir {a : ℕ} (ha : a < 128) (c : ℕ) :
    HoldsFile (oneNameDir a) (oneNameCall c) 0 (oneNameFile a) where
  type := rfl
  secondaryCount := by
    rw [nameEntries_oneNameFile]
    rfl
  extensionType := rfl
  nameLength := rfl
  firstCluster := rfl
  dataLength := rfl
  nameType := by
    intro j hj
    rw [nameEntries_oneNameFile] at hj
    obtain rfl : j = 0 := by omega
    rfl
  char := by
    intro k hk
    obtain rfl : k = 0 := by simpa [oneNameFile] using hk
    change (UInt8.ofNat a).toNat + 2 ^ 8 * 0 = a
    rw [UInt8.toNat_ofNat']
    omega
  padding := by
    intro k hk hk'
    rw [nameEntries_oneNameFile] at hk'
    have hone : 1 ≤ k := hk
    have haddr : dirEntry (oneNameCall c) (0 + k / 15 + 2) + 2 + 2 * (k % 15) = 66 + 2 * k := by
      simp only [dirEntry, oneNameCall]
      omega
    rw [haddr, Mem.read16, oneNameDir_of_lt (by omega), oneNameDir_of_lt (by omega)]
    rfl

theorem holdsItems_oneNameItems {a : ℕ} (ha : a < 128) (c : ℕ) {n : ℕ} (hn : 3 ≤ n) :
    HoldsItems (oneNameDir a) (oneNameCall c) n 0 (oneNameItems a n) := by
  have hother : ∀ k i, 3 ≤ i → i + k = n →
      HoldsItems (oneNameDir a) (oneNameCall c) n i (List.replicate k .other) := by
    intro k
    induction k with
    | zero => exact fun i _ hk => hk
    | succ k ih =>
        intro i hi hk
        refine ⟨?_, ih (i + 1) (by omega) (by omega)⟩
        change oneNameDir a (dirEntry (oneNameCall c) i) ≠ 0x85
        rw [oneNameDir_of_lt (by simp only [dirEntry, oneNameCall]; omega)]
        decide
  refine ⟨holdsFile_oneNameDir ha c, hother (n - 3) _ ?_ ?_⟩ <;>
    simp only [DirItem.size, nameEntries_oneNameFile] <;> omega

/-- A cluster of a directory has room for that file. -/
theorem Volume.Sized.three_le_entryCount {v : Volume} (h : v.Sized) (c : ℕ) :
    3 ≤ entryCount v (oneNameCall c) := by
  have hpos := Nat.two_pow_pos v.sectorsPerClusterShift
  change 3 ≤ v.clusterBytes / 32
  rw [h.clusterBytes_eq.1]
  omega

/-- What the lookup of the name `a` as the component `c` selects. -/
theorem findFile_oneName {v : Volume} (hv : v.Sized) {a c : ℕ} (ha : a < 128) (hc : c < 128)
    (upcaseTable : ℕ → ℕ) :
    findFile v upcaseTable (oneNameDir a) (oneNameCall c) =
      some (if upcaseTable a = c then some ⟨0, 0⟩ else none) := by
  rw [findFile_eq (names_oneNameCall hc) (holdsItems_oneNameItems ha c (hv.three_le_entryCount c)),
    filesOf_oneNameItems]
  by_cases h : upcaseTable a = c
  · rw [if_pos h, List.find?_cons_of_pos (by simpa [oneNameFile] using h)]
    rfl
  · rw [if_neg h, List.find?_cons_of_neg (by simpa [oneNameFile] using h)]
    rfl

/-- Where names are looked up as they should be, a character that has to match is mapped to its
counterpart: the file whose name is the one character is found. -/
theorem FoldsCase.loaded_eq {n : ℕ} {disk loadBuffer : Mem} {behind stored : ℕ → ℕ}
    {alphabet : ℕ → Prop} (hv : (diskVolume n disk).Sized) (h : storedTable n disk = some stored)
    (hfolds : FoldsCase (initExfat n disk loadBuffer behind) stored alphabet) {a c : ℕ}
    (ha : alphabet a) (hc : alphabet c) (ha' : a < 128) (hc' : c < 128)
    (hequal : stored a = stored c) : (initExfat n disk loadBuffer behind).upcaseTable a = c := by
  obtain ⟨hvolume, -⟩ := @upcaseTable_initExfat n disk loadBuffer behind stored hv h
  have hthree := hv.three_le_entryCount c
  rw [← hvolume] at hthree
  have hnames : ∀ f ∈ filesOf (oneNameItems a
      (entryCount (initExfat n disk loadBuffer behind).volume (oneNameCall c))),
      ∀ b ∈ f.name, alphabet b := by
    intro f hf b hb
    rw [filesOf_oneNameItems] at hf
    obtain rfl := List.mem_singleton.mp hf
    exact List.mem_singleton.mp hb ▸ ha
  have hfound := hfolds.lookup (oneNameDir a) (oneNameCall c) _ [c]
    (holdsItems_oneNameItems ha' c hthree) hnames
    (names_oneNameCall hc') (fun b hb => List.mem_singleton.mp hb ▸ hc)
  rw [hvolume, findFile_oneName hv ha' hc', filesOf_oneNameItems,
    List.find?_cons_of_pos (by simpa [oneNameFile] using hequal)] at hfound
  by_contra hne
  rw [if_neg hne] at hfound
  cases hfound

/-- **Case folding**: names over an alphabet are looked up by the table on the volume if and
only if this table changes none of their characters. -/
theorem foldsCase_iff {n : ℕ} {disk loadBuffer : Mem} {behind stored : ℕ → ℕ}
    {alphabet : ℕ → Prop} (hv : (diskVolume n disk).Sized) (h : storedTable n disk = some stored)
    (halphabet : ∀ a, alphabet a → NameChar a) :
    FoldsCase (initExfat n disk loadBuffer behind) stored alphabet ↔
      ∀ a, alphabet a → stored a = a := by
  obtain ⟨-, htable⟩ := @upcaseTable_initExfat n disk loadBuffer behind stored hv h
  constructor
  · intro hfolds a ha
    have hlt := (halphabet a ha).2.1
    have hself := hfolds.loaded_eq hv h ha ha hlt hlt rfl
    by_cases h64 : a < 64
    · rwa [htable a hlt, if_pos h64] at hself
    · exact (hfolds.table a ha).symm.trans hself
  · intro hstored
    have hloaded : ∀ a, alphabet a →
        (initExfat n disk loadBuffer behind).upcaseTable a = stored a := by
      intro a ha
      rw [htable a (halphabet a ha).2.1, hstored a ha, ite_self]
    refine ⟨hloaded, fun m call items component hitems hnames hc hcomponent => ?_⟩
    rw [findFile_eq hc hitems]
    refine congrArg (fun o => some (Option.map DirFile.extension o)) ?_
    refine List.find?_congr fun f hf => ?_
    rw [List.map_congr_left fun a ha => hloaded a (hnames f hf a ha),
      List.map_congr_left (l := component) fun a ha => hstored a (hcomponent a ha), List.map_id']

/-- The table of a volume that folds the lower-case letters. -/
def foldTable (a : ℕ) : ℕ := if 97 ≤ a ∧ a ≤ 122 then a - 32 else a

/-- A drive with sectors and clusters of 512 bytes, whose root directory has an up-case entry
only, for this table. -/
def foldDrive : Mem := fun x =>
  if x = 0x20000 + 80 then 24
  else if x = 0x20000 + 88 then 128
  else if x = 0x20000 + 92 then 100
  else if x = 0x20000 + 96 then 2
  else if x = 0x30000 then 0x82
  else if x = 0x30000 + 20 then 3
  else if 0x30200 ≤ x ∧ x < 0x30200 + 256 ∧ x % 2 = 0 then
    UInt8.ofNat (foldTable ((x - 0x30200) / 2))
  else 0

theorem foldDrive_sized : (diskVolume 512 foldDrive).Sized where
  sector := ⟨9, le_refl 9, rfl⟩
  cluster := by decide +kernel
  shift := by decide +kernel

theorem foldDrive_stored :
    ∃ stored, storedTable 512 foldDrive = some stored ∧ ∀ a < 128, stored a = foldTable a := by
  have hsome : (storedTable 512 foldDrive).isSome = true := by decide +kernel
  obtain ⟨stored, hstored⟩ := Option.isSome_iff_exists.mp hsome
  have hvalue : ∀ a < 128, (storedTable 512 foldDrive).map (fun t => t a) = some (foldTable a) := by
    decide +kernel
  refine ⟨stored, hstored, fun a ha => ?_⟩
  have ha := hvalue a ha
  rw [hstored] at ha
  exact Option.some.inj ha

/-- The digits are looked up as they should be. -/
theorem foldsCase_digits : ∃ stored, storedTable 512 foldDrive = some stored ∧
    FoldsCase (initExfat 512 foldDrive (fun _ => 0) (fun _ => 0)) stored
      (fun a => 48 ≤ a ∧ a < 58) := by
  obtain ⟨stored, hstored, htable⟩ := foldDrive_stored
  refine ⟨stored, hstored, (foldsCase_iff foldDrive_sized hstored ?_).mpr ?_⟩
  · rintro a ⟨h48, h58⟩
    exact ⟨by omega, by omega, by omega⟩
  · rintro a ⟨h48, h58⟩
    rw [htable a (by omega), foldTable, if_neg (by omega)]

/-- **A file that is not found**: the names `a` and `A` are equal for the table, but the file
`a` is not found by `A`. -/
theorem lookup_not_folded :
    ¬ ∀ (n : ℕ) (disk loadBuffer : Mem) (behind stored : ℕ → ℕ), (diskVolume n disk).Sized →
      storedTable n disk = some stored → (∀ a < 128, stored a < 128) →
      FoldsCase (initExfat n disk loadBuffer behind) stored NameChar := by
  intro hall
  obtain ⟨stored, hstored, htable⟩ := foldDrive_stored
  have hascii : ∀ a < 128, stored a < 128 := by
    intro a ha
    rw [htable a ha, foldTable]
    split <;> omega
  have hfolds := hall 512 foldDrive (fun _ => 0) (fun _ => 0) stored foldDrive_sized hstored hascii
  obtain ⟨-, hloaded⟩ :=
    @upcaseTable_initExfat 512 foldDrive (fun _ => 0) (fun _ => 0) stored foldDrive_sized hstored
  have hequal : stored 97 = stored 65 := by
    rw [htable 97 (by simp), htable 65 (by simp)]
    rfl
  have hfound := hfolds.loaded_eq foldDrive_sized hstored (a := 97) (c := 65)
    ⟨by simp, by simp, by simp⟩ ⟨by simp, by simp, by simp⟩ (by simp) (by simp)
    hequal
  rw [hloaded 97 (by simp), if_neg (by simp)] at hfound
  exact absurd hfound (by simp)

end LoofOS
