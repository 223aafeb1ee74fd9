import LoofOS.DescriptorTable
import LoofOS.Segmentation

/-!
# The Global Descriptor Table

`core/gdt.c`: `init_gdt` builds a table of 256 descriptors, of which five are present, and the TSS.
`kernelSegments` is the table that the processor makes of the bytes, wherever the linker puts `gdt`
and `tss`.

## Main results

* `decodeSegment_bytes`: the processor reads back what was put into a descriptor.
* `segments_initGdt`: the table after `init_gdt`.
* `loadsData_user`, `loadsStack_user`, `holdsCode_user`: what a program in ring 3 can load.
-/

namespace LoofOS

open X86

/-! ### The code -/

/-- `GDT_LIMIT`. -/
def gdtLimit : ℕ := 256

/-- `struct gdt_segment_desc`. -/
structure GdtSegmentDesc where
  limit1 : BitVec 16
  base1 : BitVec 24
  a : BitVec 1
  rw : BitVec 1
  dc : BitVec 1
  e : BitVec 1
  s : BitVec 1
  dpl : BitVec 2
  p : BitVec 1
  limit2 : BitVec 4
  zero : BitVec 1
  l : BitVec 1
  db : BitVec 1
  g : BitVec 1
  base2 : BitVec 8

/-- The size of `struct gdt_segment_desc`, which is packed. -/
def sizeofGdtSegmentDesc : ℕ := 8

/-- The bytes of a descriptor; the bit fields fill three, one and one of them. -/
def GdtSegmentDesc.bytes (d : GdtSegmentDesc) : List UInt8 :=
  [UInt8.ofNat d.limit1.toNat, UInt8.ofNat (d.limit1.toNat / 2 ^ 8),
    UInt8.ofNat d.base1.toNat, UInt8.ofNat (d.base1.toNat / 2 ^ 8),
    UInt8.ofNat (d.base1.toNat / 2 ^ 16),
    UInt8.ofNat (d.a.toNat + 2 * d.rw.toNat + 2 ^ 2 * d.dc.toNat + 2 ^ 3 * d.e.toNat
      + 2 ^ 4 * d.s.toNat + 2 ^ 5 * d.dpl.toNat + 2 ^ 7 * d.p.toNat),
    UInt8.ofNat (d.limit2.toNat + 2 ^ 4 * d.zero.toNat + 2 ^ 5 * d.l.toNat + 2 ^ 6 * d.db.toNat
      + 2 ^ 7 * d.g.toNat),
    UInt8.ofNat d.base2.toNat]

/-- The size of `tss`. -/
def sizeofTss : ℕ := 108

/-- Memory, the addresses of `gdt` and `tss`, and `gdtr`. -/
structure GdtState where
  byte : Mem
  gdt : ℕ
  tss : ℕ
  gdtrSize : ℕ
  gdtrOffset : ℕ

/-- `gdt[i] = d`. -/
def GdtState.set (t : GdtState) (i : ℕ) (d : GdtSegmentDesc) : GdtState :=
  { t with byte := storeBytes t.byte (t.gdt + sizeofGdtSegmentDesc * i) d.bytes }

/-- Bytes are stored in a field of `tss`. -/
def GdtState.storeTss (t : GdtState) (offset : ℕ) (bs : List UInt8) : GdtState :=
  { t with byte := storeBytes t.byte (t.tss + offset) bs }

/-- A segment of 4 GiB. -/
def flatSegment (e : BitVec 1) (dpl : BitVec 2) : GdtSegmentDesc where
  limit1 := 0xffff
  base1 := 0
  a := 0
  rw := 1
  dc := 0
  e := e
  s := 1
  dpl := dpl
  p := 1
  limit2 := 0xf
  zero := 0
  l := 0
  db := 1
  g := 1
  base2 := 0

/-- The null descriptor. -/
def nullSegment : GdtSegmentDesc := ⟨0, 0, 0, 0, 0, 0, 0, 0, 0, 0, 0, 0, 0, 0, 0⟩

/-- Kernel code. -/
def kernelCodeSegment : GdtSegmentDesc := flatSegment 1 0

/-- Kernel data. -/
def kernelDataSegment : GdtSegmentDesc := flatSegment 0 0

/-- User code. -/
def userCodeSegment : GdtSegmentDesc := flatSegment 1 3

/-- User data. -/
def userDataSegment : GdtSegmentDesc := flatSegment 0 3

/-- The descriptor of the TSS at an address. -/
def tssSegment (tss : ℕ) : GdtSegmentDesc where
  limit1 := BitVec.ofNat 16 (sizeofTss - 1)
  base1 := BitVec.ofNat 24 tss
  a := 1
  rw := 0
  dc := 0
  e := 1
  s := 0
  dpl := 0
  p := 1
  limit2 := 0
  zero := 0
  l := 0
  db := 1
  g := 0
  base2 := BitVec.ofNat 8 (tss / 2 ^ 24)

/-- `init_gdt`. -/
def initGdt (t : GdtState) : GdtState :=
  let gdtLen := sizeofGdtSegmentDesc * gdtLimit
  let t := { t with gdtrSize := gdtLen - 1, gdtrOffset := t.gdt }
  let t := ((((t.set 0 nullSegment).set 1 kernelCodeSegment).set 2 kernelDataSegment).set 3
    userCodeSegment).set 4 userDataSegment
  -- `ss0`, `esp0` and `iopb`
  let t := t.storeTss 8 [0x10, 0]
  let t := t.storeTss 4 [0xfc, 0xff, 0xff, 0xcf]
  let t := t.storeTss 102 [UInt8.ofNat sizeofTss, 0]
  t.set 5 (tssSegment t.tss)

/-! ### The table -/

/-- The five descriptors that are present; the others are zero. -/
def kernelSegments (tss : ℕ) : SegmentTable
  | 1 => some ⟨0, 0xfffff, 0xa, 1, 0, 1, 0, 1, 1⟩
  | 2 => some ⟨0, 0xfffff, 0x2, 1, 0, 1, 0, 1, 1⟩
  | 3 => some ⟨0, 0xfffff, 0xa, 1, 3, 1, 0, 1, 1⟩
  | 4 => some ⟨0, 0xfffff, 0x2, 1, 3, 1, 0, 1, 1⟩
  | 5 => some ⟨tss, 107, 0x9, 0, 0, 1, 0, 1, 0⟩
  | i => if i < gdtLimit then some ⟨0, 0, 0, 0, 0, 0, 0, 0, 0⟩ else none

theorem kernelSegments_of_le {tss i : ℕ} (h : 6 ≤ i) : kernelSegments tss i
    = if i < gdtLimit then some ⟨0, 0, 0, 0, 0, 0, 0, 0, 0⟩ else none := by
  obtain ⟨k, rfl⟩ := Nat.exists_eq_add_of_le h
  rw [Nat.add_comm]
  rfl

/-- What the processor makes of a descriptor. -/
def GdtSegmentDesc.segment (d : GdtSegmentDesc) : Segment where
  base := d.base1.toNat + 2 ^ 24 * d.base2.toNat
  limit := d.limit1.toNat + 2 ^ 16 * d.limit2.toNat
  type := d.a.toNat + 2 * d.rw.toNat + 2 ^ 2 * d.dc.toNat + 2 ^ 3 * d.e.toNat
  s := d.s.toNat
  dpl := d.dpl.toNat
  present := d.p.toNat
  l := d.l.toNat
  db := d.db.toNat
  granularity := d.g.toNat

/-- The descriptor in an entry of the table, as the processor reads it. -/
def GdtState.segment (t : GdtState) (i : ℕ) : Segment := decodeSegment t.byte (t.gdt + 8 * i)

/-- **The processor reads back what was put into a descriptor.** -/
theorem decodeSegment_bytes (m : Mem) (a : ℕ) (d : GdtSegmentDesc) :
    decodeSegment (storeBytes m a d.bytes) a = d.segment := by
  have hbyte : ∀ i < 8, storeBytes m a d.bytes (a + i) = d.bytes.getD i 0 := fun i hi => by
    have hlen : i < d.bytes.length := hi
    rw [storeBytes_mem m hlen, List.getD_eq_getElem _ _ hlen]
  have h0 : storeBytes m a d.bytes a = d.bytes.getD 0 0 := hbyte 0 (by omega)
  have hlimit1 := d.limit1.isLt
  have hbase1 := d.base1.isLt
  have ha := d.a.isLt
  have hrw := d.rw.isLt
  have hdc := d.dc.isLt
  have he := d.e.isLt
  have hs := d.s.isLt
  have hdpl := d.dpl.isLt
  have hp := d.p.isLt
  have hlimit2 := d.limit2.isLt
  have hzero := d.zero.isLt
  have hl := d.l.isLt
  have hdb := d.db.isLt
  have hg := d.g.isLt
  have hbase2 := d.base2.isLt
  simp (disch := omega) only [decodeSegment, h0, hbyte]
  simp only [GdtSegmentDesc.bytes, GdtSegmentDesc.segment, List.getD_cons_zero,
    List.getD_cons_succ, UInt8.toNat_ofNat', Segment.mk.injEq]
  refine ⟨?_, ?_, ?_, ?_, ?_, ?_, ?_, ?_, ?_⟩ <;> omega

section Table

variable {t : GdtState}

/-- **One entry** is updated. -/
theorem segment_set (t : GdtState) (i : ℕ) (d : GdtSegmentDesc) :
    (t.set i d).segment = Function.update t.segment i d.segment := by
  funext j
  have hlen : d.bytes.length = 8 := rfl
  by_cases hj : j = i
  · subst hj
    rw [Function.update_self]
    exact decodeSegment_bytes t.byte _ d
  · rw [Function.update_of_ne hj]
    refine decodeSegment_congr fun k hk => storeBytes_of_out _ ?_
    rw [hlen, sizeofGdtSegmentDesc]
    change t.gdt + 8 * j + k < _ ∨ _ ≤ t.gdt + 8 * j + k
    omega

/-- The fields of the TSS are outside the table. -/
theorem segment_storeTss {offset j : ℕ} {bs : List UInt8}
    (happart : t.gdt + 2048 ≤ t.tss ∨ t.tss + sizeofTss ≤ t.gdt)
    (hfield : offset + bs.length ≤ sizeofTss) (hj : j < gdtLimit) :
    (t.storeTss offset bs).segment j = t.segment j := by
  have hlimit : gdtLimit = 256 := rfl
  refine decodeSegment_congr fun k hk => storeBytes_of_out _ ?_
  change t.gdt + 8 * j + k < _ ∨ _ ≤ t.gdt + 8 * j + k
  omega

/-- **The table after `init_gdt`**, of which the entries behind the sixth one were zero. -/
theorem segments_initGdt (hzero : ∀ x, t.gdt + 48 ≤ x → x < t.gdt + 2048 → t.byte x = 0)
    (happart : t.gdt + 2048 ≤ t.tss ∨ t.tss + sizeofTss ≤ t.gdt) (htss : t.tss < 2 ^ 32) :
    segmentsAt (initGdt t).byte (initGdt t).gdtrOffset (initGdt t).gdtrSize
      = kernelSegments t.tss := by
  have hsize : (initGdt t).gdtrSize = 2047 := rfl
  have hlimit : gdtLimit = 256 := rfl
  have hsegment : ∀ j < gdtLimit, (initGdt t).segment j = Function.update (Function.update
      (Function.update (Function.update (Function.update (Function.update t.segment
        0 nullSegment.segment) 1 kernelCodeSegment.segment) 2 kernelDataSegment.segment)
        3 userCodeSegment.segment) 4 userDataSegment.segment) 5 (tssSegment t.tss).segment j := by
    intro j hj
    set u : GdtState := { t with gdtrSize := 2047, gdtrOffset := t.gdt }
    set v := ((((u.set 0 nullSegment).set 1 kernelCodeSegment).set 2 kernelDataSegment).set 3
      userCodeSegment).set 4 userDataSegment with hv
    set x := v.storeTss 8 [0x10, 0]
    set y := x.storeTss 4 [0xfc, 0xff, 0xff, 0xcf]
    have hinit : initGdt t =
        (y.storeTss 102 [UInt8.ofNat sizeofTss, 0]).set 5 (tssSegment t.tss) := rfl
    have hfive : v.segment = Function.update (Function.update (Function.update (Function.update
        (Function.update t.segment 0 nullSegment.segment) 1 kernelCodeSegment.segment) 2
        kernelDataSegment.segment) 3 userCodeSegment.segment) 4 userDataSegment.segment := by
      simp only [hv, segment_set]
      rfl
    have hother : ∀ (w : GdtState) (offset : ℕ) (bs : List UInt8), w.gdt = t.gdt → w.tss = t.tss →
        offset + bs.length ≤ sizeofTss → (w.storeTss offset bs).segment j = w.segment j :=
      fun w offset bs hgdt hwtss hfield =>
        segment_storeTss (by rw [hgdt, hwtss]; exact happart) hfield hj
    rw [hinit, segment_set]
    by_cases hne : j = 5
    · rw [hne, Function.update_self, Function.update_self]
    · rw [Function.update_of_ne hne, Function.update_of_ne hne,
        hother y _ _ rfl rfl (by simp [sizeofTss]), hother x _ _ rfl rfl (by simp [sizeofTss]),
        hother v _ _ rfl rfl (by simp [sizeofTss]), hfive]
  funext i
  rw [segmentsAt, hsize]
  change (if 8 * i + 7 ≤ 2047 then some ((initGdt t).segment i) else none) = _
  by_cases hi : i < gdtLimit
  · rw [if_pos (by omega), hsegment i hi]
    have hcase : i = 0 ∨ i = 1 ∨ i = 2 ∨ i = 3 ∨ i = 4 ∨ i = 5 ∨ 6 ≤ i := by omega
    rcases hcase with rfl | rfl | rfl | rfl | rfl | rfl | hle
    · rfl
    · rfl
    · rfl
    · rfl
    · rfl
    · have hbase : (BitVec.ofNat 24 t.tss).toNat
          + 2 ^ 24 * (BitVec.ofNat 8 (t.tss / 2 ^ 24)).toNat = t.tss := by
        rw [BitVec.toNat_ofNat, BitVec.toNat_ofNat]
        omega
      rw [Function.update_self, tssSegment]
      simp only [GdtSegmentDesc.segment, hbase]
      rfl
    · rw [kernelSegments_of_le hle, if_pos hi]
      simp (disch := omega) only [Function.update_of_ne]
      have hentry : t.segment i = decodeSegment (fun _ => 0) (t.gdt + 8 * i) :=
        decodeSegment_congr fun k hk => hzero _ (by omega) (by omega)
      rw [hentry]
      simp [decodeSegment]
  · rw [if_neg (by omega), kernelSegments_of_le (by omega), if_neg hi]

/-- A descriptor is outside the TSS. -/
theorem byte_set_of_tss {i x : ℕ} {d : GdtSegmentDesc}
    (happart : t.gdt + 2048 ≤ t.tss ∨ t.tss + sizeofTss ≤ t.gdt) (hi : i < gdtLimit)
    (hx : t.tss ≤ x) (hx' : x < t.tss + sizeofTss) : (t.set i d).byte x = t.byte x := by
  have hlimit : gdtLimit = 256 := rfl
  have hlen : d.bytes.length = 8 := rfl
  refine storeBytes_of_out _ ?_
  rw [hlen, sizeofGdtSegmentDesc]
  omega

/-- The bytes of the TSS behind a store in one of its fields. -/
theorem byte_storeTss (t : GdtState) (offset i : ℕ) (bs : List UInt8) :
    (t.storeTss offset bs).byte (t.tss + i)
      = if offset ≤ i ∧ i < offset + bs.length then bs.getD (i - offset) 0
        else t.byte (t.tss + i) := by
  split
  next h =>
    have hlen : i - offset < bs.length := by omega
    have hi : t.tss + i = t.tss + offset + (i - offset) := by omega
    rw [hi, List.getD_eq_getElem _ _ hlen]
    exact storeBytes_mem _ hlen
  next h => exact storeBytes_of_out _ (by omega)

/-- Memory outside the first six descriptors and the TSS is not written. -/
theorem initGdt_outside {x : ℕ} (hgdt : x < t.gdt ∨ t.gdt + 48 ≤ x)
    (htss : x < t.tss ∨ t.tss + sizeofTss ≤ x) : (initGdt t).byte x = t.byte x := by
  have hset : ∀ (u : GdtState) (i : ℕ) (d : GdtSegmentDesc), i < 6 → u.gdt = t.gdt →
      (u.set i d).byte x = u.byte x := fun u i d hi hu => by
    have hlen : d.bytes.length = 8 := rfl
    refine storeBytes_of_out _ ?_
    rw [hlen, sizeofGdtSegmentDesc, hu]
    omega
  have hstore : ∀ (u : GdtState) (offset : ℕ) (bs : List UInt8), offset + bs.length ≤ sizeofTss →
      u.tss = t.tss → (u.storeTss offset bs).byte x = u.byte x := fun u offset bs hle hu => by
    refine storeBytes_of_out _ ?_
    rw [hu]
    omega
  set u : GdtState := { t with gdtrSize := 2047, gdtrOffset := t.gdt }
  set u₁ := (u.set 0 nullSegment).set 1 kernelCodeSegment
  set u₂ := (u₁.set 2 kernelDataSegment).set 3 userCodeSegment
  set v := u₂.set 4 userDataSegment
  set y := (v.storeTss 8 [0x10, 0]).storeTss 4 [0xfc, 0xff, 0xff, 0xcf]
  have hfields : (y.storeTss 102 [UInt8.ofNat sizeofTss, 0]).byte x = v.byte x :=
    (hstore y 102 _ (by simp [sizeofTss]) rfl).trans ((hstore (v.storeTss 8 _) 4 _
      (by simp [sizeofTss]) rfl).trans (hstore v 8 _ (by simp [sizeofTss]) rfl))
  have hentries : v.byte x = t.byte x :=
    (hset u₂ 4 _ (by simp) rfl).trans ((hset (u₁.set 2 _) 3 _ (by simp) rfl).trans
      ((hset u₁ 2 _ (by simp) rfl).trans ((hset (u.set 0 _) 1 _ (by simp) rfl).trans
        (hset u 0 _ (by simp) rfl))))
  exact (hset (y.storeTss 102 _) 5 _ (by simp) rfl).trans (hfields.trans hentries)

/-- **The TSS after `init_gdt`**: the stack for ring 0, and the offset of the bitmap. -/
theorem tss_initGdt (happart : t.gdt + 2048 ≤ t.tss ∨ t.tss + sizeofTss ≤ t.gdt) :
    (initGdt t).byte.read32 (t.tss + 4) = 0xcffffffc ∧ (initGdt t).byte.read16 (t.tss + 8) = 0x10 ∧
      (initGdt t).byte.read16 (t.tss + 102) = sizeofTss := by
  set u : GdtState := { t with gdtrSize := 2047, gdtrOffset := t.gdt }
  set v := ((((u.set 0 nullSegment).set 1 kernelCodeSegment).set 2 kernelDataSegment).set 3
    userCodeSegment).set 4 userDataSegment
  set x := v.storeTss 8 [0x10, 0] with hx
  set y := x.storeTss 4 [0xfc, 0xff, 0xff, 0xcf] with hy
  set z := y.storeTss 102 [UInt8.ofNat sizeofTss, 0] with hz
  have hinit : initGdt t = z.set 5 (tssSegment t.tss) := rfl
  have hbyte : ∀ i < 108, (initGdt t).byte (t.tss + i) = z.byte (t.tss + i) := fun i hi => by
    rw [hinit]
    exact @byte_set_of_tss z 5 _ _ happart (by simp [gdtLimit]) (Nat.le_add_right _ _)
      (Nat.add_lt_add_left hi _)
  have hfields : ∀ i, z.byte (t.tss + i) =
      if 102 ≤ i ∧ i < 104 then [UInt8.ofNat sizeofTss, 0].getD (i - 102) 0
      else if 4 ≤ i ∧ i < 8 then [0xfc, 0xff, 0xff, 0xcf].getD (i - 4) 0
      else if 8 ≤ i ∧ i < 10 then [0x10, 0].getD (i - 8) 0 else v.byte (t.tss + i) := fun i =>
    (byte_storeTss y 102 i _).trans (congrArg _ ((byte_storeTss x 4 i _).trans
      (congrArg _ (byte_storeTss v 8 i _))))
  have hone := fun i hi => (hbyte i hi).trans (hfields i)
  refine ⟨?_, ?_, ?_⟩
  · simp [Mem.read32, Nat.add_assoc, hone]
  · simp [Mem.read16, Nat.add_assoc, hone]
  · simp [Mem.read16, Nat.add_assoc, hone, sizeofTss]

end Table

/-! ### Programs in ring 3 -/

section User

variable {tss : ℕ} {sel : BitVec 16}

/-- The descriptors that are present. -/
theorem find_kernelSegments {d : Segment} (h : (kernelSegments tss).find sel = some d)
    (hpresent : d.present = 1) : sel.toNat % 8 < 4 ∧
      ((sel.toNat / 8 = 1 ∧ d = ⟨0, 0xfffff, 0xa, 1, 0, 1, 0, 1, 1⟩) ∨
        (sel.toNat / 8 = 2 ∧ d = ⟨0, 0xfffff, 0x2, 1, 0, 1, 0, 1, 1⟩) ∨
        (sel.toNat / 8 = 3 ∧ d = ⟨0, 0xfffff, 0xa, 1, 3, 1, 0, 1, 1⟩) ∨
        (sel.toNat / 8 = 4 ∧ d = ⟨0, 0xfffff, 0x2, 1, 3, 1, 0, 1, 1⟩) ∨
        (sel.toNat / 8 = 5 ∧ d = ⟨tss, 107, 0x9, 0, 0, 1, 0, 1, 0⟩)) := by
  rw [SegmentTable.find] at h
  split at h
  · cases h
  next hfound =>
    generalize hi : sel.toNat / 8 = i at h ⊢
    refine ⟨by omega, ?_⟩
    have hcase : i = 0 ∨ i = 1 ∨ i = 2 ∨ i = 3 ∨ i = 4 ∨ i = 5 ∨ 6 ≤ i := by omega
    rcases hcase with rfl | rfl | rfl | rfl | rfl | rfl | hle
    · obtain rfl := Option.some.inj h
      cases hpresent
    · exact Or.inl ⟨rfl, (Option.some.inj h).symm⟩
    · exact Or.inr (Or.inl ⟨rfl, (Option.some.inj h).symm⟩)
    · exact Or.inr (Or.inr (Or.inl ⟨rfl, (Option.some.inj h).symm⟩))
    · exact Or.inr (Or.inr (Or.inr (Or.inl ⟨rfl, (Option.some.inj h).symm⟩)))
    · exact Or.inr (Or.inr (Or.inr (Or.inr ⟨rfl, (Option.some.inj h).symm⟩)))
    · rw [kernelSegments_of_le hle] at h
      split at h
      · obtain rfl := Option.some.inj h
        cases hpresent
      · cases h

/-- The selectors with a descriptor of their own in the table. -/
theorem find_of_index {i : ℕ} (hi : sel.toNat / 8 = i) (hpos : 0 < i) (hlocal : sel.toNat % 8 < 4) :
    (kernelSegments tss).find sel = kernelSegments tss i := by
  rw [SegmentTable.find, if_neg (by omega), hi]

/-- **What a program in ring 3 can load** into a data segment register: a null selector, or one of
the two user segments. -/
theorem loadsData_user : (kernelSegments tss).loadsData 3 sel = true ↔
    sel.toNat < 4 ∨ sel.toNat / 4 = 6 ∨ sel.toNat / 4 = 8 := by
  constructor
  · intro h
    simp only [SegmentTable.loadsData, Bool.or_eq_true, decide_eq_true_eq, Option.any_eq_true,
      Bool.and_eq_true, beq_iff_eq] at h
    refine h.imp_right fun h => ?_
    obtain ⟨d, hd, ⟨-, hlevel⟩, hpresent⟩ := h
    obtain ⟨hlocal, hcase⟩ := find_kernelSegments hd hpresent
    rcases hcase with ⟨-, rfl⟩ | ⟨-, rfl⟩ | ⟨hi, -⟩ | ⟨hi, -⟩ | ⟨-, rfl⟩
    · simp [Segment.conforming, Segment.isCode] at hlevel
    · simp [Segment.conforming, Segment.isCode] at hlevel
    · omega
    · omega
    · simp [Segment.conforming, Segment.isCode] at hlevel
  · rintro (h | h | h)
    · simp [SegmentTable.loadsData, h]
    · have hfind := @find_of_index tss sel 3 (by omega) (by omega) (by omega)
      have hrpl : rpl sel ≤ 3 := by rw [rpl]; omega
      simp [SegmentTable.loadsData, hfind, kernelSegments, Segment.readable, Segment.isCode,
        hrpl]
    · have hfind := @find_of_index tss sel 4 (by omega) (by omega) (by omega)
      have hrpl : rpl sel ≤ 3 := by rw [rpl]; omega
      simp [SegmentTable.loadsData, hfind, kernelSegments, Segment.readable, Segment.isData,
        hrpl]

/-- The stack of a program in ring 3. -/
theorem loadsStack_user : (kernelSegments tss).loadsStack 3 sel = true ↔ sel = 0x23 := by
  constructor
  · intro h
    simp only [SegmentTable.loadsStack, Option.any_eq_true, Bool.and_eq_true, beq_iff_eq] at h
    obtain ⟨d, hd, ⟨⟨hrpl, hwrite⟩, hdpl⟩, hpresent⟩ := h
    obtain ⟨hlocal, hcase⟩ := find_kernelSegments hd hpresent
    rcases hcase with ⟨-, rfl⟩ | ⟨-, rfl⟩ | ⟨-, rfl⟩ | ⟨hi, -⟩ | ⟨-, rfl⟩
    · cases hdpl
    · cases hdpl
    · cases hwrite
    · rw [rpl] at hrpl
      exact BitVec.eq_of_toNat_eq (show sel.toNat = 35 by omega)
    · cases hdpl
  · rintro rfl
    rfl

/-- The code of a program in ring 3. -/
theorem holdsCode_user : (kernelSegments tss).holdsCode 3 sel = true ↔ sel = 0x1b := by
  constructor
  · intro h
    simp only [SegmentTable.holdsCode, Option.any_eq_true, Bool.and_eq_true, beq_iff_eq] at h
    obtain ⟨d, hd, ⟨⟨hrpl, hcode⟩, hpresent⟩, hlevel⟩ := h
    obtain ⟨hlocal, hcase⟩ := find_kernelSegments hd hpresent
    rcases hcase with ⟨-, rfl⟩ | ⟨-, rfl⟩ | ⟨hi, -⟩ | ⟨-, rfl⟩ | ⟨-, rfl⟩
    · cases hlevel
    · cases hcode
    · rw [rpl] at hrpl
      exact BitVec.eq_of_toNat_eq (show sel.toNat = 27 by omega)
    · cases hcode
    · cases hcode
  · rintro rfl
    rfl

/-- The table has no gate, and no task, for a program in ring 3. -/
theorem leads_user : (kernelSegments tss).leads 3 sel = false := by
  rw [Bool.eq_false_iff]
  intro h
  simp only [SegmentTable.leads, Option.any_eq_true, Bool.and_eq_true, beq_iff_eq,
    decide_eq_true_eq] at h
  obtain ⟨d, hd, ⟨hsystem, hlevel⟩, hpresent⟩ := h
  obtain ⟨-, hcase⟩ := find_kernelSegments hd hpresent
  rcases hcase with ⟨-, rfl⟩ | ⟨-, rfl⟩ | ⟨-, rfl⟩ | ⟨-, rfl⟩ | ⟨-, rfl⟩
  · cases hsystem
  · cases hsystem
  · cases hsystem
  · cases hsystem
  · exact absurd (Nat.max_le.mp hlevel).1 (by simp)

/-- A return to ring 3 keeps the user segments. -/
theorem usable_user (h : sel.toNat / 4 = 6 ∨ sel.toNat / 4 = 8) :
    (kernelSegments tss).usable 3 sel = true := by
  rcases h with h | h
  · have hfind := @find_of_index tss sel 3 (by omega) (by omega) (by omega)
    rw [SegmentTable.usable, hfind]
    rfl
  · have hfind := @find_of_index tss sel 4 (by omega) (by omega) (by omega)
    rw [SegmentTable.usable, hfind]
    rfl

end User

end LoofOS
