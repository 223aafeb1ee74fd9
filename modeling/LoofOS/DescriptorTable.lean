import LoofOS.Requests

/-!
# The Interrupt Descriptor Table

`core/idt.c`: a table of 256 gates of eight bytes, in a block of the kernel heap. `set_id`
builds a `struct idt_desc` and writes its bytes; `Gate` is what the processor makes of the
eight bytes. To the processor the table is a function from vectors to gates, and `set_id` an
update of that function, so after any calls the gate of a vector is what the last call for
it says. The block is not cleared when it is allocated, and the gate of a vector that was
never set is what its bytes happen to be.

## Main results

* `gate_setId`: `set_id` updates one gate and leaves the others alone.
* `gate_run`: the gates after any number of calls.
* `idt_faithful_iff`: when the table is what the calls say.
-/

namespace LoofOS

/-! ### The code -/

/-- `IDT_LIMIT`. -/
def idtLimit : ℕ := 256

/-- `struct idt_desc`. -/
structure IdtDesc where
  offset1 : BitVec 16
  selector : BitVec 16
  unused : BitVec 8
  type : BitVec 4
  s : BitVec 1
  dpl : BitVec 2
  present : BitVec 1
  offset2 : BitVec 16

/-- The size of `struct idt_desc`, which is packed. -/
def sizeofIdtDesc : ℕ := 8

/-- The bytes of a descriptor; the bit fields share the sixth one. -/
def IdtDesc.bytes (d : IdtDesc) : List UInt8 :=
  [UInt8.ofNat d.offset1.toNat, UInt8.ofNat (d.offset1.toNat / 2 ^ 8),
    UInt8.ofNat d.selector.toNat, UInt8.ofNat (d.selector.toNat / 2 ^ 8),
    UInt8.ofNat d.unused.toNat,
    UInt8.ofNat (d.type.toNat + 2 ^ 4 * d.s.toNat + 2 ^ 5 * d.dpl.toNat
      + 2 ^ 7 * d.present.toNat),
    UInt8.ofNat d.offset2.toNat, UInt8.ofNat (d.offset2.toNat / 2 ^ 8)]

/-- Memory, `idt` and `idtr`. -/
structure IdtState where
  ram : Ram
  idt : ℕ
  idtrSize : ℕ
  idtrOffset : ℕ

/-- `init_idt`. -/
def initIdt (r : Ram) : Option IdtState :=
  let idtLen := sizeofIdtDesc * idtLimit
  (kernelAllocate r idtLen).map fun (idt, r) => ⟨r, idt, idtLen - 1, idt⟩

/-- Bytes are written from an address on. -/
def storeBytes (m : Mem) (a : ℕ) (bs : List UInt8) : Mem := fun x =>
  if a ≤ x then bs.getD (x - a) (m x) else m x

/-- `set_id`. The block of the table lies below `2 ^ 32` (`initIdt_bounds`). -/
def setId (t : IdtState) (idtPos : UInt8) (offset : BitVec 32) (selector : BitVec 16)
    (type dpl present : UInt8) : IdtState :=
  let desc : IdtDesc := {
    offset1 := (offset &&& 0xffff).setWidth 16
    selector := selector
    unused := 0
    type := type.toBitVec.setWidth 4
    s := 0
    dpl := dpl.toBitVec.setWidth 2
    present := present.toBitVec.setWidth 1
    offset2 := ((offset >>> 16) &&& 0xffff).setWidth 16 }
  { t with ram := { t.ram with
      byte := storeBytes t.ram.byte (t.idt + sizeofIdtDesc * idtPos.toNat) desc.bytes } }

/-! ### The processor -/

/-- A gate as the processor sees it. -/
structure Gate where
  offset : ℕ
  selector : ℕ
  type : ℕ
  s : ℕ
  dpl : ℕ
  present : ℕ
  deriving DecidableEq

/-- The gate in the eight bytes from `a` on. -/
def decodeGate (m : Mem) (a : ℕ) : Gate where
  offset := m.read16 a + 2 ^ 16 * m.read16 (a + 6)
  selector := m.read16 (a + 2)
  type := (m (a + 5)).toNat % 2 ^ 4
  s := (m (a + 5)).toNat / 2 ^ 4 % 2
  dpl := (m (a + 5)).toNat / 2 ^ 5 % 2 ^ 2
  present := (m (a + 5)).toNat / 2 ^ 7

/-- The gate of a vector, through `idtr`. -/
def IdtState.gate (t : IdtState) (v : UInt8) : Gate :=
  decodeGate t.ram.byte (t.idtrOffset + 8 * v.toNat)

/-! ### What the calls say -/

/-- A call of `set_id`, with arguments in the range of their fields. -/
structure SetIdCall where
  idtPos : UInt8
  offset : BitVec 32
  selector : BitVec 16
  type : UInt8
  dpl : UInt8
  present : UInt8
  type_lt : type.toNat < 2 ^ 4
  dpl_lt : dpl.toNat < 2 ^ 2
  present_lt : present.toNat < 2

/-- The call is performed. -/
def SetIdCall.perform (t : IdtState) (c : SetIdCall) : IdtState :=
  setId t c.idtPos c.offset c.selector c.type c.dpl c.present

/-- The gate that a call stands for. -/
def SetIdCall.gate (c : SetIdCall) : Gate :=
  ⟨c.offset.toNat, c.selector.toNat, c.type.toNat, 0, c.dpl.toNat, c.present.toNat⟩

/-- The last call for a vector. -/
def lastCall (v : UInt8) : List SetIdCall → Option SetIdCall
  | [] => none
  | c :: calls => (lastCall v calls).or (if c.idtPos = v then some c else none)

/-- The table is what the calls say: the last call for a vector, and a gate that is not
present where there was none. -/
structure IdtFaithful (calls : List SetIdCall) (t : IdtState) : Prop where
  set : ∀ v c, lastCall v calls = some c → t.gate v = c.gate
  unset : ∀ v, lastCall v calls = none → (t.gate v).present = 0

/-! ### One call -/

theorem storeBytes_mem {a i : ℕ} {bs : List UInt8} (m : Mem) (hi : i < bs.length) :
    storeBytes m a bs (a + i) = bs[i] := by
  rw [storeBytes, if_pos (Nat.le_add_right a i), Nat.add_sub_cancel_left,
    List.getD_eq_getElem _ _ hi]

theorem storeBytes_of_out {a x : ℕ} {bs : List UInt8} (m : Mem) (h : x < a ∨ a + bs.length ≤ x) :
    storeBytes m a bs x = m x := by
  rw [storeBytes]
  split
  · exact List.getD_eq_default _ _ (by omega)
  · rfl

theorem decodeGate_congr {m m' : Mem} {a : ℕ} (h : ∀ i < 8, m (a + i) = m' (a + i)) :
    decodeGate m a = decodeGate m' a := by
  have h0 : m a = m' a := h 0 (by omega)
  simp (disch := omega) only [decodeGate, Mem.read16, Nat.add_assoc, h0, h, Nat.reduceAdd]

/-- The processor reads back what was put into a descriptor. -/
theorem decodeGate_bytes (m : Mem) (a : ℕ) (d : IdtDesc) :
    decodeGate (storeBytes m a d.bytes) a =
      { offset := d.offset1.toNat + 2 ^ 16 * d.offset2.toNat
        selector := d.selector.toNat
        type := d.type.toNat
        s := d.s.toNat
        dpl := d.dpl.toNat
        present := d.present.toNat } := by
  have hbyte : ∀ i < 8, storeBytes m a d.bytes (a + i) = d.bytes.getD i 0 := fun i hi => by
    have hlen : i < d.bytes.length := hi
    rw [storeBytes_mem m hlen, List.getD_eq_getElem _ _ hlen]
  have h0 : storeBytes m a d.bytes a = d.bytes.getD 0 0 := hbyte 0 (by omega)
  have hoffset1 := d.offset1.isLt
  have hoffset2 := d.offset2.isLt
  have hselector := d.selector.isLt
  have htype := d.type.isLt
  have hs := d.s.isLt
  have hdpl := d.dpl.isLt
  have hpresent := d.present.isLt
  simp (disch := omega) only [decodeGate, Mem.read16, Nat.add_assoc, h0, hbyte, Nat.reduceAdd]
  simp only [IdtDesc.bytes, List.getD_cons_zero, List.getD_cons_succ, UInt8.toNat_ofNat',
    Gate.mk.injEq]
  refine ⟨?_, ?_, ?_, ?_, ?_, ?_⟩ <;> omega

/-- The two halves of an address. -/
theorem offset_halves (w : BitVec 32) :
    ((w &&& 0xffff).setWidth 16).toNat + 2 ^ 16 * (((w >>> 16) &&& 0xffff).setWidth 16).toNat
      = w.toNat := by
  have hw := w.isLt
  have hlow : (w &&& 0xffff).toNat = w.toNat % 2 ^ 16 := by
    rw [BitVec.toNat_and]
    exact Nat.and_two_pow_sub_one_eq_mod _ 16
  have hhigh : ((w >>> 16) &&& 0xffff).toNat = w.toNat / 2 ^ 16 % 2 ^ 16 := by
    rw [BitVec.toNat_and, BitVec.toNat_ushiftRight, Nat.shiftRight_eq_div_pow]
    exact Nat.and_two_pow_sub_one_eq_mod _ 16
  rw [BitVec.toNat_setWidth, BitVec.toNat_setWidth, hlow, hhigh]
  omega

section Call

variable {t : IdtState}

theorem idtrOffset_perform (c : SetIdCall) : (c.perform t).idtrOffset = t.idtrOffset := rfl

/-- **`set_id` updates one gate** of the table that the processor sees. -/
theorem gate_perform (hidtr : t.idtrOffset = t.idt) (c : SetIdCall) :
    (c.perform t).gate = Function.update t.gate c.idtPos c.gate := by
  funext v
  by_cases hv : v = c.idtPos
  · subst hv
    have htype : c.type.toNat % 2 ^ 4 = c.type.toNat := Nat.mod_eq_of_lt c.type_lt
    have hdpl : c.dpl.toNat % 2 ^ 2 = c.dpl.toNat := Nat.mod_eq_of_lt c.dpl_lt
    have hpresent : c.present.toNat % 2 = c.present.toNat := Nat.mod_eq_of_lt c.present_lt
    rw [Function.update_self, IdtState.gate, SetIdCall.perform, setId, hidtr, sizeofIdtDesc,
      decodeGate_bytes, offset_halves, SetIdCall.gate]
    simp only [BitVec.toNat_setWidth, UInt8.toNat_toBitVec, Gate.mk.injEq]
    exact ⟨trivial, trivial, htype, rfl, hdpl, hpresent⟩
  · rw [Function.update_of_ne hv]
    refine decodeGate_congr fun i hi => storeBytes_of_out _ ?_
    have hne : v.toNat ≠ c.idtPos.toNat := fun h => hv (UInt8.toNat_inj.mp h)
    have hlen : ∀ d : IdtDesc, d.bytes.length = 8 := fun _ => rfl
    rw [idtrOffset_perform, hidtr, hlen, sizeofIdtDesc]
    omega

end Call

/-! ### Runs -/

/-- **The gates after any calls**: the last call for a vector, or what was there before. -/
theorem gate_run {t : IdtState} (hidtr : t.idtrOffset = t.idt) (calls : List SetIdCall)
    (v : UInt8) : (calls.foldl SetIdCall.perform t).gate v
      = ((lastCall v calls).map SetIdCall.gate).getD (t.gate v) := by
  induction calls generalizing t with
  | nil => rfl
  | cons c calls ih =>
      rw [List.foldl_cons, ih (t := c.perform t) hidtr, gate_perform hidtr, lastCall]
      cases lastCall v calls with
      | some d => rfl
      | none =>
          by_cases hv : c.idtPos = v
          · rw [if_pos hv, ← hv, Function.update_self]
            rfl
          · rw [if_neg hv, Function.update_of_ne (Ne.symm hv)]
            rfl

/-- `kernel_allocate` returns null or a pointer into the heap, so the table does not wrap
around. -/
theorem initIdt_bounds {r : Ram} {s : IdtState} (h : initIdt r = some s) :
    s.idtrOffset = s.idt ∧ s.idt + sizeofIdtDesc * idtLimit ≤ 2 ^ 32 := by
  obtain ⟨⟨p, r'⟩, hcall, rfl⟩ := Option.map_eq_some_iff.mp h
  refine ⟨rfl, ?_⟩
  simp only [kernelAllocate, memoryAllocate, Option.bind_eq_bind] at hcall
  obtain ⟨k, -, hcall⟩ := Option.bind_eq_some_iff.mp hcall
  obtain ⟨o, hsearch, hcall⟩ := Option.bind_eq_some_iff.mp hcall
  have hp : p ≤ 0xf0000000 := by
    cases o with
    | none =>
        have hnull := (Prod.mk.inj (Option.some.inj hcall)).1
        omega
    | some a =>
        obtain ⟨hle, -⟩ := searchLoop_fits hsearch
        obtain ⟨r₁, -, he⟩ := Option.bind_eq_some_iff.mp hcall
        have hpointer := (Prod.mk.inj (Option.some.inj he)).1
        rw [kernelHeap_last] at hle
        rw [wrap32_of_lt (by omega)] at hpointer
        omega
  have htable : sizeofIdtDesc * idtLimit = 2048 := rfl
  rw [htable]
  exact Nat.add_le_add_right hp 2048 |>.trans (by omega)

/-- **The table is what the calls say** if and only if, for every vector that is never set,
the block that `kernel_allocate` returned has the present bit of its gate clear. -/
theorem idt_faithful_iff {r : Ram} {s : IdtState} (h : initIdt r = some s)
    (calls : List SetIdCall) : IdtFaithful calls (calls.foldl SetIdCall.perform s) ↔
      ∀ v, lastCall v calls = none → (s.ram.byte (s.idt + 8 * v.toNat + 5)).toNat < 2 ^ 7 := by
  obtain ⟨hidtr, -⟩ := initIdt_bounds h
  have hpresent : ∀ v, (s.gate v).present = 0 ↔
      (s.ram.byte (s.idt + 8 * v.toNat + 5)).toNat < 2 ^ 7 := fun v => by
    rw [IdtState.gate, hidtr]
    exact Nat.div_eq_zero_iff_lt (by simp)
  constructor
  · intro hfaithful v hv
    have hgate := hfaithful.unset v hv
    rw [gate_run hidtr, hv] at hgate
    exact (hpresent v).mp hgate
  · intro hclear
    refine ⟨fun v c hc => ?_, fun v hv => ?_⟩
    · rw [gate_run hidtr, hc]
      rfl
    · rw [gate_run hidtr, hv]
      exact (hpresent v).mpr (hclear v hv)

/-- A heap that starts with an unused block of the size of the table: the block is taken as it
is. -/
theorem initIdt_first {r : Ram} (hused : r.used kernelHeap.start = false)
    (hsize : r.size kernelHeap.start = 12) : initIdt r =
      some ⟨r.setUsed kernelHeap.start true, kernelHeap.start + 1, 2047, kernelHeap.start + 1⟩ := by
  have hround : roundBlockSize (wrap32 (sizeofIdtDesc * idtLimit + 1)) = some 12 := by decide
  have hsearch : searchLoop r kernelHeap 12 = some (some kernelHeap.start) := by
    have hbody : searchBody r kernelHeap 12 kernelHeap.start
        = Sum.inr (some kernelHeap.start) := by
      rw [searchBody, if_pos (by decide), hused, hsize]
      rfl
    exact Loop.iter_succ_of_inr hbody _
  have hsplit : splitLoop r kernelHeap.start 12 = some r := by
    have hbody : splitBody kernelHeap.start 12 r = Sum.inr r := by
      rw [splitBody, if_neg (by omega)]
    exact Loop.iter_succ_of_inr hbody _
  rw [initIdt, kernelAllocate, memoryAllocate, hround]
  simp only [Option.bind_eq_bind, Option.bind_some, hsearch, hsplit]
  rfl

/-- Memory with an unused block of the size of the table at the start of the heap, and the
same byte everywhere else. -/
def tableRam (b : UInt8) : Ram where
  byte a := if a = kernelHeap.start then 12 else b

/-- A table in a block of zeros. -/
theorem idt_faithful_zero : ∃ s, initIdt (tableRam 0) = some s ∧
    IdtFaithful [⟨14, 0xc0101234, 0x08, 0xe, 0, 1, by decide, by decide, by decide⟩]
      (SetIdCall.perform s ⟨14, 0xc0101234, 0x08, 0xe, 0, 1, by decide, by decide, by decide⟩) := by
  have hinit := @initIdt_first (tableRam 0) rfl rfl
  refine ⟨_, hinit, (idt_faithful_iff hinit [_]).mpr fun v _ => ?_⟩
  have hbyte : (tableRam 0).byte (kernelHeap.start + 1 + 8 * v.toNat + 5) = 0 :=
    if_neg (by omega)
  dsimp only
  rw [Ram.byte_setUsed_of_ne true (by omega), hbyte]
  decide

/-- **A table in a block of ones.** All gates are present before any call. -/
theorem idt_faithful_fails :
    ¬ ∀ (r : Ram) (s : IdtState) (calls : List SetIdCall), initIdt r = some s →
      IdtFaithful calls (calls.foldl SetIdCall.perform s) := by
  intro hall
  have hfaithful := hall (tableRam 0xff) _ [] (initIdt_first rfl rfl)
  exact absurd (hfaithful.unset 0 rfl) (by decide +kernel)

end LoofOS
