import LoofOS.X86

/-!
# Segmentation

What the x86 checks when a selector is loaded. A descriptor table is a function from indices to
descriptors; a selector picks one of them, and the check depends on the privilege level, on the
level that the selector asks for, and on what it is loaded into. There is no local descriptor table.
That the processor sets bits of a descriptor itself (accessed, busy) is not modelled; no check
depends on them.

`Cpu.passes` is the check that an instruction makes before it is executed, and `Cpu.StaysInRing` is
what a program can do to its selectors and flags without leaving its ring.

## Main results

* `SegmentTable.loadsData_mono`: what an outer ring can load, every inner ring can load.
* `Cpu.passesRun`: the checks of the code that `Cpu.run` executes.
-/

namespace X86

/-! ### Descriptors -/

/-- A segment descriptor. -/
structure Segment where
  base : ℕ
  limit : ℕ
  type : ℕ
  s : ℕ
  dpl : ℕ
  present : ℕ
  l : ℕ
  db : ℕ
  granularity : ℕ
  deriving DecidableEq

/-- The descriptor in the eight bytes from `a` on. -/
def decodeSegment (m : ℕ → UInt8) (a : ℕ) : Segment where
  base := (m (a + 2)).toNat + 2 ^ 8 * (m (a + 3)).toNat + 2 ^ 16 * (m (a + 4)).toNat
    + 2 ^ 24 * (m (a + 7)).toNat
  limit := (m a).toNat + 2 ^ 8 * (m (a + 1)).toNat + 2 ^ 16 * ((m (a + 6)).toNat % 2 ^ 4)
  type := (m (a + 5)).toNat % 2 ^ 4
  s := (m (a + 5)).toNat / 2 ^ 4 % 2
  dpl := (m (a + 5)).toNat / 2 ^ 5 % 2 ^ 2
  present := (m (a + 5)).toNat / 2 ^ 7
  l := (m (a + 6)).toNat / 2 ^ 5 % 2
  db := (m (a + 6)).toNat / 2 ^ 6 % 2
  granularity := (m (a + 6)).toNat / 2 ^ 7

/-- A descriptor is decoded from its own eight bytes. -/
theorem decodeSegment_congr {m m' : ℕ → UInt8} {a : ℕ} (h : ∀ i < 8, m (a + i) = m' (a + i)) :
    decodeSegment m a = decodeSegment m' a := by
  have h0 : m a = m' a := h 0 (by omega)
  simp (disch := omega) only [decodeSegment, h0, h]

namespace Segment

variable (d : Segment)

/-- A code segment: bit 3 of the type is set. -/
def isCode : Bool := d.s == 1 && d.type / 8 == 1

/-- A data segment: bit 3 of the type is clear. -/
def isData : Bool := d.s == 1 && d.type / 8 == 0

/-- Bit 2 of a code segment's type: it runs at the level of its caller. -/
def conforming : Bool := d.isCode && d.type / 4 % 2 == 1

/-- A data segment is always readable, a code segment when bit 1 is set. -/
def readable : Bool := d.isData || (d.isCode && d.type / 2 % 2 == 1)

/-- Bit 1 of a data segment's type. -/
def writable : Bool := d.isData && d.type / 2 % 2 == 1

end Segment

/-! ### Selectors -/

/-- The descriptors of a table, by their index. -/
abbrev SegmentTable := ℕ → Option Segment

/-- The table in memory that GDTR names. -/
def segmentsAt (m : ℕ → UInt8) (base limit : ℕ) : SegmentTable := fun i =>
  if 8 * i + 7 ≤ limit then some (decodeSegment m (base + 8 * i)) else none

/-- The privilege level that a selector asks for. -/
def rpl (sel : BitVec 16) : ℕ := sel.toNat % 4

namespace SegmentTable

variable (t : SegmentTable) (level : ℕ) (sel : BitVec 16)

/-- The descriptor of a selector; there is none for the null selectors and those of a local
table. -/
def find : Option Segment :=
  if sel.toNat < 4 ∨ sel.toNat / 4 % 2 = 1 then none else t (sel.toNat / 8)

/-- A data segment register can be loaded at a privilege level. -/
def loadsData : Bool :=
  decide (sel.toNat < 4) || (t.find sel).any fun d =>
    d.readable && (d.conforming || decide (max level (rpl sel) ≤ d.dpl)) && d.present == 1

/-- SS can be loaded. -/
def loadsStack : Bool :=
  (t.find sel).any fun d => rpl sel == level && d.writable && d.dpl == level && d.present == 1

/-- CS can hold the selector at that privilege level. -/
def holdsCode : Bool :=
  (t.find sel).any fun d => rpl sel == level && d.isCode && d.present == 1 &&
    (if d.conforming then decide (d.dpl ≤ level) else d.dpl == level)

/-- A return can be made to a code segment, to the privilege level that its selector asks for. -/
def returnsTo : Bool := decide (level ≤ rpl sel) && t.holdsCode (rpl sel) sel

/-- A far jump or call through a descriptor that is neither code nor data: a gate or a task. -/
def leads : Bool :=
  (t.find sel).any fun d => d.s == 0 && decide (max level (rpl sel) ≤ d.dpl) && d.present == 1

/-- A data segment register keeps its selector at a return to that privilege level. -/
def usable (level sel : BitVec 16) : Bool :=
  (t.find sel).any fun d => d.conforming || decide (level.toNat ≤ d.dpl)

variable {t level sel}

/-- **What an outer ring can load**, every inner ring can load. -/
theorem loadsData_mono {inner : ℕ} (h : t.loadsData level sel = true) (hle : inner ≤ level) :
    t.loadsData inner sel = true := by
  simp only [loadsData, Bool.or_eq_true, decide_eq_true_eq, Option.any_eq_true,
    Bool.and_eq_true, beq_iff_eq] at h ⊢
  refine h.imp_right fun h => ?_
  obtain ⟨d, hd, ⟨hread, hlevel⟩, hpresent⟩ := h
  refine ⟨d, hd, ⟨hread, hlevel.imp_right fun hmax => ?_⟩, hpresent⟩
  exact Nat.max_le.mpr ⟨hle.trans (Nat.max_le.mp hmax).1, (Nat.max_le.mp hmax).2⟩

end SegmentTable

/-! ### Ports -/

/-- Whether a program may access `width` ports from `port` on: at a level within IOPL, or by the
bitmap in the TSS, of which the processor reads two bytes. -/
def portsAllowed (m : ℕ → UInt8) (tss limit level iopl port width : ℕ) : Bool :=
  decide (level ≤ iopl) ||
    let bitmap := (m (tss + 102)).toNat + 2 ^ 8 * (m (tss + 103)).toNat
    decide (bitmap + port / 8 + 1 ≤ limit) && (List.range width).all fun i =>
      !(m (tss + bitmap + (port + i) / 8)).toNat.testBit ((port + i) % 8)

/-! ### Protection -/

namespace Cpu

/-- The privilege level as a number. -/
def cpl (c : Cpu) : ℕ := c.cs.toNat % 4

/-- IOPL, bits 12 and 13 of the flags. -/
def iopl (c : Cpu) : ℕ := c.eflags.toNat / 2 ^ 12 % 4

/-- The interrupt flag, bit 9. -/
def interruptFlag (c : Cpu) : Bool := c.eflags.getLsbD 9

/-- Virtual 8086 mode, bit 17. -/
def virtual8086 (c : Cpu) : Bool := c.eflags.getLsbD 17

/-- The privilege level as a number is that of the `cs` register. -/
theorem cpl_eq (c : Cpu) : c.cpl = c.privilege.toNat := by
  rw [cpl, privilege, BitVec.toNat_and]
  exact (Nat.and_two_pow_sub_one_eq_mod c.cs.toNat 2).symm

section Fields

variable (c : Cpu) (r : Reg) (s : Seg) (w : BitVec 32) (v : BitVec 16) (n : ℕ) (b : Bool)
  (p q : BitVec 8)

@[simp] theorem cpl_setReg : (c.setReg r w).cpl = c.cpl := rfl

@[simp] theorem cpl_setSeg : (c.setSeg s v).cpl = c.cpl := rfl

@[simp] theorem cpl_push : (c.push w).cpl = c.cpl := rfl

@[simp] theorem cpl_out : (c.out p q).cpl = c.cpl := rfl

@[simp] theorem cpl_setCr3 : (c.setCr3 w).cpl = c.cpl := rfl

@[simp] theorem cpl_setFlag : (c.setFlag n b).cpl = c.cpl := rfl

end Fields

/-- What a program can do to its selectors and flags while it stays in its ring: it loads selectors
that it may load, and changes neither IOPL nor, without the right to, the interrupt flag. -/
structure StaysInRing (t : SegmentTable) (c c' : Cpu) : Prop where
  cs : c'.cs = c.cs ∨ t.holdsCode c.cpl c'.cs = true
  ss : c'.ss = c.ss ∨ t.loadsStack c.cpl c'.ss = true
  seg : ∀ s, c'.seg s = c.seg s ∨ t.loadsData c.cpl (c'.seg s) = true
  interruptFlag : c.iopl < c.cpl → c'.interruptFlag = c.interruptFlag
  iopl : 0 < c.cpl → c'.iopl = c.iopl
  virtual8086 : c'.virtual8086 = c.virtual8086

/-- An interrupt goes through a gate with this code segment to ring 0; from another ring, the stack
segment in the TSS is loaded. -/
def enters (t : SegmentTable) (c : Cpu) (handlerCs ss0 : BitVec 16) : Bool :=
  ((t.find handlerCs).any fun d => d.isCode && d.present == 1 && d.dpl == 0) &&
    (c.cpl == 0 || t.loadsStack 0 ss0)

/-- The stack segment that a return to another ring takes from the frame. -/
def frameSs (c : Cpu) : BitVec 16 := (c.mem.read32 (c.reg .esp + 16)).setWidth 16

/-- The code segment that a return takes from the frame. -/
def frameCs (c : Cpu) : BitVec 16 := (c.mem.read32 (c.reg .esp + 4)).setWidth 16

/-- The instruction goes through: its selectors can be loaded, and its ring may execute it. -/
def passes (t : SegmentTable) (c : Cpu) : Instr → Bool
  | .cli | .sti | .outAl _ => decide (c.cpl ≤ c.iopl)
  | .movCr3 _ => c.cpl == 0
  | .popSeg _ => t.loadsData c.cpl (c.top.setWidth 16)
  | .movSegAx _ => t.loadsData c.cpl ((c.reg .eax).setWidth 16)
  | .iret => t.returnsTo c.cpl c.frameCs &&
      (rpl c.frameCs == c.cpl || t.loadsStack (rpl c.frameCs) c.frameSs)
  | _ => true

/-- All the instructions that `run` executes go through, and the fuel is enough for them. -/
def passesRun (usable : BitVec 16 → BitVec 16 → Bool) (t : SegmentTable) :
    ℕ → List Instr → Cpu → Bool
  | _, [], _ => true
  | 0, _ :: _, _ => false
  | n + 1, .jne skip :: code, c =>
      if c.zeroFlag then passesRun usable t n code c else passesRun usable t n (code.drop skip) c
  | n + 1, .jmp skip :: code, c => passesRun usable t n (code.drop skip) c
  | n + 1, i :: code, c => c.passes t i && passesRun usable t n code (c.exec usable i)

end Cpu

end X86
