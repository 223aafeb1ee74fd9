import Mathlib.Data.Nat.Bitwise
import Mathlib.Logic.Function.Basic
import Mathlib.Tactic.Common

/-!
# A Fragment of the x86

The 32-bit protected-mode instructions that entering and leaving an interrupt handler
takes: stack operations, moves, one comparison with a forward jump, interrupts through a
gate, and `iret`. Memory is flat and bytewise, and addresses wrap around. Of the flags that
arithmetic sets only ZF is kept; segment registers are selectors without their descriptors.

A parameter `usable` says which selectors a data segment register may hold at a privilege
level other than 0; a return to such a level clears the others.

The stack is described by the words on it: `WordsAt m a ws` says that the words `ws` lie in
memory from `a` on.

## Main results

* `read32_write32_self`, `read32_write32_of_disjoint`: words in memory.
* `WordsAt.push`, `Cpu.OnStack.push`: pushing a word.
* `Cpu.Pushed.push`, `Cpu.Pushed.run`: what code leaves alone that pushes words.
-/

namespace X86

/-! ### Memory -/

/-- Memory, by bytes. -/
abbrev Memory := BitVec 32 → UInt8

/-- The little-endian word at an address. -/
def Memory.read32 (m : Memory) (a : BitVec 32) : BitVec 32 :=
  BitVec.ofNat 32 ((m a).toNat + 2 ^ 8 * (m (a + 1)).toNat + 2 ^ 16 * (m (a + 2)).toNat
    + 2 ^ 24 * (m (a + 3)).toNat)

/-- A word is written, least significant byte first. -/
def Memory.write32 (m : Memory) (a w : BitVec 32) : Memory := fun x =>
  if x = a then UInt8.ofNat w.toNat
  else if x = a + 1 then UInt8.ofNat (w.toNat / 2 ^ 8)
  else if x = a + 2 then UInt8.ofNat (w.toNat / 2 ^ 16)
  else if x = a + 3 then UInt8.ofNat (w.toNat / 2 ^ 24)
  else m x

/-- A word read back where it was written. -/
theorem Memory.read32_write32_self (m : Memory) (a w : BitVec 32) :
    (m.write32 a w).read32 a = w := by
  have h1 : a + 1 ≠ a := by bv_omega
  have h2 : a + 2 ≠ a ∧ a + 2 ≠ a + 1 := by constructor <;> bv_omega
  have h3 : a + 3 ≠ a ∧ a + 3 ≠ a + 1 ∧ a + 3 ≠ a + 2 := by
    refine ⟨?_, ?_, ?_⟩ <;> bv_omega
  have hlt := w.isLt
  apply BitVec.eq_of_toNat_eq
  simp only [read32, write32, if_true, h1, h2.1, h2.2, h3.1, h3.2.1, h3.2.2, if_false,
    UInt8.toNat_ofNat', BitVec.toNat_ofNat]
  omega

/-- A word read beside the word that was written. -/
theorem Memory.read32_write32_of_disjoint {m : Memory} {a b w : BitVec 32}
    (h : 4 ≤ (b - a).toNat) (h' : (b - a).toNat ≤ 2 ^ 32 - 4) :
    (m.write32 a w).read32 b = m.read32 b := by
  have hbyte : ∀ i : BitVec 32, i.toNat < 4 → m.write32 a w (b + i) = m (b + i) := by
    intro i hi
    have h0 : b + i ≠ a := by bv_omega
    have h1 : b + i ≠ a + 1 := by bv_omega
    have h2 : b + i ≠ a + 2 := by bv_omega
    have h3 : b + i ≠ a + 3 := by bv_omega
    simp only [write32, h0, h1, h2, h3, if_false]
  have h0 : m.write32 a w b = m b := by simpa using hbyte 0 (by simp)
  simp only [read32, h0, hbyte 1 (by simp), hbyte 2 (by simp), hbyte 3 (by simp)]

/-- A byte beside the word that was written. -/
theorem Memory.write32_of_outside {m : Memory} {a w x : BitVec 32} (h : 4 ≤ (x - a).toNat) :
    m.write32 a w x = m x := by
  have h0 : x ≠ a := by bv_omega
  have h1 : x ≠ a + 1 := by bv_omega
  have h2 : x ≠ a + 2 := by bv_omega
  have h3 : x ≠ a + 3 := by bv_omega
  simp only [write32, h0, h1, h2, h3, if_false]

/-- The words `ws` lie in memory from `a` on. -/
def WordsAt (m : Memory) : BitVec 32 → List (BitVec 32) → Prop
  | _, [] => True
  | a, w :: ws => m.read32 a = w ∧ WordsAt m (a + 4) ws

theorem WordsAt.congr {m m' : Memory} {a : BitVec 32} {ws : List (BitVec 32)} (h : WordsAt m a ws)
    (hread : ∀ i < ws.length, m'.read32 (a + BitVec.ofNat 32 (4 * i))
      = m.read32 (a + BitVec.ofNat 32 (4 * i))) : WordsAt m' a ws := by
  induction ws generalizing a with
  | nil => trivial
  | cons w ws ih =>
      refine ⟨?_, ih h.2 fun i hi => ?_⟩
      · have h0 := hread 0 (Nat.succ_pos _)
        rw [Nat.mul_zero, BitVec.add_zero] at h0
        rw [h0, h.1]
      · have hi' := hread (i + 1) (Nat.succ_lt_succ hi)
        have hadd : a + BitVec.ofNat 32 (4 * (i + 1)) = a + 4 + BitVec.ofNat 32 (4 * i) := by
          rw [Nat.mul_succ, Nat.add_comm, BitVec.ofNat_add, BitVec.add_assoc]
          rfl
        rwa [hadd] at hi'

theorem wordsAt_append {m : Memory} {a : BitVec 32} {ws vs : List (BitVec 32)} :
    WordsAt m a (ws ++ vs) ↔
      WordsAt m a ws ∧ WordsAt m (a + BitVec.ofNat 32 (4 * ws.length)) vs := by
  induction ws generalizing a with
  | nil => simp [WordsAt]
  | cons w ws ih =>
      have hadd : a + 4 + BitVec.ofNat 32 (4 * ws.length)
          = a + BitVec.ofNat 32 (4 * (w :: ws).length) := by
        rw [List.length_cons, Nat.mul_succ, Nat.add_comm, BitVec.ofNat_add, BitVec.add_assoc]
        rfl
      rw [List.cons_append, WordsAt, ih, hadd, WordsAt, and_assoc]

/-- **Pushing a word** onto a stack that does not fill the address space. -/
theorem WordsAt.push {m : Memory} {a w : BitVec 32} {ws : List (BitVec 32)} (h : WordsAt m a ws)
    (hlen : 4 * (ws.length + 1) ≤ 2 ^ 32) : WordsAt (m.write32 (a - 4) w) (a - 4) (w :: ws) := by
  refine ⟨Memory.read32_write32_self m (a - 4) w, ?_⟩
  rw [BitVec.sub_add_cancel]
  refine h.congr fun i hi => ?_
  have hdist : (a + BitVec.ofNat 32 (4 * i) - (a - 4)).toNat = 4 * i + 4 := by
    have hoff : a + BitVec.ofNat 32 (4 * i) - (a - 4) = BitVec.ofNat 32 (4 * i + 4) := by
      rw [BitVec.ofNat_add]
      bv_omega
    rw [hoff, BitVec.toNat_ofNat]
    omega
  exact Memory.read32_write32_of_disjoint (by omega) (by omega)

/-! ### The processor -/

/-- The general registers. -/
inductive Reg
  | eax | ebx | ecx | edx | esi | edi | ebp | esp
  deriving DecidableEq

/-- The data segment registers. -/
inductive Seg
  | ds | es | fs | gs
  deriving DecidableEq

/-- Registers, memory, the stack that the TSS holds for ring 0, and the bytes written to
ports (most recent first). -/
structure Cpu where
  reg : Reg → BitVec 32
  seg : Seg → BitVec 16
  eip : BitVec 32
  eflags : BitVec 32
  cs : BitVec 16
  ss : BitVec 16
  cr3 : BitVec 32
  mem : Memory
  esp0 : BitVec 32
  ss0 : BitVec 16
  ports : List (BitVec 8 × BitVec 8)

namespace Cpu

/-- The privilege level at which the processor runs. -/
def privilege (c : Cpu) : BitVec 16 := c.cs &&& 3

def setReg (c : Cpu) (r : Reg) (w : BitVec 32) : Cpu := { c with reg := Function.update c.reg r w }

def setSeg (c : Cpu) (s : Seg) (w : BitVec 16) : Cpu := { c with seg := Function.update c.seg s w }

/-- A word is pushed. -/
def push (c : Cpu) (w : BitVec 32) : Cpu :=
  let esp := c.reg .esp - 4
  { c.setReg .esp esp with mem := c.mem.write32 esp w }

/-- The word on top of the stack. -/
def top (c : Cpu) : BitVec 32 := c.mem.read32 (c.reg .esp)

/-- The top word is removed. -/
def drop (c : Cpu) : Cpu := c.setReg .esp (c.reg .esp + 4)

/-- A byte is written to a port. -/
def out (c : Cpu) (port b : BitVec 8) : Cpu := { c with ports := (port, b) :: c.ports }

/-- The page directory is loaded. -/
def setCr3 (c : Cpu) (w : BitVec 32) : Cpu := { c with cr3 := w }

/-- One flag is set or cleared. -/
def setFlag (c : Cpu) (bit : ℕ) (b : Bool) : Cpu :=
  { c with eflags := if b then c.eflags ||| 1#32 <<< bit else c.eflags &&& ~~~(1#32 <<< bit) }

/-- The zero flag, bit 6. -/
def zeroFlag (c : Cpu) : Bool := c.eflags.getLsbD 6

/-- The stack that the TSS holds for ring 0 is taken. -/
def takeStack (c : Cpu) : Cpu := { c.setReg .esp c.esp0 with ss := c.ss0 }

/-- The processor goes on at the entry of an interrupt gate; the flags TF, IF, NT, RF and VM
are cleared. -/
def enterGate (c : Cpu) (cs : BitVec 16) (eip : BitVec 32) : Cpu :=
  { c with cs := cs, eip := eip, eflags := c.eflags &&& ~~~0x34300 }

/-- The frame of an interrupted program: flags and return address. -/
def pushFrame (c : Cpu) (eflags : BitVec 32) (cs : BitVec 16) (eip : BitVec 32) : Cpu :=
  ((c.push eflags).push (cs.setWidth 32)).push eip

/-- **An interrupt** through an interrupt gate to ring 0. From another ring the stack of
the TSS is taken, and the old one is saved on it. -/
def interrupt (c : Cpu) (handlerCs : BitVec 16) (handlerEip : BitVec 32) : Cpu :=
  let entered :=
    if c.privilege = 0 then c
    else (c.takeStack.push (c.ss.setWidth 32)).push (c.reg .esp)
  (entered.pushFrame c.eflags c.cs c.eip).enterGate handlerCs handlerEip

/-- **An exception** through an interrupt gate to ring 0. Some exceptions push an error code
on top of the frame. -/
def exception (c : Cpu) (handlerCs : BitVec 16) (handlerEip : BitVec 32)
    (ecode : Option (BitVec 32)) : Cpu :=
  match ecode with
  | none => c.interrupt handlerCs handlerEip
  | some e => (c.interrupt handlerCs handlerEip).push e

/-- What a return to the privilege level `level` leaves in a data segment register. -/
def returnSeg (usable : BitVec 16 → BitVec 16 → Bool) (level selector : BitVec 16) :
    BitVec 16 :=
  if usable level selector then selector else 0

/-- **`iret`.** A return to an outer ring also takes the stack from the frame, and clears
the data segment registers that may not be used there. -/
def iret (usable : BitVec 16 → BitVec 16 → Bool) (c : Cpu) : Cpu :=
  let esp := c.reg .esp
  let cs : BitVec 16 := (c.mem.read32 (esp + 4)).setWidth 16
  let c' := { c with eip := c.mem.read32 esp, cs := cs, eflags := c.mem.read32 (esp + 8) }
  if cs &&& 3 = c.privilege then
    c'.setReg .esp (esp + 12)
  else
    { c'.setReg .esp (c.mem.read32 (esp + 12)) with
      ss := (c.mem.read32 (esp + 16)).setWidth 16
      seg := fun s => returnSeg usable (cs &&& 3) (c.seg s) }

end Cpu

/-! ### Instructions -/

/-- The instructions of the fragment. Jumps go forward over a number of instructions, and
a call only pushes its return address. -/
inductive Instr
  | cli
  | sti
  | push (r : Reg)
  | pop (r : Reg)
  | pushSeg (s : Seg)
  | popSeg (s : Seg)
  | movAx (w : BitVec 16)
  | movSegAx (s : Seg)
  | movAl (w : BitVec 8)
  | outAl (port : BitVec 8)
  | mov (r r' : Reg)
  | add (r : Reg) (w : BitVec 32)
  | load (r base : Reg) (offset : BitVec 32)
  | movCr3 (r : Reg)
  | cmpTopZero
  | jne (skip : ℕ)
  | jmp (skip : ℕ)
  | call (returnAddress : BitVec 32)
  | iret

/-- One instruction other than a jump. -/
def Cpu.exec (usable : BitVec 16 → BitVec 16 → Bool) (c : Cpu) : Instr → Cpu
  | .cli => c.setFlag 9 false
  | .sti => c.setFlag 9 true
  | .push r => c.push (c.reg r)
  | .pop r => c.drop.setReg r c.top
  | .pushSeg s => c.push ((c.seg s).setWidth 32)
  | .popSeg s => c.drop.setSeg s (c.top.setWidth 16)
  | .movAx w => c.setReg .eax ((c.reg .eax).extractLsb' 16 16 ++ w)
  | .movSegAx s => c.setSeg s ((c.reg .eax).setWidth 16)
  | .movAl w => c.setReg .eax ((c.reg .eax).extractLsb' 8 24 ++ w)
  | .outAl port => c.out port ((c.reg .eax).setWidth 8)
  | .mov r r' => c.setReg r (c.reg r')
  | .add r w => c.setReg r (c.reg r + w)
  | .load r base offset => c.setReg r (c.mem.read32 (c.reg base + offset))
  | .movCr3 r => c.setCr3 (c.reg r)
  | .cmpTopZero => c.setFlag 6 (c.top == 0)
  | .jne _ => c
  | .jmp _ => c
  | .call returnAddress => c.push returnAddress
  | .iret => c.iret usable

/-- A sequence of instructions; the fuel bounds the number of instructions executed. -/
def Cpu.run (usable : BitVec 16 → BitVec 16 → Bool) : ℕ → List Instr → Cpu → Cpu
  | _, [], c => c
  | 0, _ :: _, c => c
  | n + 1, .jne skip :: code, c =>
      if c.zeroFlag then run usable n code c else run usable n (code.drop skip) c
  | n + 1, .jmp skip :: code, c => run usable n (code.drop skip) c
  | n + 1, i :: code, c => run usable n code (c.exec usable i)

/-! ### What the operations change -/

namespace Cpu

section Fields

variable (c : Cpu) (r r' : Reg) (s s' : Seg) (w : BitVec 32) (v : BitVec 16) (n : ℕ) (b : Bool)
  (p : BitVec 8)

@[simp] theorem reg_setReg : (c.setReg r w).reg r' = if r' = r then w else c.reg r' := by
  simp only [setReg, Function.update_apply]

@[simp] theorem seg_setReg : (c.setReg r w).seg = c.seg := rfl

@[simp] theorem mem_setReg : (c.setReg r w).mem = c.mem := rfl

@[simp] theorem reg_setSeg : (c.setSeg s v).reg = c.reg := rfl

@[simp] theorem seg_setSeg : (c.setSeg s v).seg s' = if s' = s then v else c.seg s' := by
  simp only [setSeg, Function.update_apply]

@[simp] theorem mem_setSeg : (c.setSeg s v).mem = c.mem := rfl

@[simp] theorem reg_push : (c.push w).reg r' = if r' = .esp then c.reg .esp - 4 else c.reg r' := by
  simp only [push, reg_setReg]

@[simp] theorem seg_push : (c.push w).seg = c.seg := rfl

@[simp] theorem mem_push : (c.push w).mem = c.mem.write32 (c.reg .esp - 4) w := rfl

@[simp] theorem reg_takeStack :
    (c.takeStack).reg r = if r = .esp then c.esp0 else c.reg r := by
  simp only [takeStack, reg_setReg]

@[simp] theorem seg_takeStack : c.takeStack.seg = c.seg := rfl

@[simp] theorem mem_takeStack : c.takeStack.mem = c.mem := rfl

@[simp] theorem reg_enterGate : (c.enterGate v w).reg = c.reg := rfl

@[simp] theorem seg_enterGate : (c.enterGate v w).seg = c.seg := rfl

@[simp] theorem mem_enterGate : (c.enterGate v w).mem = c.mem := rfl

@[simp] theorem reg_setFlag : (c.setFlag n b).reg = c.reg := rfl

@[simp] theorem seg_setFlag : (c.setFlag n b).seg = c.seg := rfl

@[simp] theorem mem_setFlag : (c.setFlag n b).mem = c.mem := rfl

@[simp] theorem cs_setFlag : (c.setFlag n b).cs = c.cs := rfl

@[simp] theorem cs_setReg : (c.setReg r w).cs = c.cs := rfl

@[simp] theorem cs_setSeg : (c.setSeg s v).cs = c.cs := rfl

@[simp] theorem cr3_setFlag : (c.setFlag n b).cr3 = c.cr3 := rfl

@[simp] theorem cr3_setReg : (c.setReg r w).cr3 = c.cr3 := rfl

@[simp] theorem cr3_setSeg : (c.setSeg s v).cr3 = c.cr3 := rfl

@[simp] theorem reg_out (b : BitVec 8) : (c.out p b).reg = c.reg := rfl

@[simp] theorem seg_out (b : BitVec 8) : (c.out p b).seg = c.seg := rfl

@[simp] theorem mem_out (b : BitVec 8) : (c.out p b).mem = c.mem := rfl

@[simp] theorem cs_out (b : BitVec 8) : (c.out p b).cs = c.cs := rfl

@[simp] theorem reg_setCr3 : (c.setCr3 w).reg = c.reg := rfl

@[simp] theorem seg_setCr3 : (c.setCr3 w).seg = c.seg := rfl

@[simp] theorem mem_setCr3 : (c.setCr3 w).mem = c.mem := rfl

@[simp] theorem cs_setCr3 : (c.setCr3 w).cs = c.cs := rfl

@[simp] theorem cr3_setCr3 : (c.setCr3 w).cr3 = w := rfl

@[simp] theorem zeroFlag_setFlag : (c.setFlag 6 b).zeroFlag = b := by
  cases b <;> simp [setFlag, zeroFlag]

end Fields

/-- The words on top of the stack. -/
def OnStack (c : Cpu) (ws : List (BitVec 32)) : Prop := WordsAt c.mem (c.reg .esp) ws

theorem OnStack.push {c : Cpu} {ws : List (BitVec 32)} (h : c.OnStack ws) (w : BitVec 32)
    (hlen : 4 * (ws.length + 1) ≤ 2 ^ 32) : (c.push w).OnStack (w :: ws) := by
  rw [OnStack, mem_push, reg_push, if_pos rfl]
  exact WordsAt.push h hlen

theorem OnStack.enterGate {c : Cpu} {ws : List (BitVec 32)} (h : c.OnStack ws) (cs : BitVec 16)
    (eip : BitVec 32) : (c.enterGate cs eip).OnStack ws := by
  rw [OnStack, mem_enterGate, reg_enterGate]
  exact h

theorem OnStack.pushFrame {c : Cpu} {ws : List (BitVec 32)} (h : c.OnStack ws)
    (hlen : ws.length ≤ 2) (eflags : BitVec 32) (cs : BitVec 16) (eip : BitVec 32) :
    (c.pushFrame eflags cs eip).OnStack (eip :: cs.setWidth 32 :: eflags :: ws) := by
  refine ((h.push eflags ?_).push (cs.setWidth 32) ?_).push eip ?_
  all_goals
    try simp only [List.length_cons]
    omega

/-- `n` words have been pushed below `t`, since when no byte above them was written. -/
structure Pushed (t : BitVec 32) (m : Memory) (n : ℕ) (c : Cpu) : Prop where
  esp : c.reg .esp = t - BitVec.ofNat 32 (4 * n)
  mem : ∀ x, 4 * n ≤ (t - 1 - x).toNat → c.mem x = m x

namespace Pushed

variable {t : BitVec 32} {m : Memory} {n : ℕ} {c c' : Cpu}

theorem congr (h : Pushed t m n c) (hesp : c'.reg .esp = c.reg .esp) (hmem : c'.mem = c.mem) :
    Pushed t m n c' :=
  ⟨hesp.trans h.esp, fun x hx => (congrFun hmem x).trans (h.mem x hx)⟩

/-- One more word. -/
theorem push (h : Pushed t m n c) (w : BitVec 32) (hlen : 4 * (n + 1) < 2 ^ 32) :
    Pushed t m (n + 1) (c.push w) := by
  have hn : (BitVec.ofNat 32 (4 * n)).toNat = 4 * n := by
    rw [BitVec.toNat_ofNat]
    omega
  have hn' : (BitVec.ofNat 32 (4 * (n + 1))).toNat = 4 * (n + 1) := by
    rw [BitVec.toNat_ofNat]
    omega
  refine ⟨?_, fun x hx => ?_⟩
  · rw [reg_push, if_pos rfl, h.esp]
    bv_omega
  · rw [mem_push, h.esp, Memory.write32_of_outside, h.mem x (by omega)]
    bv_omega

end Pushed

/-- The number of words that an instruction pushes; `none` if it uses memory or the stack pointer in
another way, or jumps. -/
def pushCount : Instr → Option ℕ
  | .cli | .sti | .movAx _ | .movSegAx _ | .movAl _ | .outAl _ | .movCr3 _ => some 0
  | .push _ | .pushSeg _ | .call _ => some 1
  | _ => none

theorem Pushed.exec {usable : BitVec 16 → BitVec 16 → Bool} {t : BitVec 32} {m : Memory} {n j : ℕ}
    {c : Cpu} {i : Instr} (h : Pushed t m n c) (hi : pushCount i = some j)
    (hlen : 4 * (n + j) < 2 ^ 32) : Pushed t m (n + j) (c.exec usable i) := by
  cases i <;> cases hi
  case push r => exact h.push _ hlen
  case pushSeg s => exact h.push _ hlen
  case call w => exact h.push _ hlen
  all_goals exact h.congr (by simp [Cpu.exec]) rfl

/-- **Code that pushes.** -/
theorem Pushed.run {usable : BitVec 16 → BitVec 16 → Bool} {t : BitVec 32} {m : Memory} {n : ℕ}
    {c : Cpu} {code : List Instr} (h : Pushed t m n c)
    (hcode : ∀ i ∈ code, (pushCount i).isSome = true)
    (hlen : 4 * (n + (code.filterMap pushCount).sum) < 2 ^ 32) :
    Pushed t m (n + (code.filterMap pushCount).sum) (c.run usable code.length code) := by
  induction code generalizing n c with
  | nil => exact h
  | cons i code ih =>
      obtain ⟨j, hj⟩ := Option.isSome_iff_exists.mp (hcode i List.mem_cons_self)
      have hsum : ((i :: code).filterMap pushCount).sum = j + (code.filterMap pushCount).sum := by
        rw [List.filterMap_cons_some hj, List.sum_cons]
      rw [hsum, ← Nat.add_assoc] at hlen ⊢
      have hone : Pushed t m (n + j) (c.exec usable i) := h.exec hj (by omega)
      have hrest := ih hone (fun i hi => hcode i (List.mem_cons_of_mem _ hi)) hlen
      cases i <;> first | exact hrest | cases hj

/-- A return within the same ring. -/
theorem iret_same_ring {usable : BitVec 16 → BitVec 16 → Bool} {c : Cpu}
    {eip cs eflags : BitVec 32} {ws : List (BitVec 32)} (h : c.OnStack (eip :: cs :: eflags :: ws))
    (hring : cs.setWidth 16 &&& 3 = c.privilege) :
    c.iret usable = { c with eip := eip, cs := cs.setWidth 16, eflags := eflags }.setReg .esp
      (c.reg .esp + 12) := by
  simp only [OnStack, WordsAt, BitVec.add_assoc] at h
  obtain ⟨heip, hcs, hflags, -⟩ := h
  have hflags' : c.mem.read32 (c.reg .esp + 8) = eflags := hflags
  rw [iret, heip, hcs, hflags', if_pos hring]

/-- A return to another ring. -/
theorem iret_outer_ring {usable : BitVec 16 → BitVec 16 → Bool} {c : Cpu}
    {eip cs eflags esp ss : BitVec 32} {ws : List (BitVec 32)}
    (h : c.OnStack (eip :: cs :: eflags :: esp :: ss :: ws))
    (hring : cs.setWidth 16 &&& 3 ≠ c.privilege) :
    c.iret usable =
      { { c with eip := eip, cs := cs.setWidth 16, eflags := eflags }.setReg .esp esp with
        ss := ss.setWidth 16
        seg := fun s => returnSeg usable (cs.setWidth 16 &&& 3) (c.seg s) } := by
  simp only [OnStack, WordsAt, BitVec.add_assoc] at h
  obtain ⟨heip, hcs, hflags, hesp, hss, -⟩ := h
  have hflags' : c.mem.read32 (c.reg .esp + 8) = eflags := hflags
  have hesp' : c.mem.read32 (c.reg .esp + 12) = esp := hesp
  have hss' : c.mem.read32 (c.reg .esp + 16) = ss := hss
  rw [iret, heip, hcs, hflags', hesp', hss', if_neg hring]

end Cpu

end X86
