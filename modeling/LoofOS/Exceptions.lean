import LoofOS.TimerSwitch

/-!
# Exception Handlers

The wrappers of `core/isr.s`, and what the exception handlers in C receive from them. A
wrapper pushes seven general and four segment registers on top of what the processor has
pushed, and the handler is declared with `seg_register_set` and `gen_register_set` by value,
an error code where there is one, and the frame. `gen_register_set` has an eighth word, for
the stack pointer, which the timer wrapper pushes and these wrappers do not.

So the registers are what they were, and every parameter behind them is read one word too
far: the first word that the processor pushed stands for the stack pointer.

For the vectors with an error code the wrappers remove it before `iret`, the one for double
faults excepted.

## Main results

* `onStack_isr`: the words on the stack when a handler is called.
* `readArguments_of_onStack`: what the handler takes for its arguments.
* `returns_iff`: the wrappers that return to the frame.
* `seesTrueState_iff`: when a handler sees the true state.
-/

namespace LoofOS

open X86

/-! ### The wrappers -/

/-- `START_ISR`. -/
def startIsr : List Instr :=
  [.push .eax, .push .ecx, .push .edx, .push .ebx, .push .ebp, .push .esi, .push .edi,
    .pushSeg .gs, .pushSeg .fs, .pushSeg .es, .pushSeg .ds,
    .movAx 0x10, .movSegAx .ds, .movSegAx .es, .movSegAx .fs, .movSegAx .gs]

/-- `END_ISR`, up to its `iret`. -/
def endIsr : List Instr :=
  [.popSeg .ds, .popSeg .es, .popSeg .fs, .popSeg .gs,
    .pop .edi, .pop .esi, .pop .ebp, .pop .ebx, .pop .edx, .pop .ecx, .pop .eax]

/-- `END_ISR_ECODE`, up to its `iret`. -/
def endIsrEcode : List Instr := endIsr ++ [.add .esp 4]

/-- A wrapper: the vector that it is installed for, what it does after the call of the
handler, and whether the handler is declared with an error code. -/
structure Isr where
  vector : ℕ
  ending : List Instr
  declaresEcode : Bool

/-- `divbyzero_handler_wrapper`. -/
def divbyzeroHandlerWrapper : Isr := ⟨0, endIsr, false⟩

/-- `debug_handler_wrapper`. -/
def debugHandlerWrapper : Isr := ⟨1, endIsr, false⟩

/-- `nonmask_handler_wrapper`. -/
def nonmaskHandlerWrapper : Isr := ⟨2, endIsr, false⟩

/-- `breakpoint_handler_wrapper`. -/
def breakpointHandlerWrapper : Isr := ⟨3, endIsr, false⟩

/-- `overflow_handler_wrapper`. -/
def overflowHandlerWrapper : Isr := ⟨4, endIsr, false⟩

/-- `boundrange_handler_wrapper`. -/
def boundrangeHandlerWrapper : Isr := ⟨5, endIsr, false⟩

/-- `invalop_handler_wrapper`. -/
def invalopHandlerWrapper : Isr := ⟨6, endIsr, false⟩

/-- `nodevice_handler_wrapper`. -/
def nodeviceHandlerWrapper : Isr := ⟨7, endIsr, false⟩

/-- `doublefault_handler_wrapper`. -/
def doublefaultHandlerWrapper : Isr := ⟨8, endIsr, true⟩

/-- `invaltss_handler_wrapper`. -/
def invaltssHandlerWrapper : Isr := ⟨10, endIsrEcode, true⟩

/-- `nosegment_handler_wrapper`. -/
def nosegmentHandlerWrapper : Isr := ⟨11, endIsrEcode, true⟩

/-- `stackseg_handler_wrapper`. -/
def stacksegHandlerWrapper : Isr := ⟨12, endIsrEcode, true⟩

/-- `genprotection_handler_wrapper`. -/
def genprotectionHandlerWrapper : Isr := ⟨13, endIsrEcode, true⟩

/-- `pagefault_handler_wrapper`. -/
def pagefaultHandlerWrapper : Isr := ⟨14, endIsrEcode, true⟩

/-- The exception wrappers. -/
def exceptionWrappers : List Isr :=
  [divbyzeroHandlerWrapper, debugHandlerWrapper, nonmaskHandlerWrapper, breakpointHandlerWrapper,
    overflowHandlerWrapper, boundrangeHandlerWrapper, invalopHandlerWrapper,
    nodeviceHandlerWrapper, doublefaultHandlerWrapper, invaltssHandlerWrapper,
    nosegmentHandlerWrapper, stacksegHandlerWrapper, genprotectionHandlerWrapper,
    pagefaultHandlerWrapper]

/-- The vectors for which the processor pushes an error code. -/
def pushesErrorCode (vector : ℕ) : Bool :=
  vector == 8 || (10 ≤ vector && vector ≤ 14) || vector == 17

/-! ### What a handler receives -/

/-- The parameters of a handler. -/
structure HandlerArguments where
  segRegs : SegRegisterSet
  genRegs : GenRegisterSet
  ecode : Option Word
  frame : InterruptFrame

/-- The arguments of a handler in memory, the first one at `a`. -/
def readArguments (m : Memory) (a : Word) (declaresEcode : Bool) : HandlerArguments where
  segRegs := readSegRegs m a
  genRegs := readGenRegs m (a + 16)
  ecode := if declaresEcode then some (m.read32 (a + 48)) else none
  frame := readFrame m (if declaresEcode then a + 52 else a + 48)

/-- The arguments that a handler takes when it is called in the state `e`. -/
def Isr.arguments (isr : Isr) (e : Cpu) : HandlerArguments :=
  readArguments e.mem (e.reg .esp + 4) isr.declaresEcode

/-- The processor when the handler is called, after an exception in the state `c`. -/
def isrEntry (usable : BitVec 16 → BitVec 16 → Bool) (c : Cpu) (handlerCs : BitVec 16)
    (handlerEip : Word) (ecode : Option Word) (returnAddress : Word) : Cpu :=
  (c.exception handlerCs handlerEip ecode).run usable 17 (startIsr ++ [.call returnAddress])

/-- The handler that is called in the state `e` sees the state `c` that the exception came
in, and returns to it: the wrapper comes to its `iret` with the stack pointer at the frame,
from every state in which the handler can have returned. -/
structure SeesTrueState (usable : BitVec 16 → BitVec 16 → Bool) (isr : Isr) (c : Cpu)
    (ecode : Option Word) (e : Cpu) : Prop where
  segRegs : (isr.arguments e).segRegs = ⟨(c.seg .ds).setWidth 32, (c.seg .es).setWidth 32,
    (c.seg .fs).setWidth 32, (c.seg .gs).setWidth 32⟩
  genRegs : ∃ esp, (isr.arguments e).genRegs = ⟨c.reg .edi, c.reg .esi, c.reg .ebp, c.reg .ebx,
    c.reg .edx, c.reg .ecx, c.reg .eax, esp⟩
  ecode : isr.declaresEcode = true → (isr.arguments e).ecode = ecode
  eip : (isr.arguments e).frame.eip = c.eip
  cs : (isr.arguments e).frame.cs = c.cs.setWidth 32
  eflags : (isr.arguments e).frame.eflags = c.eflags
  returns : ∀ d : Cpu, d.reg .esp = e.reg .esp + 4 →
    (d.run usable 12 isr.ending).reg .esp = frameAddress c

/-- The word above the flags in the frame: the stack pointer of an outer ring, or the word
on top of the stack that was interrupted. -/
def aboveFlags (c : Cpu) : Word := if c.privilege = 0 then c.top else c.reg .esp

/-- The words that the processor pushes, and the one above the flags. -/
def exceptionWords (c : Cpu) (ecode : Option Word) : List Word :=
  ecode.toList ++ [c.eip, c.cs.setWidth 32, c.eflags, aboveFlags c]

/-- The registers as the wrappers push them, in memory order. -/
def savedWords (c : Cpu) : List Word :=
  [(c.seg .ds).setWidth 32, (c.seg .es).setWidth 32, (c.seg .fs).setWidth 32,
    (c.seg .gs).setWidth 32,
    c.reg .edi, c.reg .esi, c.reg .ebp, c.reg .ebx, c.reg .edx, c.reg .ecx, c.reg .eax]

/-! ### The stack -/

section Stack

variable {usable : BitVec 16 → BitVec 16 → Bool}

/-- The words an exception pushes are on the stack. -/
theorem onStack_exception (c : Cpu) (handlerCs : BitVec 16) (handlerEip : Word)
    (ecode : Option Word) :
    (c.exception handlerCs handlerEip ecode).OnStack (exceptionWords c ecode) := by
  have hframe : (c.interrupt handlerCs handlerEip).OnStack
      [c.eip, c.cs.setWidth 32, c.eflags, aboveFlags c] := by
    rw [aboveFlags]
    split
    · rename_i hring
      have htop : c.OnStack [c.top] := ⟨rfl, trivial⟩
      rw [Cpu.interrupt, if_pos hring]
      exact (htop.pushFrame (Nat.le_succ 1) _ _ _).enterGate _ _
    · rename_i hring
      have hstack := onStack_interrupt c handlerCs handlerEip
      rw [if_neg hring] at hstack
      exact (@wordsAt_append _ _ [c.eip, c.cs.setWidth 32, c.eflags, c.reg .esp]
        [c.ss.setWidth 32]).mp hstack |>.1
  cases ecode with
  | none => exact hframe
  | some e => exact hframe.push e (by simp)

/-- An exception changes no general register but the stack pointer. -/
theorem reg_exception {c : Cpu} {r : Reg} (hr : r ≠ .esp) (handlerCs : BitVec 16)
    (handlerEip : Word) (ecode : Option Word) :
    (c.exception handlerCs handlerEip ecode).reg r = c.reg r := by
  have hinterrupt : (c.interrupt handlerCs handlerEip).reg r = c.reg r := by
    rw [Cpu.interrupt]
    split <;> simp [Cpu.pushFrame, hr]
  cases ecode with
  | none => exact hinterrupt
  | some e => rw [Cpu.exception, Cpu.reg_push, if_neg hr, hinterrupt]

/-- An exception in ring 0 leaves the segment registers alone. -/
theorem seg_exception (c : Cpu) (handlerCs : BitVec 16) (handlerEip : Word)
    (ecode : Option Word) : (c.exception handlerCs handlerEip ecode).seg = c.seg := by
  have hinterrupt : (c.interrupt handlerCs handlerEip).seg = c.seg := by
    rw [Cpu.interrupt]
    split <;> rfl
  cases ecode with
  | none => exact hinterrupt
  | some e => rw [Cpu.exception, Cpu.seg_push, hinterrupt]

/-- The stack pointer after an exception is at the frame, or at the error code below it. -/
theorem esp_exception (c : Cpu) (handlerCs : BitVec 16) (handlerEip : Word)
    (ecode : Option Word) : (c.exception handlerCs handlerEip ecode).reg .esp
      = frameAddress c - if ecode.isSome then 4 else 0 := by
  cases ecode with
  | none =>
      rw [Cpu.exception, esp_interrupt]
      simp
  | some e =>
      rw [Cpu.exception, Cpu.reg_push, if_pos rfl, esp_interrupt]
      rfl

/-- **The words on the stack** when a handler is called. -/
theorem onStack_isr (c : Cpu) (handlerCs : BitVec 16) (handlerEip : Word) (ecode : Option Word)
    (ret : Word) : (isrEntry usable c handlerCs handlerEip ecode ret).OnStack
      (ret :: (savedWords c ++ exceptionWords c ecode)) := by
  have hlen : (exceptionWords c ecode).length ≤ 5 := by cases ecode <;> simp [exceptionWords]
  have hstack := onStack_exception c handlerCs handlerEip ecode
  have hreg := fun r hr => @reg_exception c r hr handlerCs handlerEip ecode
  have hseg := seg_exception c handlerCs handlerEip ecode
  rw [isrEntry]
  generalize c.exception handlerCs handlerEip ecode = x at hstack hreg hseg
  have hpush := (((((((((((hstack.push (x.reg .eax) ?_).push (x.reg .ecx) ?_).push
    (x.reg .edx) ?_).push (x.reg .ebx) ?_).push (x.reg .ebp) ?_).push (x.reg .esi) ?_).push
    (x.reg .edi) ?_).push ((x.seg .gs).setWidth 32) ?_).push ((x.seg .fs).setWidth 32) ?_).push
    ((x.seg .es).setWidth 32) ?_).push ((x.seg .ds).setWidth 32) ?_).push ret ?_
  · simpa [Cpu.OnStack, startIsr, Cpu.run, Cpu.exec, savedWords, hreg, hseg] using hpush
  all_goals
    try simp only [List.length_cons]
    omega

/-- The stack pointer when a handler is called. -/
theorem esp_isr (c : Cpu) (handlerCs : BitVec 16) (handlerEip : Word) (ecode : Option Word)
    (ret : Word) : (isrEntry usable c handlerCs handlerEip ecode ret).reg .esp
      = frameAddress c - (if ecode.isSome then 4 else 0) - 48 := by
  simp [isrEntry, startIsr, Cpu.run, Cpu.exec, esp_exception]
  bv_omega

/-! ### The return -/

/-- The handler's end pops eleven words. -/
theorem esp_endIsr (d : Cpu) : (d.run usable 12 endIsr).reg .esp = d.reg .esp + 44 := by
  simp [endIsr, Cpu.run, Cpu.exec, Cpu.drop, BitVec.add_assoc]

/-- The end of a handler with an error code pops twelve. -/
theorem esp_endIsrEcode (d : Cpu) :
    (d.run usable 12 endIsrEcode).reg .esp = d.reg .esp + 48 := by
  simp [endIsrEcode, endIsr, Cpu.run, Cpu.exec, Cpu.drop, BitVec.add_assoc]

/-! ### The arguments -/

/-- What a handler takes for its arguments, when it is not declared with an error code. -/
theorem readArguments_of_onStack {e : Cpu} {ret ds es fs gs : Word}
    {edi esi ebp ebx edx ecx eax w₀ w₁ w₂ w₃ : Word}
    (h : e.OnStack (ret :: ds :: es :: fs :: gs :: edi :: esi :: ebp :: ebx :: edx :: ecx ::
      eax :: w₀ :: w₁ :: w₂ :: w₃ :: [])) :
    ∃ esp ss, readArguments e.mem (e.reg .esp + 4) false =
      ⟨⟨ds, es, fs, gs⟩, ⟨edi, esi, ebp, ebx, edx, ecx, eax, w₀⟩, none, ⟨w₁, w₂, w₃, esp, ss⟩⟩ := by
  refine ⟨e.mem.read32 (e.reg .esp + 64), e.mem.read32 (e.reg .esp + 68), ?_⟩
  simp [Cpu.OnStack, WordsAt, BitVec.add_assoc] at h
  simp [readArguments, readSegRegs, readGenRegs, readFrame, BitVec.add_assoc, h]

/-- What a handler takes for its arguments, when it is declared with an error code. -/
theorem readArguments_ecode_of_onStack {e : Cpu} {ret ds es fs gs : Word}
    {edi esi ebp ebx edx ecx eax w₀ w₁ w₂ w₃ w₄ : Word}
    (h : e.OnStack (ret :: ds :: es :: fs :: gs :: edi :: esi :: ebp :: ebx :: edx :: ecx ::
      eax :: w₀ :: w₁ :: w₂ :: w₃ :: w₄ :: [])) :
    ∃ esp ss, readArguments e.mem (e.reg .esp + 4) true =
      ⟨⟨ds, es, fs, gs⟩, ⟨edi, esi, ebp, ebx, edx, ecx, eax, w₀⟩, some w₁,
        ⟨w₂, w₃, w₄, esp, ss⟩⟩ := by
  refine ⟨e.mem.read32 (e.reg .esp + 68), e.mem.read32 (e.reg .esp + 72), ?_⟩
  simp [Cpu.OnStack, WordsAt, BitVec.add_assoc] at h
  simp [readArguments, readSegRegs, readGenRegs, readFrame, BitVec.add_assoc, h]

end Stack

/-! ### Exceptions -/

/-- The wrappers differ in three ways only: the handler takes an error code where there is
one, and so does the wrapper, the one for double faults excepted. -/
theorem exceptionWrappers_table {isr : Isr} (h : isr ∈ exceptionWrappers) :
    isr.declaresEcode = pushesErrorCode isr.vector ∧ isr.ending =
      if pushesErrorCode isr.vector = true ∧ isr.vector ≠ 8 then endIsrEcode else endIsr := by
  simp only [exceptionWrappers, List.mem_cons, List.not_mem_nil, or_false] at h
  rcases h with rfl | rfl | rfl | rfl | rfl | rfl | rfl | rfl | rfl | rfl | rfl | rfl | rfl | rfl
  all_goals exact ⟨rfl, rfl⟩

section Exceptions

variable {usable : BitVec 16 → BitVec 16 → Bool} {isr : Isr} {c : Cpu} {ecode : Option Word}

/-- **The return**: the wrappers come to their `iret` with the stack pointer at the frame,
the one for double faults with the stack pointer at the error code. -/
theorem returns_iff (hisr : isr ∈ exceptionWrappers)
    (hcode : ecode.isSome = pushesErrorCode isr.vector) (handlerCs : BitVec 16)
    (handlerEip ret : Word) :
    (∀ d : Cpu, d.reg .esp = (isrEntry usable c handlerCs handlerEip ecode ret).reg .esp + 4 →
      (d.run usable 12 isr.ending).reg .esp = frameAddress c) ↔ isr.vector ≠ 8 := by
  obtain ⟨-, hending⟩ := exceptionWrappers_table hisr
  rw [esp_isr, hcode, hending]
  constructor
  · intro h h8
    have hback := h (c.setReg .esp (frameAddress c - 48)) (by
      rw [h8]
      simp [pushesErrorCode]
      bv_omega)
    rw [if_neg (fun h => h.2 h8), esp_endIsr, Cpu.reg_setReg, if_pos rfl] at hback
    bv_omega
  · intro h8 d hd
    by_cases hpush : pushesErrorCode isr.vector = true
    · rw [if_pos hpush] at hd
      rw [if_pos ⟨hpush, h8⟩, esp_endIsrEcode, hd]
      bv_omega
    · rw [if_neg hpush] at hd
      rw [if_neg (fun h => hpush h.1), esp_endIsr, hd]
      bv_omega

/-- **What a handler receives**: the registers as they were, and then everything one word too
far. -/
theorem arguments_isr (hdecl : isr.declaresEcode = ecode.isSome) (handlerCs : BitVec 16)
    (handlerEip ret : Word) :
    ∃ esp ss, isr.arguments (isrEntry usable c handlerCs handlerEip ecode ret) =
      { segRegs := ⟨(c.seg .ds).setWidth 32, (c.seg .es).setWidth 32, (c.seg .fs).setWidth 32,
          (c.seg .gs).setWidth 32⟩
        genRegs := ⟨c.reg .edi, c.reg .esi, c.reg .ebp, c.reg .ebx, c.reg .edx, c.reg .ecx,
          c.reg .eax, ecode.getD c.eip⟩
        ecode := ecode.map fun _ => c.eip
        frame := ⟨c.cs.setWidth 32, c.eflags, aboveFlags c, esp, ss⟩ } := by
  have hstack := @onStack_isr usable c handlerCs handlerEip ecode ret
  rw [Isr.arguments, hdecl]
  cases ecode with
  | none => exact readArguments_of_onStack hstack
  | some e => exact readArguments_ecode_of_onStack hstack

/-- The parameters behind the registers are right when the words on the stack coincide. -/
theorem shifted_iff (c : Cpu) (ecode : Option Word) :
    ((ecode.map fun _ => c.eip) = ecode ∧ c.cs.setWidth 32 = c.eip ∧
      c.eflags = c.cs.setWidth 32 ∧ aboveFlags c = c.eflags) ↔
      ∀ w ∈ exceptionWords c ecode, w = aboveFlags c := by
  have hframe : (c.cs.setWidth 32 = c.eip ∧ c.eflags = c.cs.setWidth 32 ∧
      aboveFlags c = c.eflags) ↔ ∀ w ∈ [c.eip, c.cs.setWidth 32, c.eflags, aboveFlags c],
        w = aboveFlags c := by
    simp only [List.forall_mem_cons, List.not_mem_nil, false_implies, implies_true, and_true]
    constructor
    · rintro ⟨hcs, hflags, habove⟩
      exact ⟨by rw [habove, hflags, hcs], by rw [habove, hflags], habove.symm⟩
    · rintro ⟨heip, hcs, hflags⟩
      exact ⟨hcs.trans heip.symm, hflags.trans hcs.symm, hflags.symm⟩
  rw [hframe]
  cases ecode with
  | none => exact and_iff_right rfl
  | some e =>
      simp only [exceptionWords, Option.toList_some, List.singleton_append, List.forall_mem_cons,
        Option.map_some, Option.some.injEq]
      constructor
      · rintro ⟨he, heip, hrest⟩
        exact ⟨he.symm.trans heip, heip, hrest⟩
      · rintro ⟨he, heip, hrest⟩
        exact ⟨heip.trans he.symm, heip, hrest⟩

/-- **The handlers see the true state** exactly when all words that the processor pushed are
the same, and the same as the one above them; the one for double faults never does. -/
theorem seesTrueState_iff (hisr : isr ∈ exceptionWrappers)
    (hcode : ecode.isSome = pushesErrorCode isr.vector) (handlerCs : BitVec 16)
    (handlerEip ret : Word) :
    SeesTrueState usable isr c ecode (isrEntry usable c handlerCs handlerEip ecode ret) ↔
      isr.vector ≠ 8 ∧ ∀ w ∈ exceptionWords c ecode, w = aboveFlags c := by
  have hreturns := @returns_iff usable isr c ecode hisr hcode handlerCs handlerEip ret
  have hdecl : isr.declaresEcode = ecode.isSome := by
    rw [(exceptionWrappers_table hisr).1, hcode]
  obtain ⟨esp, ss, hargs⟩ := @arguments_isr usable isr c ecode hdecl handlerCs handlerEip ret
  rw [← shifted_iff]
  constructor
  · intro h
    have hecode : (ecode.map fun _ => c.eip) = ecode := by
      cases ecode with
      | none => rfl
      | some e =>
          have := h.ecode hdecl
          rwa [hargs] at this
    have heip := h.eip
    have hcs := h.cs
    have hflags := h.eflags
    rw [hargs] at heip hcs hflags
    exact ⟨hreturns.mp h.returns, hecode, heip, hcs, hflags⟩
  · rintro ⟨h8, hecode, heip, hcs, hflags⟩
    refine ⟨?_, ⟨ecode.getD c.eip, ?_⟩, fun _ => ?_, ?_, ?_, ?_, hreturns.mpr h8⟩
    all_goals rw [hargs]
    · exact hecode
    · exact heip
    · exact hcs
    · exact hflags

end Exceptions

/-- A processor in ring 0 with something else in each register, whose return address and flags
are its code segment, and so is the word on top of its stack. -/
def allDifferent : Cpu where
  reg
    | .eax => 1
    | .ebx => 2
    | .ecx => 3
    | .edx => 4
    | .esi => 5
    | .edi => 6
    | .ebp => 7
    | .esp => 0x7000
  seg
    | .ds => 0x10
    | .es => 0x20
    | .fs => 0x28
    | .gs => 0x30
  eip := 0x08
  eflags := 0x08
  cs := 0x08
  ss := 0x10
  cr3 := 0x4000
  mem := fun a => if a = 0x7000 then 0x08 else 0
  esp0 := 0x6000
  ss0 := 0x10
  ports := []

/-- A page fault there, with the error code of a reserved bit. -/
theorem seesTrueState_pagefault :
    SeesTrueState (fun _ _ => true) pagefaultHandlerWrapper allDifferent (some 0x08)
      (isrEntry (fun _ _ => true) allDifferent 0x08 0x2000 (some 0x08) 0x3000) := by
  have hvector : pagefaultHandlerWrapper.vector ≠ 8 := by simp [pagefaultHandlerWrapper]
  refine (seesTrueState_iff (by simp [exceptionWrappers]) rfl 0x08 0x2000 0x3000).mpr ⟨hvector, ?_⟩
  have hwords : exceptionWords allDifferent (some 0x08) = List.replicate 5 0x08 := by
    decide +kernel
  have habove : aboveFlags allDifferent = 0x08 := by decide +kernel
  rw [hwords, habove]
  exact fun w hw => List.eq_of_mem_replicate hw

/-- A processor in ring 0, with the given return address, code segment and flags, and zero
everywhere else. -/
def ringZero (eip : Word) (cs : BitVec 16) (eflags : Word) : Cpu where
  reg := fun _ => 0
  seg := fun _ => 0
  eip := eip
  eflags := eflags
  cs := cs
  ss := 0
  cr3 := 0
  mem := fun _ => 0
  esp0 := 0
  ss0 := 0
  ports := []

/-- **A division by zero**: the handler takes the code segment for the return address. -/
theorem seesTrueState_fails :
    ¬ ∀ (usable : BitVec 16 → BitVec 16 → Bool) (isr : Isr) (c : Cpu) (ecode : Option Word)
      (handlerCs : BitVec 16) (handlerEip ret : Word), isr ∈ exceptionWrappers →
      ecode.isSome = pushesErrorCode isr.vector →
      SeesTrueState usable isr c ecode (isrEntry usable c handlerCs handlerEip ecode ret) := by
  intro hall
  have heip := (hall (fun _ _ => true) divbyzeroHandlerWrapper (ringZero 0x1000 0x08 0x202) none
    0x08 0 0 (by simp [exceptionWrappers]) rfl).eip
  obtain ⟨esp, ss, hargs⟩ := @arguments_isr (fun _ _ => true) divbyzeroHandlerWrapper
    (ringZero 0x1000 0x08 0x202) none rfl 0x08 0 0
  rw [hargs] at heip
  have hne : (0x08 : Word) ≠ 0x1000 := by simp
  exact hne heip

end LoofOS
