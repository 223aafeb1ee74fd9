import LoofOS.SavedContext
import LoofOS.X86

/-!
# Entering and Leaving the Timer Interrupt

The assembly of `drivers/timer.s` and `proc/process.s`, and the memory layout by which it
shares the register sets with the C code. The wrapper pushes the general and the segment
registers below the frame that the processor has pushed, so that the three structures lie
on the stack as arguments of `timer_handler`; `switch_context` is passed three such
structures by value and pops them, with one of two exits: the frame of a user program is
on the stack that it pops from, the frame of a kernel thread on the stack of that thread.

Saving a program, patching its context as `switch_process` does and passing it to
`switch_context` gives all registers back (`switch_restores`).

## Main results

* `onStack_wrapper`: the words on the stack when `timer_handler` is called.
* `saved_context`: the context that `switch_process` keeps of an interrupted program.
* `loaded_switchContext`: the registers before the final `iret` of `switch_context`.
* `onStack_user`, `onStack_kernel`: the frame that the `iret` takes, on the two exits.
* `switch_restores`: the round trip.
-/

namespace LoofOS

open X86

/-! ### Layouts -/

/-- `seg_register_set` in memory. -/
def readSegRegs (m : Memory) (a : Word) : SegRegisterSet where
  ds := m.read32 a
  es := m.read32 (a + 4)
  fs := m.read32 (a + 8)
  gs := m.read32 (a + 12)

/-- `gen_register_set` in memory. -/
def readGenRegs (m : Memory) (a : Word) : GenRegisterSet where
  edi := m.read32 a
  esi := m.read32 (a + 4)
  ebp := m.read32 (a + 8)
  ebx := m.read32 (a + 12)
  edx := m.read32 (a + 16)
  ecx := m.read32 (a + 20)
  eax := m.read32 (a + 24)
  esp := m.read32 (a + 28)

/-- `interrupt_frame` in memory. -/
def readFrame (m : Memory) (a : Word) : InterruptFrame where
  eip := m.read32 a
  cs := m.read32 (a + 4)
  eflags := m.read32 (a + 8)
  esp := m.read32 (a + 12)
  ss := m.read32 (a + 16)

/-- The three structures as consecutive arguments of a function, the first one at `a`. -/
def readContext (m : Memory) (a : Word) : Context where
  segRegs := readSegRegs m a
  genRegs := readGenRegs m (a + 16)
  frame := readFrame m (a + 48)

/-- The words of the three structures, in memory order. -/
def Context.words (c : Context) : List Word :=
  [c.segRegs.ds, c.segRegs.es, c.segRegs.fs, c.segRegs.gs,
    c.genRegs.edi, c.genRegs.esi, c.genRegs.ebp, c.genRegs.ebx, c.genRegs.edx, c.genRegs.ecx,
    c.genRegs.eax, c.genRegs.esp,
    c.frame.eip, c.frame.cs, c.frame.eflags, c.frame.esp, c.frame.ss]

/-! ### Code -/

/-- `timer_handler_wrapper` up to the call of `timer_handler`. -/
def timerHandlerWrapper (returnAddress : Word) : List Instr :=
  [.cli,
    .push .esp, .push .eax, .push .ecx, .push .edx, .push .ebx, .push .ebp, .push .esi, .push .edi,
    .pushSeg .gs, .pushSeg .fs, .pushSeg .es, .pushSeg .ds,
    .movAx 0x10, .movSegAx .ds, .movSegAx .es, .movSegAx .fs, .movSegAx .gs,
    .call returnAddress]

/-- `switch_context` up to its final `iret`. -/
def switchContextBody : List Instr :=
  [.add .esp 4, .mov .ebp .esp,
    .movAl 0x20, .outAl 0x20,
    .load .eax .ebp 68, .movCr3 .eax,
    .popSeg .ds, .popSeg .es, .popSeg .fs, .popSeg .gs,
    .pop .edi, .pop .esi, .pop .ebp, .pop .ebx, .pop .edx, .pop .ecx, .pop .eax,
    .cmpTopZero, .jne 2,
    -- switch_to_user
    .add .esp 4, .jmp 1,
    -- switch_to_kernel
    .pop .esp,
    -- switch_end
    .sti]

/-- `switch_context`. -/
def switchContextCode : List Instr := switchContextBody ++ [.iret]

/-- The arguments of `switch_context` on the stack at its entry, below its return
address. -/
def PassedTo (c : Cpu) (args : SwitchArguments) : Prop :=
  ∃ returnAddress, c.OnStack (returnAddress :: (args.context.words ++ [args.pageDirectory]))

/-! ### Interrupted programs -/

/-- The processor while a program runs. Outside ring 0 the data segment registers hold only
selectors that a return to that ring leaves alone. These are the selectors that the processor lets
a program of that ring load, but for the null selectors 1, 2 and 3: they can be loaded, and `iret`
replaces them by 0. -/
structure Interrupted (usable : BitVec 16 → BitVec 16 → Bool) where
  cpu : Cpu
  segments : cpu.privilege ≠ 0 →
    ∀ s, Cpu.returnSeg usable cpu.privilege (cpu.seg s) = cpu.seg s

/-- The registers of a program that an interrupt has to preserve: all but the selector of
the kernel stack. -/
structure SameRegisters (c c' : Cpu) : Prop where
  reg : ∀ r, c'.reg r = c.reg r
  seg : ∀ s, c'.seg s = c.seg s
  eip : c'.eip = c.eip
  cs : c'.cs = c.cs
  eflags : c'.eflags = c.eflags
  ss : c.privilege ≠ 0 → c'.ss = c.ss

/-- The address of the frame that the processor pushes at an interrupt. -/
def frameAddress (c : Cpu) : Word :=
  if c.privilege = 0 then c.reg .esp - 12 else c.esp0 - 20

/-- The general and segment registers as the wrapper pushes them, in memory order. -/
def pushedWords (c : Cpu) : List Word :=
  [(c.seg .ds).setWidth 32, (c.seg .es).setWidth 32, (c.seg .fs).setWidth 32,
    (c.seg .gs).setWidth 32,
    c.reg .edi, c.reg .esi, c.reg .ebp, c.reg .ebx, c.reg .edx, c.reg .ecx, c.reg .eax,
    c.reg .esp]

/-- **The wrapper** leaves the pushed registers on the stack, above the return address and
below whatever was there. -/
theorem onStack_wrapper {usable : BitVec 16 → BitVec 16 → Bool} {c : Cpu} {ws : List Word}
    (h : c.OnStack ws) (hlen : ws.length ≤ 5) (ret : Word) :
    (c.run usable 19 (timerHandlerWrapper ret)).OnStack (ret :: (pushedWords c ++ ws)) := by
  have hpush := ((((((((((((h.push (c.reg .esp) ?_).push (c.reg .eax) ?_).push
    (c.reg .ecx) ?_).push (c.reg .edx) ?_).push (c.reg .ebx) ?_).push (c.reg .ebp) ?_).push
    (c.reg .esi) ?_).push (c.reg .edi) ?_).push ((c.seg .gs).setWidth 32) ?_).push
    ((c.seg .fs).setWidth 32) ?_).push ((c.seg .es).setWidth 32) ?_).push
    ((c.seg .ds).setWidth 32) ?_).push ret ?_
  · simpa [Cpu.OnStack, timerHandlerWrapper, Cpu.run, Cpu.exec, pushedWords] using hpush
  all_goals
    try simp only [List.length_cons]
    omega

/-- The frame that the processor pushes; that of a program in ring 0 has no stack. -/
theorem onStack_interrupt (c : Cpu) (handlerCs : BitVec 16) (handlerEip : Word) :
    (c.interrupt handlerCs handlerEip).OnStack (c.eip :: c.cs.setWidth 32 :: c.eflags ::
      if c.privilege = 0 then [] else [c.reg .esp, c.ss.setWidth 32]) := by
  have hnil : ∀ c : Cpu, c.OnStack [] := fun _ => trivial
  rw [Cpu.interrupt]
  split
  · exact ((hnil c).pushFrame (Nat.zero_le 2) _ _ _).enterGate _ _
  · have hss : (c.takeStack.push (c.ss.setWidth 32)).OnStack [c.ss.setWidth 32] :=
      (hnil c.takeStack).push _ (by simp)
    have hesp : ((c.takeStack.push (c.ss.setWidth 32)).push (c.reg .esp)).OnStack
        [c.reg .esp, c.ss.setWidth 32] := hss.push _ (by simp)
    exact (hesp.pushFrame (le_refl 2) _ _ _).enterGate _ _

/-- An interrupt changes no general register but the stack pointer, and no data segment
register. -/
theorem pushedWords_interrupt (c : Cpu) (handlerCs : BitVec 16) (handlerEip : Word) :
    pushedWords (c.interrupt handlerCs handlerEip) =
      [(c.seg .ds).setWidth 32, (c.seg .es).setWidth 32, (c.seg .fs).setWidth 32,
        (c.seg .gs).setWidth 32,
        c.reg .edi, c.reg .esi, c.reg .ebp, c.reg .ebx, c.reg .edx, c.reg .ecx, c.reg .eax,
        frameAddress c] := by
  rw [Cpu.interrupt, frameAddress]
  split
  · have hesp : c.reg .esp - 4#32 - 4#32 - 4#32 = c.reg .esp - 12#32 := by bv_omega
    simp [pushedWords, Cpu.pushFrame, hesp]
  · have hesp : c.esp0 - 4#32 - 4#32 - 4#32 - 4#32 - 4#32 = c.esp0 - 20#32 := by bv_omega
    simp [pushedWords, Cpu.pushFrame, hesp]

/-- The context that `switch_process` keeps of an interrupted program. A program in ring 0
will resume on its own stack, at the frame; any other one has its stack in the frame. -/
def interruptedContext (c : Cpu) : Context where
  segRegs := {
    ds := (c.seg .ds).setWidth 32, es := (c.seg .es).setWidth 32
    fs := (c.seg .fs).setWidth 32, gs := (c.seg .gs).setWidth 32 }
  genRegs := {
    edi := c.reg .edi, esi := c.reg .esi, ebp := c.reg .ebp, ebx := c.reg .ebx
    edx := c.reg .edx, ecx := c.reg .ecx, eax := c.reg .eax
    esp := if c.privilege = 0 then frameAddress c else 0 }
  frame := {
    eip := c.eip, cs := c.cs.setWidth 32, eflags := c.eflags
    esp := if c.privilege = 0 then frameAddress c else c.reg .esp
    ss := if c.privilege = 0 then 0x10 else c.ss.setWidth 32 }

/-- The ring of a program can be read off the code segment that was pushed. -/
theorem setWidth_and_three (x : BitVec 16) : x.setWidth 32 &&& 3 = 0 ↔ x &&& 3 = 0 := by
  have h16 : (x &&& 3).toNat = x.toNat % 4 := by
    rw [BitVec.toNat_and]
    exact Nat.and_two_pow_sub_one_eq_mod x.toNat 2
  have h32 : (x.setWidth 32 &&& 3).toNat = x.toNat % 4 := by
    have hx : x.toNat % 2 ^ 32 = x.toNat := Nat.mod_eq_of_lt (by have := x.isLt; omega)
    rw [BitVec.toNat_and, BitVec.toNat_setWidth, hx]
    exact Nat.and_two_pow_sub_one_eq_mod x.toNat 2
  rw [← BitVec.toNat_inj, ← BitVec.toNat_inj, h16, h32]
  rfl

/-- What the C code reads as its three arguments; the last two words are there only if the
frame has a stack. -/
theorem readContext_of_onStack {c : Cpu} {ret ds es fs gs : Word}
    {edi esi ebp ebx edx ecx eax esp eip cs eflags : Word} {rest : List Word}
    (h : c.OnStack (ret :: ds :: es :: fs :: gs :: edi :: esi :: ebp :: ebx :: edx :: ecx ::
      eax :: esp :: eip :: cs :: eflags :: rest)) :
    ∃ esp' ss, readContext c.mem (c.reg .esp + 4) =
      ⟨⟨ds, es, fs, gs⟩, ⟨edi, esi, ebp, ebx, edx, ecx, eax, esp⟩,
        ⟨eip, cs, eflags, esp', ss⟩⟩ ∧
      ∀ e s, rest = [e, s] → esp' = e ∧ ss = s := by
  refine ⟨c.mem.read32 (c.reg .esp + 64), c.mem.read32 (c.reg .esp + 68), ?_, ?_⟩
  · simp [Cpu.OnStack, WordsAt, BitVec.add_assoc] at h
    simp [readContext, readSegRegs, readGenRegs, readFrame, BitVec.add_assoc, h]
  · rintro e s rfl
    simp [Cpu.OnStack, WordsAt, BitVec.add_assoc] at h
    exact ⟨h.2.2.2.2.2.2.2.2.2.2.2.2.2.2.2.2.1, h.2.2.2.2.2.2.2.2.2.2.2.2.2.2.2.2.2⟩

/-- The words on the stack at the entry of `timer_handler`. -/
theorem onStack_handler {usable : BitVec 16 → BitVec 16 → Bool} (c : Cpu)
    (handlerCs : BitVec 16) (handlerEip ret : Word) :
    ((c.interrupt handlerCs handlerEip).run usable 19 (timerHandlerWrapper ret)).OnStack
      (ret :: ([(c.seg .ds).setWidth 32, (c.seg .es).setWidth 32, (c.seg .fs).setWidth 32,
        (c.seg .gs).setWidth 32, c.reg .edi, c.reg .esi, c.reg .ebp, c.reg .ebx, c.reg .edx,
        c.reg .ecx, c.reg .eax, frameAddress c] ++ (c.eip :: c.cs.setWidth 32 :: c.eflags ::
          if c.privilege = 0 then [] else [c.reg .esp, c.ss.setWidth 32]))) := by
  have h := @onStack_wrapper usable _ _ (onStack_interrupt c handlerCs handlerEip)
    (by split <;> simp) ret
  rwa [pushedWords_interrupt] at h

/-- **The context that is kept**: what the C code reads of an interrupted program, patched
for the ring it was interrupted in. -/
theorem saved_context {usable : BitVec 16 → BitVec 16 → Bool} (c e : Cpu)
    (handlerCs : BitVec 16) (handlerEip ret : Word)
    (he : e = (c.interrupt handlerCs handlerEip).run usable 19 (timerHandlerWrapper ret)) :
    patchContext ((readContext e.mem (e.reg .esp + 4)).frame.cs &&& 3)
      (readContext e.mem (e.reg .esp + 4)) = interruptedContext c := by
  have h := @onStack_handler usable c handlerCs handlerEip ret
  rw [← he] at h
  obtain ⟨esp', ss, hread, hrest⟩ := readContext_of_onStack h
  rw [hread, patchContext]
  by_cases hp : c.privilege = 0
  · have hcs : c.cs.setWidth 32 &&& 3 = (0 : Word) := (setWidth_and_three c.cs).mpr hp
    rw [if_pos hcs]
    simp only [interruptedContext, hp, if_true]
  · have hcs : ¬ c.cs.setWidth 32 &&& 3 = (0 : Word) := fun h => hp ((setWidth_and_three c.cs).mp h)
    rw [if_neg hp] at hrest
    obtain ⟨rfl, rfl⟩ := hrest _ _ rfl
    rw [if_neg hcs]
    simp only [interruptedContext, hp, if_false]

/-! ### `switch_context` -/

/-- The processor before the final `iret` of `switch_context`: all registers but those of
the frame are loaded. -/
structure Loaded (c d : Cpu) (args : SwitchArguments) : Prop where
  mem : d.mem = c.mem
  cs : d.cs = c.cs
  cr3 : d.cr3 = args.pageDirectory
  eax : d.reg .eax = args.context.genRegs.eax
  ebx : d.reg .ebx = args.context.genRegs.ebx
  ecx : d.reg .ecx = args.context.genRegs.ecx
  edx : d.reg .edx = args.context.genRegs.edx
  esi : d.reg .esi = args.context.genRegs.esi
  edi : d.reg .edi = args.context.genRegs.edi
  ebp : d.reg .ebp = args.context.genRegs.ebp
  ds : d.seg .ds = args.context.segRegs.ds.setWidth 16
  es : d.seg .es = args.context.segRegs.es.setWidth 16
  fs : d.seg .fs = args.context.segRegs.fs.setWidth 16
  gs : d.seg .gs = args.context.segRegs.gs.setWidth 16

/-- The last instruction is the `iret`, on both exits. -/
theorem run_switchContext {usable : BitVec 16 → BitVec 16 → Bool} (c : Cpu) :
    c.run usable 24 switchContextCode = (c.run usable 23 switchContextBody).iret usable := by
  simp only [switchContextCode, switchContextBody, List.cons_append, List.nil_append, Cpu.run,
    List.drop_succ_cons, List.drop_zero]
  split <;> rfl

/-- **All registers but those of the frame** are loaded before the `iret`; the stack pointer
is then behind the slot of `gen_regs.esp`, or what that slot says when it is not zero. -/
theorem loaded_switchContext {usable : BitVec 16 → BitVec 16 → Bool} {c : Cpu}
    {args : SwitchArguments} (h : PassedTo c args) :
    Loaded c (c.run usable 23 switchContextBody) args ∧
      (c.run usable 23 switchContextBody).reg .esp =
        if args.context.genRegs.esp = 0 then c.reg .esp + 52 else args.context.genRegs.esp := by
  obtain ⟨ret, h⟩ := h
  simp [Cpu.OnStack, Context.words, WordsAt, BitVec.add_assoc] at h
  by_cases hesp : args.context.genRegs.esp = 0#32
  · refine ⟨⟨?_, ?_, ?_, ?_, ?_, ?_, ?_, ?_, ?_, ?_, ?_, ?_, ?_, ?_⟩, ?_⟩
    all_goals
      simp [switchContextBody, Cpu.run, Cpu.exec, Cpu.drop, Cpu.top, BitVec.add_assoc, h, hesp]
  · refine ⟨⟨?_, ?_, ?_, ?_, ?_, ?_, ?_, ?_, ?_, ?_, ?_, ?_, ?_, ?_⟩, ?_⟩
    all_goals
      simp [switchContextBody, Cpu.run, Cpu.exec, Cpu.drop, Cpu.top, BitVec.add_assoc, h, hesp]

/-- The frame of the arguments lies above the stack slot. -/
theorem PassedTo.frame {c : Cpu} {args : SwitchArguments} (h : PassedTo c args) :
    WordsAt c.mem (c.reg .esp + 52) [args.context.frame.eip, args.context.frame.cs,
      args.context.frame.eflags, args.context.frame.esp, args.context.frame.ss] := by
  obtain ⟨ret, h⟩ := h
  simp [Cpu.OnStack, Context.words, WordsAt, BitVec.add_assoc] at h
  simp [WordsAt, BitVec.add_assoc, h]

/-- The stack pointer after an interrupt is at the frame. -/
theorem esp_interrupt (c : Cpu) (handlerCs : BitVec 16) (handlerEip : Word) :
    (c.interrupt handlerCs handlerEip).reg .esp = frameAddress c := by
  rw [Cpu.interrupt, frameAddress]
  split
  · simp [Cpu.pushFrame]
    bv_omega
  · simp [Cpu.pushFrame]
    bv_omega

/-- The stack pointer at the entry of `timer_handler`, relative to the frame. -/
theorem esp_handler {usable : BitVec 16 → BitVec 16 → Bool} (c : Cpu)
    (handlerCs : BitVec 16) (handlerEip ret : Word) :
    ((c.interrupt handlerCs handlerEip).run usable 19 (timerHandlerWrapper ret)).reg .esp
      = frameAddress c - 52 := by
  simp [timerHandlerWrapper, Cpu.run, Cpu.exec, esp_interrupt]
  bv_omega

/-- A program in ring 0 has only its return address and its flags in the frame. -/
theorem frame_handler {usable : BitVec 16 → BitVec 16 → Bool} (c : Cpu)
    (handlerCs : BitVec 16) (handlerEip ret : Word) :
    WordsAt ((c.interrupt handlerCs handlerEip).run usable 19 (timerHandlerWrapper ret)).mem
      (frameAddress c) [c.eip, c.cs.setWidth 32, c.eflags] := by
  have h := @onStack_handler usable c handlerCs handlerEip ret
  rw [Cpu.OnStack, esp_handler, ← List.cons_append, wordsAt_append] at h
  obtain ⟨-, h⟩ := h
  have hbase : frameAddress c - 52 + BitVec.ofNat 32 (4 * 13) = frameAddress c := by bv_omega
  simp only [List.length_cons, List.length_nil] at h
  rw [hbase] at h
  exact ⟨h.1, h.2.1, h.2.2.1, trivial⟩

/-- What `switch_process` leaves in the descriptor of the interrupted process. -/
theorem stored_context {s s' : Scheduler} {c : Context} {a : SwitchArguments}
    (hrunning : s.current.state = processRunning) (h : switchProcess s c = some (s', some a)) :
    (s'.desc s.currentProcess).context = patchContext (c.frame.cs &&& 3) c := by
  rcases switchProcess_cases h with ⟨-, -, hout⟩ | ⟨-, -, p, -, hs', -⟩
  · cases hout
  · rw [hs']
    exact Faithful.context_left hrunning

/-- The exit of a context that was interrupted in ring 0: the frame is taken from the stack
of the interrupted program. -/
theorem onStack_kernel {usable : BitVec 16 → BitVec 16 → Bool} {c : Cpu} {args : SwitchArguments}
    {ws : List Word} (h : PassedTo c args) (hesp : args.context.genRegs.esp ≠ 0)
    (hws : WordsAt c.mem args.context.genRegs.esp ws) :
    (c.run usable 23 switchContextBody).OnStack ws := by
  obtain ⟨hbody, hstack⟩ := @loaded_switchContext usable _ _ h
  rw [if_neg hesp] at hstack
  rwa [Cpu.OnStack, hbody.mem, hstack]

/-- The exit of any other context: the frame is taken from the arguments. -/
theorem onStack_user {usable : BitVec 16 → BitVec 16 → Bool} {c : Cpu} {args : SwitchArguments}
    (h : PassedTo c args) (hesp : args.context.genRegs.esp = 0) :
    (c.run usable 23 switchContextBody).OnStack [args.context.frame.eip, args.context.frame.cs,
      args.context.frame.eflags, args.context.frame.esp, args.context.frame.ss] := by
  obtain ⟨hbody, hstack⟩ := @loaded_switchContext usable _ _ h
  rw [if_pos hesp] at hstack
  rw [Cpu.OnStack, hbody.mem, hstack]
  exact h.frame

/-- The registers that are loaded from the context of an interrupted program. -/
theorem Loaded.registers {c d p : Cpu} {directory : Word}
    (h : Loaded c d ⟨interruptedContext p, directory⟩) :
    (∀ r, r ≠ .esp → d.reg r = p.reg r) ∧ ∀ s, d.seg s = p.seg s := by
  constructor
  · intro r hr
    cases r with
    | eax => exact h.eax
    | ebx => exact h.ebx
    | ecx => exact h.ecx
    | edx => exact h.edx
    | esi => exact h.esi
    | edi => exact h.edi
    | ebp => exact h.ebp
    | esp => exact absurd rfl hr
  · have hword : ∀ x : BitVec 16, (x.setWidth 32).setWidth 16 = x := fun x => by
      rw [BitVec.setWidth_setWidth_of_le x (by simp), BitVec.setWidth_eq]
    intro s
    cases s with
    | ds => exact h.ds.trans (hword _)
    | es => exact h.es.trans (hword _)
    | fs => exact h.fs.trans (hword _)
    | gs => exact h.gs.trans (hword _)

/-- **The round trip.** A program `p` is interrupted while a running process is current; the
wrapper pushes its registers, and `switch_process` reads them as its arguments, switches to
another process and leaves the context in the descriptor. When that context is later passed
to `switch_context`, all registers have their old values after its `iret`, and the page
directory is the one that was passed. A program that was interrupted in ring 0 needs its
frame, on its own stack, to be still there. -/
theorem switch_restores {usable : BitVec 16 → BitVec 16 → Bool} (p : Interrupted usable)
    (handlerCs : BitVec 16) (handlerEip ret directory : Word) {s s' : Scheduler}
    {out : SwitchArguments} {e c : Cpu}
    (he : e = (p.cpu.interrupt handlerCs handlerEip).run usable 19 (timerHandlerWrapper ret))
    (hrunning : s.current.state = processRunning)
    (hswitch : switchProcess s (readContext e.mem (e.reg .esp + 4)) = some (s', some out))
    (hpassed : PassedTo c ⟨(s'.desc s.currentProcess).context, directory⟩)
    (hkernel : c.privilege = 0)
    (hstack : p.cpu.privilege = 0 → frameAddress p.cpu ≠ 0 ∧
      ∀ i < 3, c.mem.read32 (frameAddress p.cpu + BitVec.ofNat 32 (4 * i))
        = e.mem.read32 (frameAddress p.cpu + BitVec.ofNat 32 (4 * i))) :
    SameRegisters p.cpu (c.run usable 24 switchContextCode) ∧
      (c.run usable 24 switchContextCode).cr3 = directory := by
  have hword : ∀ x : BitVec 16, (x.setWidth 32).setWidth 16 = x := fun x => by
    rw [BitVec.setWidth_setWidth_of_le x (by simp), BitVec.setWidth_eq]
  have hcontext : (s'.desc s.currentProcess).context = interruptedContext p.cpu := by
    rw [stored_context hrunning hswitch]
    exact saved_context p.cpu e handlerCs handlerEip ret he
  rw [hcontext] at hpassed
  obtain ⟨hbody, hesp⟩ := @loaded_switchContext usable _ _ hpassed
  obtain ⟨hreg, hseg⟩ := hbody.registers
  have hring : (c.run usable 23 switchContextBody).privilege = 0 := by
    rw [Cpu.privilege, hbody.cs]
    exact hkernel
  rw [run_switchContext]
  by_cases hp : p.cpu.privilege = 0
  · obtain ⟨hne, hkeep⟩ := hstack hp
    have hslot : (interruptedContext p.cpu).genRegs.esp = frameAddress p.cpu := if_pos hp
    have hframe : WordsAt c.mem (interruptedContext p.cpu).genRegs.esp
        [p.cpu.eip, p.cpu.cs.setWidth 32, p.cpu.eflags] := by
      have hold := @frame_handler usable p.cpu handlerCs handlerEip ret
      rw [← he] at hold
      rw [hslot]
      exact hold.congr hkeep
    rw [if_neg (by rw [hslot]; exact hne), hslot] at hesp
    have hcs : (p.cpu.cs.setWidth 32).setWidth 16 &&& 3
        = (c.run usable 23 switchContextBody).privilege := by
      rw [hword, hring]
      exact hp
    rw [Cpu.iret_same_ring (onStack_kernel hpassed (by rw [hslot]; exact hne) hframe) hcs]
    refine ⟨⟨?_, hseg, rfl, hword _, rfl, fun h => absurd hp h⟩, hbody.cr3⟩
    intro r
    by_cases hr : r = .esp
    · subst hr
      have hback : frameAddress p.cpu + 12 = p.cpu.reg .esp := by
        rw [frameAddress, if_pos hp, BitVec.sub_add_cancel]
      rw [Cpu.reg_setReg, if_pos rfl, hesp, hback]
    · rw [Cpu.reg_setReg, if_neg hr]
      exact hreg r hr
  · have hslot : (interruptedContext p.cpu).genRegs.esp = 0 := if_neg hp
    have hcs : (p.cpu.cs.setWidth 32).setWidth 16 &&& 3
        ≠ (c.run usable 23 switchContextBody).privilege := by
      rw [hword, hring]
      exact hp
    rw [Cpu.iret_outer_ring (onStack_user hpassed hslot) hcs]
    refine ⟨⟨?_, ?_, rfl, hword _, rfl, fun _ => ?_⟩, hbody.cr3⟩
    · intro r
      by_cases hr : r = .esp
      · subst hr
        exact if_neg hp
      · exact (Cpu.reg_setReg _ _ _ _).trans ((if_neg hr).trans (hreg r hr))
    · intro s
      have hlevel : (p.cpu.cs.setWidth 32).setWidth 16 &&& 3 = p.cpu.privilege := by
        rw [hword, Cpu.privilege]
      have hkeep := p.segments hp s
      rw [← hlevel, ← hseg s] at hkeep
      exact hkeep.trans (hseg s)
    · exact (congrArg _ (if_neg hp)).trans (hword _)

/-- A ring 3 program: the code segment is `0x1b`, the other selectors are `0x23`. -/
def userProgram : Cpu where
  reg := fun
    | .eax => 1 | .ebx => 2 | .ecx => 3 | .edx => 4 | .esi => 5 | .edi => 6 | .ebp => 7
    | .esp => 0xbfffff00
  seg := fun _ => 0x23
  eip := 0x1000
  eflags := 0x202
  cs := 0x1b
  ss := 0x23
  cr3 := 0x10000000
  mem := fun _ => 0
  esp0 := 0xd0001ffc
  ss0 := 0x10
  ports := []

/-- The same in ring 0, on a stack of its own. -/
def kernelProgram : Cpu :=
  { userProgram with
    reg := fun r => if r = .esp then 0xd0003000 else userProgram.reg r
    seg := fun _ => 0x10
    cs := 0x08
    ss := 0x10 }

/-- The kernel with given words on its stack. -/
def kernelWith (m : Memory) (ws : List Word) : Cpu :=
  ws.foldr (fun w c => c.push w)
    { userProgram with cs := 0x08, ss := 0x10, reg := fun _ => 0xd0002000, mem := m }

/-- The words given are on the stack of `kernelWith`. -/
theorem onStack_kernelWith {m : Memory} {ws : List Word} (h : 4 * ws.length ≤ 2 ^ 32) :
    (kernelWith m ws).OnStack ws := by
  induction ws with
  | nil => trivial
  | cons w ws ih =>
      rw [List.length_cons] at h
      exact (ih (by omega)).push w h

/-- `kernelWith` is a kernel's processor, in ring 0. -/
theorem privilege_kernelWith (m : Memory) (ws : List Word) :
    (kernelWith m ws).privilege = 0 := by
  induction ws with
  | nil => exact (by decide : (0x08 &&& 3 : BitVec 16) = 0)
  | cons w ws ih => exact ih

/-- The words are all that is on the stack. -/
theorem pushed_kernelWith {m : Memory} {ws : List Word} (h : 4 * ws.length < 2 ^ 32) :
    Cpu.Pushed 0xd0002000 m ws.length (kernelWith m ws) := by
  induction ws with
  | nil => exact ⟨by simp [kernelWith], fun _ _ => rfl⟩
  | cons w ws ih =>
      rw [List.length_cons] at h
      exact (ih (by omega)).push w h

/-- The processor at the entry of `timer_handler` when a program is interrupted. -/
def handlerEntry (p : Cpu) : Cpu :=
  (p.interrupt 0x08 0xc0100000).run (fun _ _ => true) 19 (timerHandlerWrapper 0xc0100040)

/-- A program is switched out for the second one of two processes, and back. -/
def SwitchedBack (p : Cpu) : Prop :=
  ∃ s s' out, switchProcess s (readContext (handlerEntry p).mem ((handlerEntry p).reg .esp + 4))
      = some (s', some out) ∧
    let d := (kernelWith (handlerEntry p).mem (0xc0100100 ::
      ((s'.desc s.currentProcess).context.words ++ [0x10004000]))).run (fun _ _ => true) 24
        switchContextCode
    SameRegisters p d ∧ d.cr3 = 0x10004000

/-- A program in ring 3 and one in ring 0 get their registers back. -/
theorem switch_restores_programs : SwitchedBack userProgram ∧ SwitchedBack kernelProgram := by
  suffices hall : ∀ p ∈ [userProgram, kernelProgram], SwitchedBack p from
    ⟨hall _ List.mem_cons_self, hall _ (List.mem_cons_of_mem _ List.mem_cons_self)⟩
  intro p hp
  let s := createProcess (createProcess (initProcesses idleScheduler) 0xd0000100 0xd0002000
    0xd0004000 0) 0xd0000200 0xd0006000 0xd0008000 0
  have hsome : ((switchProcess s (readContext (handlerEntry p).mem
      ((handlerEntry p).reg .esp + 4))).bind Prod.snd).isSome = true := by
    revert p
    decide +kernel
  obtain ⟨out, hout⟩ := Option.isSome_iff_exists.mp hsome
  obtain ⟨⟨s', out'⟩, hswitch, he⟩ := Option.bind_eq_some_iff.mp hout
  obtain rfl : out' = some out := he
  refine ⟨s, s', out, hswitch, @switch_restores (fun _ _ => true) ⟨p, fun _ _ => rfl⟩
    0x08 0xc0100000 0xc0100040 0x10004000 s s' out (handlerEntry p) _ rfl (by decide +kernel)
    hswitch ⟨0xc0100100, onStack_kernelWith (by simp [Context.words])⟩ (privilege_kernelWith _ _)
    fun hring => ?_⟩
  -- only the second program is in ring 0, and its frame is above the words that are pushed
  obtain rfl : kernelProgram = p := by
    rcases List.mem_cons.mp hp with rfl | hp
    · exact absurd hring (by decide)
    · exact (List.mem_singleton.mp hp).symm
  have hframe : frameAddress kernelProgram = 0xd0002ff4 := by decide
  have hpushed := @pushed_kernelWith (handlerEntry kernelProgram).mem (0xc0100100 ::
    ((s'.desc s.currentProcess).context.words ++ [0x10004000])) (by simp [Context.words])
  have hbyte : ∀ x : Word, 0xd0002000 ≤ x.toNat →
      (kernelWith (handlerEntry kernelProgram).mem (0xc0100100 ::
        ((s'.desc s.currentProcess).context.words ++ [0x10004000]))).mem x
        = (handlerEntry kernelProgram).mem x := fun x hx => by
    refine hpushed.mem x ?_
    simp only [Context.words, List.cons_append, List.nil_append, List.length_cons, List.length_nil]
    bv_omega
  refine ⟨by rw [hframe]; decide, fun i hi => ?_⟩
  rw [hframe]
  simp only [Memory.read32]
  rw [hbyte _ (by bv_omega), hbyte _ (by bv_omega), hbyte _ (by bv_omega), hbyte _ (by bv_omega)]

end LoofOS
