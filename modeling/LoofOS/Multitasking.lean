import LoofOS.Protection
import LoofOS.TimerSwitch

/-!
# Multitasking

Preemption is invisible to the programs that run in the processes: whenever a process has the
processor, its registers are those that it had when it was last on the processor
(`registers_restored`), no matter how often it was interrupted and what ran in between.

A `Processor` runs the machine together with the registers. An interrupt goes through the code of
`timer_handler_wrapper`; then the C code runs on the kernel stack of the process, and ends with the
call of `switch_context` or with the return to the wrapper; then the code of the one or the other is
run. What the C code leaves in the registers and on the stack is not known but for the calling
convention.

## Main results

* `resumed`, `returned`: the two ways back to a program.
* `registers_restored`: the registers of a process, in every run.
-/

namespace LoofOS

open LinkedRing Run X86

variable {usable : BitVec 16 → BitVec 16 → Bool} {c c' c'' d p : Cpu}

/-! ### Programs outside ring 0 -/

/-- A program outside ring 0, whose data segment registers hold what they may hold there. -/
structure UserMode (usable : BitVec 16 → BitVec 16 → Bool) (c : Cpu) : Prop where
  ring : c.privilege ≠ 0
  segments : ∀ s, Cpu.returnSeg usable c.privilege (c.seg s) = c.seg s

namespace SameRegisters

/-- The registers are the same as they are. -/
theorem refl (c : Cpu) : SameRegisters c c :=
  ⟨fun _ => rfl, fun _ => rfl, rfl, rfl, rfl, fun _ => rfl⟩

/-- The same registers mean the same ring. -/
theorem privilege (h : SameRegisters c c') : c'.privilege = c.privilege := by
  rw [Cpu.privilege, Cpu.privilege, h.cs]

/-- From one processor to the next. -/
theorem trans (h : SameRegisters c c') (h' : SameRegisters c' c'') : SameRegisters c c'' where
  reg r := (h'.reg r).trans (h.reg r)
  seg s := (h'.seg s).trans (h.seg s)
  eip := h'.eip.trans h.eip
  cs := h'.cs.trans h.cs
  eflags := h'.eflags.trans h.eflags
  ss hp := (h'.ss (h.privilege.symm ▸ hp)).trans (h.ss hp)

/-- A program that has its registers back is in user mode again. -/
theorem userMode (h : SameRegisters c c') (hc : UserMode usable c) : UserMode usable c' := by
  refine ⟨h.privilege ▸ hc.ring, fun s => ?_⟩
  rw [h.privilege, h.seg]
  exact hc.segments s

/-- What an interrupt saves is determined by the registers. -/
theorem interruptedContext (h : SameRegisters c c') (hc : c.privilege ≠ 0) :
    interruptedContext c' = interruptedContext c := by
  simp only [LoofOS.interruptedContext, h.privilege, if_neg hc, h.reg, h.seg, h.eip, h.cs, h.eflags,
    h.ss hc]

end SameRegisters

/-- `iret` leaves the page directory alone. -/
theorem cr3_iret (c : Cpu) : (c.iret usable).cr3 = c.cr3 := by
  rw [Cpu.iret]
  split <;> rfl

/-- A context that was captured outside ring 0 goes back to the program through an `iret` that
changes the ring. -/
theorem sameRegisters_iret {e : Cpu} (hp : UserMode usable p)
    (hreg : ∀ r, r ≠ .esp → e.reg r = p.reg r) (hseg : ∀ s, e.seg s = p.seg s)
    (hring : e.privilege = 0)
    (hframe : e.OnStack [p.eip, p.cs.setWidth 32, p.eflags, p.reg .esp, p.ss.setWidth 32]) :
    SameRegisters p (e.iret usable) := by
  have hword : ∀ x : BitVec 16, (x.setWidth 32).setWidth 16 = x := fun x => by
    rw [BitVec.setWidth_setWidth_of_le x (by simp), BitVec.setWidth_eq]
  have hcs : (p.cs.setWidth 32).setWidth 16 &&& 3 ≠ e.privilege := by
    rw [hword, hring]
    exact hp.ring
  rw [Cpu.iret_outer_ring hframe hcs]
  refine ⟨fun r => ?_, fun s => ?_, rfl, hword _, rfl, fun _ => hword _⟩
  · by_cases hr : r = .esp
    · subst hr
      exact Function.update_self Reg.esp (p.reg .esp) e.reg
    · exact (Cpu.reg_setReg _ _ _ _).trans ((if_neg hr).trans (hreg r hr))
  · have hkeep := hp.segments s
    have hlevel : (p.cs.setWidth 32).setWidth 16 &&& 3 = p.privilege := by
      rw [hword, Cpu.privilege]
    rw [← hlevel, ← hseg s] at hkeep
    exact hkeep.trans (hseg s)

/-- **Through `switch_context`**: a program that was interrupted outside ring 0 goes on with its
registers and the page directory that is passed. -/
theorem resumed {directory : Word} (hp : UserMode usable p) (hd : d.privilege = 0)
    (hpassed : PassedTo d ⟨interruptedContext p, directory⟩) :
    SameRegisters p (d.run usable 24 switchContextCode) ∧
      (d.run usable 24 switchContextCode).cr3 = directory := by
  obtain ⟨hbody, hesp⟩ := @loaded_switchContext usable _ _ hpassed
  obtain ⟨hreg, hseg⟩ := hbody.registers
  have hring : (d.run usable 23 switchContextBody).privilege = 0 := by
    rw [Cpu.privilege, hbody.cs]
    exact hd
  have hslot : (interruptedContext p).genRegs.esp = 0 := if_neg hp.ring
  have hframe := @onStack_user usable _ _ hpassed hslot
  have hstack : (interruptedContext p).frame = ⟨p.eip, p.cs.setWidth 32, p.eflags, p.reg .esp,
      p.ss.setWidth 32⟩ := by
    simp only [interruptedContext, if_neg hp.ring]
  rw [hstack] at hframe
  rw [run_switchContext]
  exact ⟨sameRegisters_iret hp hreg hseg hring hframe, (cr3_iret _).trans hbody.cr3⟩

/-! ### The return of `timer_handler` -/

/-- `timer_handler_wrapper` after the call of `timer_handler`, up to its `iret`. -/
def timerHandlerReturnBody : List Instr :=
  [.popSeg .ds, .popSeg .es, .popSeg .fs, .popSeg .gs,
    .pop .edi, .pop .esi, .pop .ebp, .pop .ebx, .pop .edx, .pop .ecx, .pop .eax, .pop .esp,
    .sti]

/-- `timer_handler_wrapper` after the call of `timer_handler`. -/
def timerHandlerReturn : List Instr := timerHandlerReturnBody ++ [.iret]

/-- The wrapper's exit ends with an `iret`. -/
theorem run_timerHandlerReturn :
    d.run usable 14 timerHandlerReturn = (d.run usable 13 timerHandlerReturnBody).iret usable := rfl

/-- The registers that the wrapper pops. -/
theorem popped_timerHandlerReturn {rest : List Word} (h : d.OnStack ([(p.seg .ds).setWidth 32,
      (p.seg .es).setWidth 32, (p.seg .fs).setWidth 32, (p.seg .gs).setWidth 32, p.reg .edi,
      p.reg .esi, p.reg .ebp, p.reg .ebx, p.reg .edx, p.reg .ecx, p.reg .eax, frameAddress p] ++
        rest)) :
    (∀ r, r ≠ .esp → (d.run usable 13 timerHandlerReturnBody).reg r = p.reg r) ∧
      (∀ s, (d.run usable 13 timerHandlerReturnBody).seg s = p.seg s) ∧
      (d.run usable 13 timerHandlerReturnBody).reg .esp = frameAddress p ∧
      (d.run usable 13 timerHandlerReturnBody).mem = d.mem := by
  simp [Cpu.OnStack, WordsAt, BitVec.add_assoc] at h
  have hword : ∀ x : BitVec 16, (x.setWidth 32).setWidth 16 = x := fun x => by
    rw [BitVec.setWidth_setWidth_of_le x (by simp), BitVec.setWidth_eq]
  refine ⟨fun r hr => ?_, fun s => ?_, ?_, ?_⟩
  · cases r with
    | esp => exact absurd rfl hr
    | _ => simp [timerHandlerReturnBody, Cpu.run, Cpu.exec, Cpu.drop, Cpu.top, BitVec.add_assoc, h]
  · cases s <;>
      simp [timerHandlerReturnBody, Cpu.run, Cpu.exec, Cpu.drop, Cpu.top, BitVec.add_assoc, h]
  · simp [timerHandlerReturnBody, Cpu.run, Cpu.exec, Cpu.drop, Cpu.top, BitVec.add_assoc, h]
  · simp [timerHandlerReturnBody, Cpu.run, Cpu.exec, Cpu.drop]

/-- **Through the wrapper**: when `timer_handler` returns, the program that was interrupted goes on
with its registers. -/
theorem returned (hp : UserMode usable p) (hd : d.privilege = 0)
    (hesp : d.reg .esp = frameAddress p - 48) (h : d.OnStack ([(p.seg .ds).setWidth 32,
      (p.seg .es).setWidth 32, (p.seg .fs).setWidth 32, (p.seg .gs).setWidth 32, p.reg .edi,
      p.reg .esi, p.reg .ebp, p.reg .ebx, p.reg .edx, p.reg .ecx, p.reg .eax, frameAddress p] ++
        [p.eip, p.cs.setWidth 32, p.eflags, p.reg .esp, p.ss.setWidth 32])) :
    SameRegisters p (d.run usable 14 timerHandlerReturn) ∧
      (d.run usable 14 timerHandlerReturn).cr3 = d.cr3 := by
  obtain ⟨hreg, hseg, hstack, hmem⟩ := @popped_timerHandlerReturn usable _ _ _ h
  rw [Cpu.OnStack, wordsAt_append] at h
  obtain ⟨-, hframe⟩ := h
  have hbase : d.reg .esp + BitVec.ofNat 32 (4 * 12) = frameAddress p := by
    rw [hesp]
    bv_omega
  simp only [List.length_cons, List.length_nil] at hframe
  rw [hbase] at hframe
  rw [run_timerHandlerReturn, cr3_iret]
  refine ⟨sameRegisters_iret hp hreg hseg ?_ ?_, rfl⟩
  · exact hd
  · rw [Cpu.OnStack, hstack, hmem]
    exact hframe

/-! ### Processes on the processor -/

/-- The machine, the processor while a process is on it, and for every process the processor as the
process last had it; no function reads the last one. -/
structure Processor where
  machine : Machine
  cpu : Cpu
  programs : Word → Cpu

namespace Processor

/-- The process that is on the processor. -/
def current (P : Processor) : Word := BitVec.ofNat 32 P.machine.kernel.currentProcess

end Processor

/-- What happens while a process is on the processor: it computes, in its registers; it stores a
byte; it updates its state; or it is interrupted by the timer, upon which bytes are pushed onto its
kernel stack, until the C code ends with the processor `d`. -/
inductive ProcessorOp
  | compute (c : Cpu)
  | store (addr : Word) (b : UInt8)
  | update (state : UInt8)
  | interrupt (handlerEip returnAddress : Word) (pushed : List (ℕ × UInt8)) (d : Cpu)

/-- The processor at the entry of `timer_handler`. -/
def timerEntry (usable : BitVec 16 → BitVec 16 → Bool) (c : Cpu)
    (handlerEip returnAddress : Word) : Cpu :=
  (c.interrupt 0x08 handlerEip).run usable 19 (timerHandlerWrapper returnAddress)

/-- The arguments of `timer_handler`. -/
def handlerContext (e : Cpu) : Context := readContext e.mem (e.reg .esp + 4)

/-- The code that is run after the C code. -/
def exitCode : Option SwitchArguments → List Instr
  | some _ => switchContextCode
  | none => timerHandlerReturn

/-- Bytes are pushed. -/
def pushes (pushed : List (ℕ × UInt8)) : List MachineOp :=
  pushed.map fun x => .kernelPush x.1 x.2

/-- One step. -/
def Image.process (img : Image) (usable : BitVec 16 → BitVec 16 → Bool) (P : Processor) :
    ProcessorOp → Option Processor
  | .compute c => some { P with cpu := c, programs := Function.update P.programs P.current c }
  | .store addr b => (img.step P.machine (.userStore addr b)).map fun m => { P with machine := m }
  | .update state => (img.step P.machine (.updateProcess state)).map fun m =>
      { P with machine := m }
  | .interrupt handlerEip returnAddress pushed d =>
      let c := handlerContext (timerEntry usable P.cpu handlerEip returnAddress)
      (exec img.step P.machine (pushes pushed)).bind fun m =>
        (m.kernel.timerHandler img.tss m.switching c).bind fun r =>
          (img.step m (.timer c)).map fun m' =>
            { P with machine := m', cpu := d.run usable 24 (exitCode r.2) }

/-- `timer_handler` has returned: its arguments are still on the stack. -/
structure Returns (c e d : Cpu) : Prop where
  esp : d.reg .esp = e.reg .esp + 4
  cr3 : d.cr3 = c.cr3
  stack : ∀ i < 17, d.mem.read32 (d.reg .esp + BitVec.ofNat 32 (4 * i))
    = e.mem.read32 (d.reg .esp + BitVec.ofNat 32 (4 * i))

/-- How the C code ends: with its arguments for `switch_context`, or by returning. -/
def Ends (c e d : Cpu) : Option SwitchArguments → Prop
  | some a => PassedTo d a
  | none => Returns c e d

/-- A process stays outside ring 0 with the page directory that is loaded, and does not end; the C
code stays on the kernel stack of the process, and ends in ring 0. -/
def Image.Permits (img : Image) (usable : BitVec 16 → BitVec 16 → Bool) (P : Processor) :
    ProcessorOp → Prop
  | .compute c => UserMode usable c ∧ c.cr3 = P.cpu.cr3
  | .store _ _ => True
  | .update state => state = 0 ∨ state = 1
  | .interrupt handlerEip returnAddress pushed d =>
      let e := timerEntry usable P.cpu handlerEip returnAddress
      Meets img.step img.Allows P.machine (pushes pushed) ∧ d.privilege = 0 ∧
        ∀ m r, exec img.step P.machine (pushes pushed) = some m →
          m.kernel.timerHandler img.tss m.switching (handlerContext e) = some r →
            Ends P.cpu e d r.2

/-- The program of a process that has not been on the processor. -/
def Context.program (x : Context) : Cpu where
  reg := fun
    | .eax => x.genRegs.eax | .ebx => x.genRegs.ebx | .ecx => x.genRegs.ecx
    | .edx => x.genRegs.edx | .esi => x.genRegs.esi | .edi => x.genRegs.edi
    | .ebp => x.genRegs.ebp | .esp => x.frame.esp
  seg := fun
    | .ds => x.segRegs.ds.setWidth 16 | .es => x.segRegs.es.setWidth 16
    | .fs => x.segRegs.fs.setWidth 16 | .gs => x.segRegs.gs.setWidth 16
  eip := x.frame.eip
  eflags := x.frame.eflags
  cs := x.frame.cs.setWidth 16
  ss := x.frame.ss.setWidth 16
  cr3 := 0
  mem := fun _ => 0
  esp0 := 0
  ss0 := 0
  ports := []

/-- `force_enter_userland`, up to the `iret` of `switch_context`; `d` is the processor when
`switch_context` is called. -/
def Image.enter (img : Image) (usable : BitVec 16 → BitVec 16 → Bool) (m : Machine) (d : Cpu) :
    Processor where
  machine := { m with kernel := m.kernel.forceEnterUserland img.tss }
  cpu := d.run usable 24 switchContextCode
  programs p := (m.captured p).dispatched.program

/-! ### The invariant -/

variable {img : Image} {m m' : Machine} {k k' : Kernel} {s s' : Scheduler} {bs : List Block}
  {tables free : List ℕ} {P P' : Processor}

/-- The registers of every process are on the processor, or in its descriptor as they were captured;
only those of a process that has halted are lost. -/
structure Image.Runs (img : Image) (usable : BitVec 16 → BitVec 16 → Bool) (P : Processor)
    (s : Scheduler) (bs : List Block) (tables free : List ℕ) : Prop where
  sound : img.Sound P.machine s bs tables free
  on : P.machine.switching = true
  directory : ∃ d, (P.machine.kernel.currentProcess, d) ∈ P.machine.kernel.processes ∧
    P.cpu.cr3.toNat = sub32 d kernelBase ∧ P.machine.kernel.cr3.headD 0 = sub32 d kernelBase
  same : SameRegisters (P.programs s.currentProcess) P.cpu
  user : ∀ p ∈ s.live, UserMode usable (P.programs p)
  waiting : ∀ p ∈ s.live, p ≠ s.currentProcess → (s.desc p).state = 0 →
    (P.machine.captured p).dispatched = interruptedContext (P.programs p)

/-- The context of a new process is that of its program. -/
theorem interruptedContext_program (eip : Word) :
    interruptedContext (initialContext eip).program = initialContext eip := by
  simp [interruptedContext, Context.program, initialContext, Cpu.privilege]

/-- A new program begins in ring 3. -/
theorem privilege_program (eip : Word) : (initialContext eip).program.privilege = 3 := by
  simp [Context.program, initialContext, Cpu.privilege]

/-- A new program begins in user mode. -/
theorem userMode_program (husable : usable 3 0x23 = true) (eip : Word) :
    UserMode usable (initialContext eip).program := by
  have hring : (3 : BitVec 16) ≠ 0 := by decide
  refine ⟨(privilege_program eip).symm ▸ hring, fun s => ?_⟩
  have hseg : ∀ s, (initialContext eip).program.seg s = 0x23 := fun s => by cases s <;> rfl
  rw [hseg, privilege_program, Cpu.returnSeg, if_pos husable]

/-- What the machine captures of a program. -/
theorem dispatched_handlerContext (c : Cpu) (handlerEip returnAddress : Word) :
    (Capture.interrupted (handlerContext (timerEntry usable c handlerEip returnAddress))).dispatched
      = interruptedContext c :=
  saved_context c _ 0x08 handlerEip returnAddress rfl

namespace Image.Runs

/-- The process on the processor is the current one of the scheduler. -/
theorem current_eq (h : img.Runs usable P s bs tables free) : P.current = s.currentProcess :=
  h.sound.records.ofNat_current

/-- It is in the ring. -/
theorem current_mem (h : img.Runs usable P s bs tables free) : s.currentProcess ∈ s.live := by
  obtain ⟨d, hd, -⟩ := h.directory
  have hmem := Kernel.mem_descriptors hd
  rw [← h.sound.records.live] at hmem
  obtain ⟨p, hp, he⟩ := List.mem_map.mp hmem
  exact BitVec.eq_of_toNat_eq (he.trans h.sound.records.current.symm) ▸ hp

/-- So there is a current process. -/
theorem current_ne (h : img.Runs usable P s bs tables free) : s.currentProcess ≠ 0 := fun hz =>
  h.sound.faithful.ring.null (hz ▸ h.current_mem)

/-- **A step of the machine** that keeps who is on the processor. -/
theorem stays {m : Machine} (h : img.Runs usable P s bs tables free)
    (hsound : img.Sound m s' bs tables free) (hon : m.switching = true)
    (hcurrent : s'.currentProcess = s.currentProcess) (hlive : s'.live = s.live)
    (hstate : ∀ p, p ≠ s.currentProcess → s'.desc p = s.desc p)
    (hprocesses : m.kernel.processes = P.machine.kernel.processes)
    (hcr3 : m.kernel.cr3 = P.machine.kernel.cr3) (hcaptured : m.captured = P.machine.captured) :
    img.Runs usable { P with machine := m } s' bs tables free := by
  have hsame : m.kernel.currentProcess = P.machine.kernel.currentProcess := by
    rw [← hsound.records.current, ← h.sound.records.current, hcurrent]
  refine ⟨hsound, hon, ?_, hcurrent ▸ h.same, hlive ▸ h.user, fun p hp hne h0 => ?_⟩
  · rw [hsame, hprocesses, hcr3]
    exact h.directory
  · rw [hcurrent] at hne
    rw [hstate p hne] at h0
    exact hcaptured ▸ h.waiting p (hlive ▸ hp) hne h0

/-- **A process computes.** -/
theorem compute (h : img.Runs usable P s bs tables free) (hc : UserMode usable c)
    (hcr3 : c.cr3 = P.cpu.cr3) :
    img.Runs usable { P with cpu := c, programs := Function.update P.programs P.current c } s bs
      tables free := by
  rw [h.current_eq]
  refine ⟨h.sound, h.on, ?_, ?_, fun p hp => ?_, fun p hp hne h0 => ?_⟩
  · rw [hcr3]
    exact h.directory
  · simp only [Function.update_self]
    exact SameRegisters.refl c
  · by_cases he : p = s.currentProcess
    · subst he
      simpa only [Function.update_self] using hc
    · simpa only [Function.update_of_ne he] using h.user p hp
  · simpa only [Function.update_of_ne hne] using h.waiting p hp hne h0

/-- **A process stores a byte.** -/
theorem store {addr : Word} {b : UInt8} (h : img.Runs usable P s bs tables free)
    (hstep : img.step P.machine (.userStore addr b) = some m) :
    img.Runs usable { P with machine := m } s bs tables free := by
  obtain ⟨k', hk, rfl⟩ := Option.map_eq_some_iff.mp hstep
  exact h.stays (h.sound.userStore addr.isLt hk) h.on rfl rfl (fun _ _ => rfl)
    (Kernel.userStore_processes hk) (Kernel.userStore_cr3 hk) rfl

/-- **A process updates its state.** -/
theorem update {state : UInt8} (h : img.Runs usable P s bs tables free)
    (hstate : state = 0 ∨ state = 1)
    (hstep : img.step P.machine (.updateProcess state) = some m) :
    img.Runs usable { P with machine := m } (updateProcess s (BitVec.ofNat 8 state.toNat)) bs tables
      free := by
  obtain rfl := Option.some.inj hstep
  have hc : P.machine.kernel.currentProcess ≠ 0 := fun hz => h.current_ne
    (BitVec.eq_of_toNat_eq (h.sound.records.current.trans hz))
  exact h.stays (h.sound.updateProcess ⟨hc, hstate⟩) h.on rfl rfl
    (fun p hp => Scheduler.desc_modify_of_ne _ _ _ hp) rfl rfl rfl

/-- **Bytes are pushed** onto the kernel stack. -/
theorem push {pushed : List (ℕ × UInt8)} (h : img.Runs usable P s bs tables free)
    (hops : Meets img.step img.Allows P.machine (pushes pushed))
    (hrun : exec img.step P.machine (pushes pushed) = some m) :
    img.Runs usable { P with machine := m } s bs tables free := by
  induction pushed generalizing P with
  | nil =>
      obtain rfl := Option.some.inj hrun
      exact h
  | cons x pushed ih =>
      obtain ⟨u, hu, hrest⟩ := exec_cons_inv hrun
      obtain rfl := Option.some.inj hu
      have hone := h.stays (h.sound.kernelPush hops.1) h.on rfl rfl (fun _ _ => rfl) rfl rfl rfl
      have hall := ih hone (hops.2 _ rfl) hrest
      exact hall

/-! ### Interrupts -/

/-- The words that the wrapper has pushed, when `timer_handler` has returned. -/
theorem onStack_returns (hp : UserMode usable c) {handlerEip returnAddress : Word}
    (h : Returns c (timerEntry usable c handlerEip returnAddress) d) :
    d.reg .esp = frameAddress c - 48 ∧
      d.OnStack ([(c.seg .ds).setWidth 32, (c.seg .es).setWidth 32, (c.seg .fs).setWidth 32,
        (c.seg .gs).setWidth 32, c.reg .edi, c.reg .esi, c.reg .ebp, c.reg .ebx, c.reg .edx,
        c.reg .ecx, c.reg .eax, frameAddress c] ++
          [c.eip, c.cs.setWidth 32, c.eflags, c.reg .esp, c.ss.setWidth 32]) := by
  have hstack := @onStack_handler usable c 0x08 handlerEip returnAddress
  rw [if_neg hp.ring] at hstack
  have hesp := @esp_handler usable c 0x08 handlerEip returnAddress
  have hd : d.reg .esp = frameAddress c - 48 := by
    rw [h.esp, timerEntry, hesp]
    bv_omega
  refine ⟨hd, WordsAt.congr ?_ fun i hi => h.stack i hi⟩
  rw [h.esp]
  exact hstack.2

/-- What is captured of a process that can go on, when an interrupt switches. -/
theorem saved (h : img.Runs usable P s bs tables free) (hc : s.currentProcess ≠ 0)
    (hmore : s.next s.currentProcess ≠ s.currentProcess) (handlerEip returnAddress : Word)
    {p : Word} (hp : p ∈ s.live) (h0 : (s.desc p).state = 0) :
    (P.machine.record (handlerContext (timerEntry usable P.cpu handlerEip returnAddress))
      p).dispatched = interruptedContext (P.programs p) := by
  have hcaptures := @dispatched_handlerContext usable P.cpu handlerEip returnAddress
  rw [h.sound.record_eq h.on, History.record, if_neg (not_or.mpr ⟨hc, hmore⟩)]
  by_cases he : p = s.currentProcess
  · subst he
    have hrunning : s.current.state = processRunning := h0
    rw [if_pos hrunning, Function.update_self, hcaptures]
    exact h.same.interruptedContext (h.user _ hp).ring
  · split
    · rw [Function.update_of_ne he]
      exact h.waiting p hp he h0
    · exact h.waiting p hp he h0

/-- **The context that is passed** to `switch_context` is that of the program that goes on. -/
theorem dispatches {handlerEip returnAddress : Word} {a : SwitchArguments}
    (h : img.Runs usable P s bs tables free)
    (hk : P.machine.kernel.timerHandler img.tss P.machine.switching
      (handlerContext (timerEntry usable P.cpu handlerEip returnAddress)) = some (k', some a)) :
    BitVec.ofNat 32 k'.currentProcess ∈ s.live ∧
      a.context = interruptedContext (P.programs (BitVec.ofNat 32 k'.currentProcess)) := by
  obtain ⟨hcontext, -⟩ := h.sound.timer_enters hk
  rw [Kernel.timerHandler, if_pos h.on] at hk
  obtain ⟨s', hs, h'⟩ := h.sound.timer h.on hk
  rcases switchProcess_cases hs with ⟨-, -, hout⟩ | ⟨hc, hmore, -⟩
  · cases hout
  obtain ⟨hlive, -, hmem, hnot⟩ := h.sound.faithful.ring.switched hs hc hmore
  have hentered := ((hlive _).mp hmem).1
  have hruns := (h.sound.state _ hentered).resolve_right hnot
  have hcurrent : BitVec.ofNat 32 k'.currentProcess = s'.currentProcess := h'.records.ofNat_current
  rw [hcurrent] at hcontext ⊢
  exact ⟨hentered, hcontext.trans (h.saved hc hmore _ _ hentered hruns)⟩

/-- **An interrupt.** -/
theorem interrupt {handlerEip returnAddress : Word} {r : Kernel × Option SwitchArguments}
    (h : img.Runs usable P s bs tables free) (hd : d.privilege = 0)
    (hends : Ends P.cpu (timerEntry usable P.cpu handlerEip returnAddress) d r.2)
    (hk : P.machine.kernel.timerHandler img.tss P.machine.switching
      (handlerContext (timerEntry usable P.cpu handlerEip returnAddress)) = some r)
    (hstep : img.step P.machine
      (.timer (handlerContext (timerEntry usable P.cpu handlerEip returnAddress))) = some m) :
    ∃ s', img.Runs usable { P with machine := m, cpu := d.run usable 24 (exitCode r.2) } s' bs
      tables free := by
  have hsaves := h.saved
  have hdispatches : ∀ k' a, P.machine.kernel.timerHandler img.tss P.machine.switching
      (handlerContext (timerEntry usable P.cpu handlerEip returnAddress)) = some (k', some a) →
        BitVec.ofNat 32 k'.currentProcess ∈ s.live ∧
          a.context = interruptedContext (P.programs (BitVec.ofNat 32 k'.currentProcess)) :=
    fun k' a hk => h.dispatches hk
  set ctx := handlerContext (timerEntry usable P.cpu handlerEip returnAddress) with hctx
  have hcpu := h.same.userMode (h.user _ h.current_mem)
  obtain ⟨k', out⟩ := r
  obtain ⟨r', hk', rfl⟩ := Option.map_eq_some_iff.mp hstep
  obtain rfl := Option.some.inj (hk.symm.trans hk')
  have hswitch := hk
  rw [Kernel.timerHandler, if_pos h.on] at hswitch
  obtain ⟨s', hs, h'⟩ := h.sound.timer h.on hswitch
  rcases switchProcess_cases hs with ⟨hstays, rfl, rfl⟩ | ⟨hc, hmore, q, -, -, hout⟩
  · -- the handler returns, and nothing has changed
    have hrecord := h.sound.record_eq h.on ctx
    obtain ⟨u, -, -, -, hstay, -⟩ := h.sound.switchProcess hswitch
    obtain ⟨-, rfl, -⟩ := hstay ((h.sound.records.stays_iff h.sound.faithful.ring).mp hstays)
    rw [History.record, if_pos hstays] at hrecord
    obtain ⟨hesp, hstack⟩ := onStack_returns hcpu hends
    obtain ⟨hback, hcr3⟩ := returned hcpu hd hesp hstack
    refine ⟨s', h', h.on, ?_, h.same.trans hback, h.user, fun p hp hne h0 => ?_⟩
    · obtain ⟨dir, hmem, hcpu', hdir⟩ := h.directory
      refine ⟨dir, hmem, ?_, hdir⟩
      rw [← hcpu', ← hends.cr3]
      exact congrArg BitVec.toNat hcr3
    · have hsame := h.waiting p hp hne h0
      rw [← hrecord] at hsame
      exact hsame
  · -- the handler has called `switch_context`
    obtain rfl := hout
    obtain ⟨-, henters⟩ := h.sound.timer_enters hk
    obtain ⟨hentered, hcontext⟩ := hdispatches k' _ hk
    have he : BitVec.ofNat 32 k'.currentProcess = s'.currentProcess := h'.records.ofNat_current
    rw [he] at hentered hcontext
    obtain ⟨hlive, hstate, -⟩ := h.sound.faithful.ring.switched hs hc hmore
    have hpassed : PassedTo d ⟨interruptedContext (P.programs s'.currentProcess),
        (switchArguments s').pageDirectory⟩ := hcontext ▸ hends
    obtain ⟨hback, hcr3⟩ := resumed (h.user _ hentered) hd hpassed
    refine ⟨s', h', h.on, ?_, hback, fun p hp => h.user p ((hlive p).mp hp).1,
      fun p hp _ h0 => hsaves hc hmore handlerEip returnAddress ((hlive p).mp hp).1
        (hstate p ▸ h0)⟩
    obtain ⟨dir, hdir, ha⟩ := henters.directory
    exact ⟨dir, hdir, (congrArg BitVec.toNat hcr3).trans ha, ha⟩

end Image.Runs

/-- **One step.** -/
theorem Image.Runs.step {op : ProcessorOp} (h : img.Runs usable P s bs tables free)
    (hop : img.Permits usable P op) (hstep : img.process usable P op = some P') :
    ∃ s', img.Runs usable P' s' bs tables free := by
  cases op with
  | compute c =>
      obtain rfl := Option.some.inj hstep
      exact ⟨s, h.compute hop.1 hop.2⟩
  | store addr b =>
      obtain ⟨m, hm, rfl⟩ := Option.map_eq_some_iff.mp hstep
      exact ⟨s, h.store hm⟩
  | update state =>
      obtain rfl := Option.some.inj hstep
      exact ⟨_, h.update hop rfl⟩
  | interrupt handlerEip returnAddress pushed d =>
      obtain ⟨m, hm, hrest⟩ := Option.bind_eq_some_iff.mp hstep
      obtain ⟨r, hr, hlast⟩ := Option.bind_eq_some_iff.mp hrest
      obtain ⟨m', hm', rfl⟩ := Option.map_eq_some_iff.mp hlast
      obtain ⟨hpushes, hd, hends⟩ := hop
      exact (h.push hpushes hm).interrupt hd (hends m r hm hr) hr hm'

/-- **The first process** is entered. -/
theorem Image.Sound.enter (husable : usable 3 0x23 = true) (h : img.Sound m s bs tables free)
    (hop : img.Allows m .forceEnterUserland)
    (hcreated : ∀ q ∈ m.kernel.descriptors, ∃ eip,
      m.captured (BitVec.ofNat 32 q) = .created (initialContext eip))
    (hd : d.privilege = 0) (hpassed : PassedTo d m.kernel.switchArguments) :
    img.Runs usable (img.enter usable m d) s bs tables free := by
  have hprogram : ∀ p ∈ s.live, UserMode usable (m.captured p).dispatched.program ∧
      (m.captured p).dispatched = interruptedContext (m.captured p).dispatched.program := by
    intro p hp
    obtain ⟨eip, he⟩ := hcreated _ (h.records.mem hp)
    rw [BitVec.ofNat_toNat, BitVec.setWidth_eq] at he
    rw [he]
    exact ⟨userMode_program husable eip, (interruptedContext_program eip).symm⟩
  obtain ⟨-, hmem⟩ := h.current_mem hop.2
  obtain ⟨hcontext, henters⟩ := h.force_enters hop
  rw [h.records.ofNat_current, (hprogram _ hmem).2] at hcontext
  have hpassed' : PassedTo d ⟨interruptedContext (m.captured s.currentProcess).dispatched.program,
      m.kernel.switchArguments.pageDirectory⟩ := hcontext ▸ hpassed
  obtain ⟨hback, hcr3⟩ := resumed (hprogram _ hmem).1 hd hpassed'
  refine ⟨h.forceEnterUserland hop, hop.1, ?_, hback, fun p hp => (hprogram p hp).1,
    fun p hp _ _ => (hprogram p hp).2⟩
  obtain ⟨dir, hdir, ha⟩ := henters.directory
  refine ⟨dir, hdir, (congrArg BitVec.toNat hcr3).trans ha, ?_⟩
  rw [← ha, h.records.switchArguments hmem]
  exact (h.loaded_forceEnterUserland hop.2).directory

/-- **Registers are restored, in every run**: whenever a process is on the processor, its registers
are those that it computed last, or those that `create_process` set up, and its own page directory
is loaded. -/
theorem registers_restored {ops : List MachineOp} {pops : List ProcessorOp} (hboot : Booted k)
    (husable : usable 3 0x23 = true) (h : img.Reaches k ops m)
    (henter : img.Allows m .forceEnterUserland)
    (hcreated : ∀ q ∈ m.kernel.descriptors, ∃ eip,
      m.captured (BitVec.ofNat 32 q) = .created (initialContext eip))
    (hd : d.privilege = 0) (hpassed : PassedTo d m.kernel.switchArguments)
    (hops : Meets (img.process usable) (img.Permits usable) (img.enter usable m d) pops)
    (hrun : exec (img.process usable) (img.enter usable m d) pops = some P) :
    SameRegisters (P.programs P.current) P.cpu ∧
      ∃ dir, (P.machine.kernel.currentProcess, dir) ∈ P.machine.kernel.processes ∧
        P.cpu.cr3.toNat = sub32 dir kernelBase := by
  obtain ⟨-, s, -, -, bs, tables, free, hs⟩ := machine_carriesOut hboot h
  set I : Processor → Prop := fun P => ∃ s, img.Runs usable P s bs tables free
  have hstep : ∀ P op P', I P → img.Permits usable P op → img.process usable P op = some P' →
      I P' := fun P op P' hI hop hstep => by
    obtain ⟨s, h⟩ := hI
    exact h.step hop hstep
  obtain ⟨s', h'⟩ := exec_invariant_of_meets hstep
    ⟨s, hs.enter husable henter hcreated hd hpassed⟩ hops hrun
  obtain ⟨dir, hdir, hcr3, -⟩ := h'.directory
  exact ⟨h'.current_eq ▸ h'.same, dir, hdir, hcr3⟩

/-! ### A first interrupt -/

/-- The wrapper runs in ring 0, and leaves the page directory alone. -/
theorem cs_timerEntry (c : Cpu) (handlerEip returnAddress : Word) :
    (timerEntry usable c handlerEip returnAddress).cs = 0x08 ∧
      (timerEntry usable c handlerEip returnAddress).cr3 = c.cr3 := by
  rw [timerEntry, Cpu.interrupt]
  split <;>
    simp [timerHandlerWrapper, Cpu.run, Cpu.exec, Cpu.push, Cpu.pushFrame, Cpu.enterGate,
      Cpu.takeStack]

/-- The C code can end. -/
theorem exists_ends (c : Cpu) (handlerEip returnAddress : Word) (out : Option SwitchArguments) :
    ∃ d : Cpu, d.privilege = 0 ∧ Ends c (timerEntry usable c handlerEip returnAddress) d out := by
  cases out with
  | some a =>
      exact ⟨_, privilege_kernelWith (fun _ => 0) _, 0,
        onStack_kernelWith (by simp [Context.words])⟩
  | none =>
      obtain ⟨hcs, hcr3⟩ := @cs_timerEntry usable c handlerEip returnAddress
      set e := timerEntry usable c handlerEip returnAddress
      refine ⟨e.setReg .esp (e.reg .esp + 4), ?_, by simp, ?_, fun _ _ => rfl⟩
      · rw [Cpu.privilege, Cpu.cs_setReg, hcs]
        rfl
      · rw [Cpu.cr3_setReg, hcr3]

/-- **A process that is running can be interrupted.** -/
theorem Image.Runs.exists_interrupt (h : img.Runs usable P s bs tables free)
    (hrunning : (s.desc s.currentProcess).state = 0) (handlerEip returnAddress : Word) :
    ∃ d, img.Permits usable P (.interrupt handlerEip returnAddress [] d) ∧
      (img.process usable P (.interrupt handlerEip returnAddress [] d)).isSome = true := by
  have hnot : P.machine.kernel.stateOf s.currentProcess.toNat ≠ 1 := fun he => by
    have hstate := (h.sound.records.state_iff h.current_mem 1).mpr he
    rw [hrunning] at hstate
    cases hstate
  obtain ⟨r, hr⟩ := (h.sound.timer_isSome_iff
    (handlerContext (timerEntry usable P.cpu handlerEip returnAddress))).mpr
      (Or.inr (Or.inr (Or.inr ⟨_, h.sound.records.mem h.current_mem, hnot⟩)))
  obtain ⟨d, hring, hends⟩ := @exists_ends usable P.cpu handlerEip returnAddress r.2
  refine ⟨d, ⟨trivial, hring, fun m r' hm hr' => ?_⟩, ?_⟩
  · obtain rfl := Option.some.inj hm
    obtain rfl := Option.some.inj (hr.symm.trans hr')
    exact hends
  · simp only [Image.process, pushes, List.map_nil, exec_nil, Option.bind_some, hr, Image.step,
      Option.map_some, Option.isSome_some]

/-- A process of two that computes, and is interrupted. -/
theorem registers_restored_two : ∃ m d c d' P,
    sampleImage.Reaches (bootKernel bootRam) startOps m ∧
    exec (sampleImage.process fun _ _ => true) (sampleImage.enter (fun _ _ => true) m d)
      [.compute c, .interrupt 0xc0100000 0xc0100040 [] d'] = some P ∧
    SameRegisters (P.programs P.current) P.cpu ∧
      ∃ dir, (P.machine.kernel.currentProcess, dir) ∈ P.machine.kernel.processes ∧
        P.cpu.cr3.toNat = sub32 dir kernelBase := by
  obtain ⟨m, s, bs, tables, free, hreaches, h, hop, -, hrunning, hcreated⟩ :=
    start_runs booted_zeroRam heapInv_bootRam clean_bootRam
  have hpassed : PassedTo (kernelWith (fun _ => 0) (0 :: (m.kernel.switchArguments.context.words ++
      [m.kernel.switchArguments.pageDirectory]))) m.kernel.switchArguments :=
    ⟨0, onStack_kernelWith (by simp [Context.words])⟩
  generalize hd : kernelWith _ _ = d at hpassed
  have hring : d.privilege = 0 := hd ▸ privilege_kernelWith _ _
  have hruns := @Image.Sound.enter (fun _ _ => true) d _ _ _ _ _ _ rfl h hop hcreated hring hpassed
  set P := sampleImage.enter (fun _ _ => true) m d
  set c : Cpu := { userProgram with cr3 := P.cpu.cr3 }
  have huser : UserMode (fun _ _ => true) c :=
    ⟨show userProgram.privilege ≠ 0 by decide, fun _ => rfl⟩
  have hone := hruns.compute huser rfl
  set P₁ : Processor := { P with cpu := c, programs := Function.update P.programs P.current c }
  have hstep : sampleImage.process (fun _ _ => true) P (.compute c) = some P₁ := rfl
  obtain ⟨d', hpermits, hsome⟩ := hone.exists_interrupt (hrunning _ hone.current_mem) 0xc0100000
    0xc0100040
  obtain ⟨P₂, hlast⟩ := Option.isSome_iff_exists.mp hsome
  have hexec : exec (sampleImage.process fun _ _ => true) P
      [.compute c, .interrupt 0xc0100000 0xc0100040 [] d'] = some P₂ :=
    (exec_cons hstep _).trans (exec_concat (exec_nil P₁) hlast)
  have hmeets : Meets (sampleImage.process fun _ _ => true) (sampleImage.Permits fun _ _ => true) P
      [.compute c, .interrupt 0xc0100000 0xc0100040 [] d'] := by
    refine ⟨⟨huser, rfl⟩, fun u hu => ?_⟩
    obtain rfl := Option.some.inj (hstep.symm.trans hu)
    exact ⟨hpermits, fun _ _ => trivial⟩
  exact ⟨m, d, c, d', P₂, hreaches, hexec, registers_restored booted_zeroRam rfl hreaches hop
    hcreated hring hpassed hmeets hexec⟩

end LoofOS
