import LoofOS.TimerSwitch

/-!
# From Booting to the First Process

`kernel_main` from `enable_interrupts()` to the `iret` of `force_enter_userland()`, as a
list of steps between any two of which a timer interrupt may come. The thread that boots
has no descriptor. Once switching is enabled, an interrupt takes it for the process that
`current_process` points to, and saves its registers there.

A run is a sequence of steps of `kernel_main` and of timer interrupts, which go on after
the processes have taken over. `HandedOver` says that no context of `kernel_main` was
stored and that every process was first given the CPU with the context that
`create_process` had built. It holds of a run exactly when no interrupt came while
`kernel_main` was on the CPU with switching enabled (`handedOver_iff`).

## Main results

* `complete_createProcessSteps`: the assignments of `create_process`, taken one by one.
* `words_enterSteps`: the arguments that `force_enter_userland` pushes.
* `bootStep_outside`, `tick_inside`: an interrupt outside the window and inside.
* `handedOver_iff`: the condition for a run.
-/

namespace LoofOS

open X86 Run

/-! ### The steps of `kernel_main` -/

/-- A step of `kernel_main`: an assignment, a test whether `current_process` is null with
the assignments of its two branches, or a step of entering the first process. -/
inductive KernelStep
  | sti
  | assign (f : Scheduler → Scheduler)
  | ifNull (yes no : List (Scheduler → Scheduler))
  | enableSwitching
  | push (f : Scheduler → Word)
  | setTssStack
  | call
  | instr (i : Instr)
  | iret

/-- What the three calls of `kernel_allocate` in a call of `create_process` return. -/
structure Allocated where
  process : Word
  stack : Word
  directory : Word
  deriving DecidableEq

/-- An assignment to a field of the descriptor at `p`. -/
def setField (p : Word) (f : ProcessDesc → ProcessDesc) : KernelStep :=
  .assign fun s => s.modify p f

/-- `create_process`, as far as the scheduler sees it. -/
def createProcessSteps (a : Allocated) (eip : Word) : List KernelStep :=
  let p := a.process
  let codeSegment : Word := 0x18 ||| 3
  let dataSegment : Word := 0x20 ||| 3
  [.assign fun s => { s with live := p :: s.live },
    setField p fun d => { d with frame := { d.frame with eip := eip } },
    setField p fun d => { d with frame := { d.frame with cs := codeSegment } },
    setField p fun d => { d with frame := { d.frame with eflags := 1 <<< 9 } },
    setField p fun d => { d with frame := { d.frame with esp := BitVec.ofNat 32 kernelBase - 4 } },
    setField p fun d => { d with frame := { d.frame with ss := dataSegment } },
    setField p fun d => { d with segRegs := { d.segRegs with ds := dataSegment } },
    setField p fun d => { d with segRegs := { d.segRegs with es := dataSegment } },
    setField p fun d => { d with segRegs := { d.segRegs with fs := dataSegment } },
    setField p fun d => { d with segRegs := { d.segRegs with gs := dataSegment } },
    setField p fun d => { d with genRegs := { d.genRegs with edi := 0 } },
    setField p fun d => { d with genRegs := { d.genRegs with esi := 0 } },
    setField p fun d => { d with genRegs := { d.genRegs with ebp := d.frame.esp } },
    setField p fun d => { d with genRegs := { d.genRegs with ebx := 0 } },
    setField p fun d => { d with genRegs := { d.genRegs with edx := 0 } },
    setField p fun d => { d with genRegs := { d.genRegs with ecx := 0 } },
    setField p fun d => { d with genRegs := { d.genRegs with eax := 0 } },
    setField p fun d => { d with genRegs := { d.genRegs with esp := 0 } },
    setField p fun d => { d with esp0 := a.stack + 4092 },
    setField p fun d => { d with pageDirectory := a.directory },
    setField p fun d => { d with state := 0 },
    .ifNull
      [fun s => s.setCurrent p, fun s => s.setNext s.currentProcess p,
        fun s => s.setPrev s.currentProcess p]
      [fun s => s.setNext p s.currentProcess, fun s => s.setPrev p (s.prev s.currentProcess),
        fun s => s.setNext (s.prev s.currentProcess) p, fun s => s.setPrev s.currentProcess p]]

/-- The words of the arguments of `switch_context`, in memory order. -/
def SwitchArguments.words (a : SwitchArguments) : List Word := a.context.words ++ [a.pageDirectory]

/-- `force_enter_userland`: the call of `set_tss_stack`, the arguments of `switch_context`
from the last one to the first, and `switch_context`. -/
def enterSteps : List KernelStep :=
  [.push fun s => s.current.esp0, .setTssStack] ++
    ((List.range 18).reverse.map fun i => .push fun s => (switchArguments s).words.getD i 0) ++
    .call :: switchContextBody.map .instr ++ [.iret]

/-- `kernel_main` from `enable_interrupts` on; `a` and `a'` are what the two calls of
`create_process(0)` allocate. -/
def kernelMainSteps (a a' : Allocated) : List KernelStep :=
  .sti :: (createProcessSteps a 0 ++ (createProcessSteps a' 0 ++ .enableSwitching :: enterSteps))

/-! ### Runs -/

/-- The state while the system boots and afterwards: the scheduler, the interrupt flag and
`switching_enabled`; what `kernel_main` still has to do, the words it has pushed, and
whether it is on the CPU; the process whose descriptor holds its context; the contexts
with which processes were given the CPU, in this order; and the processes in whose
descriptors a context of `kernel_main` was stored. -/
structure Boot where
  sched : Scheduler
  interrupts : Bool
  switching : Bool
  todo : List KernelStep
  pushed : List Word
  onCpu : Bool
  savedIn : Option Word
  dispatched : List (Word × Context)
  stored : List Word

/-- What happens next: a step of `kernel_main`, or a timer interrupt that finds the
context `c`. -/
inductive BootEvent
  | advance
  | tick (c : Context)

/-- What a step of `kernel_main` does to the scheduler and to the stack. -/
def KernelStep.effect : KernelStep → Scheduler × List Word → Scheduler × List Word
  | .assign f, (s, ws) => (f s, ws)
  | .push f, (s, ws) => (s, f s :: ws)
  | .setTssStack, (s, w :: ws) => (LoofOS.setTssStack s w, ws)
  | _, t => t

/-- The context among the words that were pushed for `switch_context`. -/
def pushedContext : List Word → Option Context
  | [ds, es, fs, gs, edi, esi, ebp, ebx, edx, ecx, eax, esp, eip, cs, eflags, uesp, ss, _] =>
      some ⟨⟨ds, es, fs, gs⟩, ⟨edi, esi, ebp, ebx, edx, ecx, eax, esp⟩,
        ⟨eip, cs, eflags, uesp, ss⟩⟩
  | _ => none

/-- The `iret` of `force_enter_userland` gives the CPU to the current process. A context
with its own kernel stack is one of `kernel_main`, on a stack that the arguments have
overwritten. -/
def Boot.enter (b : Boot) : Option Boot :=
  (pushedContext b.pushed).bind fun c =>
    if c.genRegs.esp = 0 then
      some { b with
        pushed := []
        onCpu := false
        dispatched := b.dispatched ++ [(b.sched.currentProcess, c)] }
    else none

/-- One step of `kernel_main`. -/
def Boot.advance (b : Boot) : Option Boot :=
  if b.onCpu then
    match b.todo with
    | [] => none
    | .sti :: rest => some { b with interrupts := true, todo := rest }
    | .ifNull yes no :: rest =>
        some { b with
          todo := (if b.sched.currentProcess = 0 then yes else no).map .assign ++ rest }
    | .enableSwitching :: rest => some { b with switching := true, todo := rest }
    | .iret :: rest => Boot.enter { b with todo := rest }
    | st :: rest =>
        some { b with
          todo := rest
          sched := (st.effect (b.sched, b.pushed)).1
          pushed := (st.effect (b.sched, b.pushed)).2 }
  else none

/-- The process whose descriptor holds the context of `kernel_main` after `switch_process`
has saved the current one. -/
def Boot.savedInAfter (b : Boot) : Option Word :=
  if b.sched.current.state = processRunning then
    if b.onCpu then some b.sched.currentProcess
    else if b.savedIn = some b.sched.currentProcess then none
    else b.savedIn
  else b.savedIn

/-- One timer interrupt. When the process that is entered has the context of `kernel_main`,
`kernel_main` goes on. -/
def Boot.tick (b : Boot) (c : Context) : Option Boot :=
  if b.interrupts then
    (timerHandler b.switching b.sched c).map fun r =>
      match r.2 with
      | none => { b with sched := r.1 }
      | some a =>
          { b with
            sched := r.1
            savedIn := b.savedInAfter
            onCpu := b.savedInAfter == some r.1.currentProcess
            dispatched := b.dispatched ++ [(r.1.currentProcess, a.context)]
            stored :=
              if b.onCpu = true ∧ b.sched.current.state = processRunning then
                b.stored ++ [b.sched.currentProcess]
              else b.stored }
  else none

/-- One event. -/
def bootStep (b : Boot) : BootEvent → Option Boot
  | .advance => b.advance
  | .tick c => b.tick c

/-- The state at `enable_interrupts`, after `init_processes`. -/
def Boot.start (s : Scheduler) (a a' : Allocated) : Boot where
  sched := initProcesses s
  interrupts := false
  switching := false
  todo := kernelMainSteps a a'
  pushed := []
  onCpu := true
  savedIn := none
  dispatched := []
  stored := []

/-- The context with which a process is first given the CPU. -/
def Boot.firstDispatch (b : Boot) (p : Word) : Option Context :=
  (b.dispatched.find? fun d => d.1 == p).map Prod.snd

/-- No context of `kernel_main` is stored in a descriptor, and the processes are first given
the CPU with the user contexts that `create_process` has built for them. -/
structure HandedOver (created : List Word) (b : Boot) : Prop where
  unstored : b.stored = []
  first : ∀ p ∈ created, ∀ c, b.firstDispatch p = some c →
    c = initialContext 0 ∧ c.frame.eip = 0 ∧ c.frame.cs = 0x1b ∧ c.genRegs.esp = 0

/-- Outside the window: a timer interrupt does not come while `kernel_main` is on the CPU
with switching enabled. -/
def OutsideWindow (b : Boot) : BootEvent → Prop
  | .advance => True
  | .tick _ => ¬ (b.switching = true ∧ b.onCpu = true)

instance (b : Boot) : ∀ e, Decidable (OutsideWindow b e)
  | .advance => inferInstanceAs (Decidable True)
  | .tick _ => inferInstanceAs (Decidable (¬ (b.switching = true ∧ b.onCpu = true)))

/-! ### Preparing the processes -/

/-- The steps before switching is enabled. -/
def KernelStep.Prepares : KernelStep → Prop
  | .sti => True
  | .assign _ => True
  | .ifNull _ _ => True
  | _ => False

/-- The scheduler after the remaining preparing steps. -/
def complete : List KernelStep → Scheduler → Scheduler
  | [], s => s
  | .assign f :: t, s => complete t (f s)
  | .ifNull yes no :: t, s =>
      complete t ((if s.currentProcess = 0 then yes else no).foldl (fun s f => f s) s)
  | _ :: t, s => complete t s

/-- Preparing in two parts. -/
theorem complete_append (t u : List KernelStep) (s : Scheduler) :
    complete (t ++ u) s = complete u (complete t s) := by
  induction t generalizing s with
  | nil => rfl
  | cons st t ih => cases st <;> exact ih _

/-- The assignments of a branch. -/
theorem complete_assign (fs : List (Scheduler → Scheduler)) (s : Scheduler) :
    complete (fs.map .assign) s = fs.foldl (fun s f => f s) s := by
  induction fs generalizing s with
  | nil => rfl
  | cons f fs ih => exact ih (f s)

/-- Two changes of one descriptor are one change. -/
theorem Scheduler.modify_modify (s : Scheduler) (p : Word) (f g : ProcessDesc → ProcessDesc) :
    (s.modify p f).modify p g = s.modify p fun d => g (f d) := by
  simp only [modify, Function.update_self, Function.update_idem]

/-- **`create_process`**, assignment by assignment. -/
theorem complete_createProcessSteps (a : Allocated) (eip : Word) (s : Scheduler) :
    complete (createProcessSteps a eip) s =
      createProcess s a.process a.stack a.directory eip := by
  simp only [createProcessSteps, setField, complete, Scheduler.modify_modify]
  rw [createProcess, insertProcess]
  by_cases hnull : s.currentProcess = 0
  · have hnull' : ∀ f : ProcessDesc → ProcessDesc,
        ({ s with live := a.process :: s.live }.modify a.process f).currentProcess = 0 :=
      fun _ => hnull
    rw [if_pos (hnull' _), if_pos (hnull' _)]
    rfl
  · have hnull' : ∀ f : ProcessDesc → ProcessDesc,
        ¬ ({ s with live := a.process :: s.live }.modify a.process f).currentProcess = 0 :=
      fun _ => hnull
    rw [if_neg (hnull' _), if_neg (hnull' _)]
    rfl

/-- The scheduler when switching is enabled. -/
def createdScheduler (s : Scheduler) (a a' : Allocated) : Scheduler :=
  createProcess (createProcess (initProcesses s) a.process a.stack a.directory 0) a'.process
    a'.stack a'.directory 0

/-- The two processes are distinct, and neither is at the null pointer. -/
structure Distinct (a a' : Allocated) : Prop where
  left : a.process ≠ 0
  right : a'.process ≠ 0
  ne : a.process ≠ a'.process

section Created

variable (s : Scheduler) {a a' : Allocated}

/-- The first process created is the current one. -/
theorem currentProcess_created (h : Distinct a a') :
    (createdScheduler s a a').currentProcess = a.process := by
  rw [createdScheduler, createProcess, insertProcess, if_neg]
  · rfl
  · exact h.left

/-- The ring of the two processes. -/
theorem ringInv_created (h : Distinct a a') (hlive : s.live = []) :
    RingInv (createdScheduler s a a') ∧
      (createdScheduler s a a').live = [a'.process, a.process] := by
  have hnil : (initProcesses s).live = [] := hlive
  have hinit : RingInv (initProcesses s) := by
    refine ⟨?_, Or.inl ⟨rfl, hnil⟩⟩
    rw [hnil]
    exact List.not_mem_nil
  have hfirst := @RingInv.create _ a.process a.stack a.directory 0 hinit h.left
    (by rw [hnil]; exact List.not_mem_nil)
  have hone : (createProcess (initProcesses s) a.process a.stack a.directory 0).live
      = [a.process] := by
    rw [live_createProcess, hnil]
  refine ⟨hfirst.create h.right ?_, ?_⟩
  · rw [hone, List.mem_singleton]
    exact h.ne.symm
  · rw [createdScheduler, live_createProcess, hone]

/-- The current process is not the only one. -/
theorem next_created_ne (h : Distinct a a') (hlive : s.live = []) :
    (createdScheduler s a a').next (createdScheduler s a a').currentProcess
      ≠ (createdScheduler s a a').currentProcess := by
  obtain ⟨hring, htwo⟩ := ringInv_created s h hlive
  obtain ⟨l, hl, hperm⟩ := hring.of_current_ne (by
    rw [currentProcess_created s h]
    exact h.left)
  have hlen := hperm.length_eq
  rw [htwo, List.length_cons] at hlen
  intro hself
  rw [hl.next_eq_self_iff.mp hself] at hlen
  simp at hlen

/-- Both processes have the context that was built for them, and are running. -/
theorem desc_created (h : Distinct a a') {p : Word} (hp : p ∈ [a.process, a'.process]) :
    ((createdScheduler s a a').desc p).context = initialContext 0 ∧
      ((createdScheduler s a a').desc p).state = processRunning := by
  rcases List.mem_cons.mp hp with rfl | hp
  · rw [createdScheduler]
    constructor
    · rw [desc_createProcess_of_ne (g := ProcessDesc.context) (fun _ _ => rfl) (fun _ _ => rfl)
        _ _ _ _ h.ne]
      exact desc_createProcess_self (fun _ _ => rfl) (fun _ _ => rfl) _ _ _ _ _
    · rw [desc_createProcess_of_ne (g := ProcessDesc.state) (fun _ _ => rfl) (fun _ _ => rfl)
        _ _ _ _ h.ne]
      exact desc_createProcess_self (fun _ _ => rfl) (fun _ _ => rfl) _ _ _ _ _
  · obtain rfl := List.mem_singleton.mp hp
    exact ⟨desc_createProcess_self (fun _ _ => rfl) (fun _ _ => rfl) _ _ _ _ _,
      desc_createProcess_self (fun _ _ => rfl) (fun _ _ => rfl) _ _ _ _ _⟩

end Created

/-! ### Entering the first process -/

/-- The words that `force_enter_userland` pushes. -/
theorem words_enterSteps (s : Scheduler) :
    (enterSteps.dropLast.foldl (fun t st => st.effect t) (s, [])) =
      (setTssStack s s.current.esp0, (switchArguments s).words) := by
  rfl

/-- The steps that `enterSteps` consists of. -/
def KernelStep.Enters : KernelStep → Prop
  | .push _ => True
  | .setTssStack => True
  | .call => True
  | .instr _ => True
  | .iret => True
  | _ => False

/-- Every step of `force_enter_userland` enters. -/
theorem enters_of_mem {st : KernelStep} (hst : st ∈ enterSteps) : st.Enters := by
  simp only [enterSteps, List.mem_append, List.mem_cons, List.mem_map, List.not_mem_nil,
    or_false] at hst
  rcases hst with (((rfl | rfl) | ⟨i, -, rfl⟩) | rfl | ⟨i, -, rfl⟩) | rfl <;> trivial

/-- The `iret` is the last step. -/
theorem iret_last {u rest : List KernelStep} (h : enterSteps = u ++ .iret :: rest) :
    rest = [] ∧ u = enterSteps.dropLast := by
  have hnot : KernelStep.iret ∉ enterSteps.dropLast := by
    rw [enterSteps, List.dropLast_concat]
    simp
  have hrest : rest = [] := by
    by_contra hne
    rw [h, List.dropLast_append_of_ne_nil (List.cons_ne_nil _ _),
      List.dropLast_cons_of_ne_nil hne] at hnot
    exact hnot (List.mem_append_right _ List.mem_cons_self)
  refine ⟨hrest, ?_⟩
  rw [h, hrest, List.dropLast_concat]

/-- Entering changes neither a descriptor nor `current_process`. -/
theorem desc_effect {st : KernelStep} (hst : st.Enters) (t : Scheduler × List Word) :
    (st.effect t).1.desc = t.1.desc ∧ (st.effect t).1.currentProcess = t.1.currentProcess := by
  cases st with
  | assign f => exact hst.elim
  | setTssStack =>
      obtain ⟨s, ws⟩ := t
      cases ws <;> exact ⟨rfl, rfl⟩
  | _ => exact ⟨rfl, rfl⟩

/-- The context that is passed for the current process. -/
theorem pushedContext_words (s : Scheduler) :
    pushedContext (switchArguments s).words = some s.current.context := rfl

/-! ### The phases of a run -/

section Phases

variable (s : Scheduler) (a a' : Allocated)

/-- The processes are being created. -/
structure Preparing (b : Boot) : Prop where
  onCpu : b.onCpu = true
  switching : b.switching = false
  pushed : b.pushed = []
  dispatched : b.dispatched = []
  stored : b.stored = []
  savedIn : b.savedIn = none
  rest : ∃ t, b.todo = t ++ .enableSwitching :: enterSteps ∧ (∀ st ∈ t, st.Prepares) ∧
    complete t b.sched = createdScheduler s a a'

/-- Switching is enabled, and `kernel_main` is on the CPU. -/
structure Entering (b : Boot) : Prop where
  onCpu : b.onCpu = true
  switching : b.switching = true
  dispatched : b.dispatched = []
  stored : b.stored = []
  savedIn : b.savedIn = none
  done : ∃ u, enterSteps = u ++ b.todo ∧
    (b.sched, b.pushed) = u.foldl (fun t st => st.effect t) (createdScheduler s a a', [])

/-- The processes have taken over: a process that has not yet had the CPU is not the
current one and still has the context that was built for it. -/
structure Entered (b : Boot) : Prop where
  onCpu : b.onCpu = false
  stored : b.stored = []
  savedIn : b.savedIn = none
  waiting : ∀ p ∈ [a.process, a'.process], b.firstDispatch p = some (initialContext 0) ∨
    (b.firstDispatch p = none ∧ p ≠ b.sched.currentProcess ∧
      (b.sched.desc p).context = initialContext 0)

/-- No interrupt has come inside the window. -/
def Undisturbed (b : Boot) : Prop := Preparing s a a' b ∨ Entering s a a' b ∨ Entered a a' b

end Phases

section Steps

variable {s : Scheduler} {a a' : Allocated} {b b' : Boot}

/-- The boot sequence starts in preparation. -/
theorem preparing_start : Preparing s a a' (Boot.start s a a') where
  onCpu := rfl
  switching := rfl
  pushed := rfl
  dispatched := rfl
  stored := rfl
  savedIn := rfl
  rest := by
    refine ⟨.sti :: (createProcessSteps a 0 ++ createProcessSteps a' 0), ?_, ?_, ?_⟩
    · show kernelMainSteps a a' = _
      simp only [kernelMainSteps, List.cons_append, List.append_assoc]
    · have hcreate : ∀ a : Allocated, ∀ st ∈ createProcessSteps a 0, st.Prepares := by
        intro a
        simp [createProcessSteps, setField, KernelStep.Prepares]
      intro st hst
      rcases List.mem_cons.mp hst with rfl | hst
      · trivial
      · rcases List.mem_append.mp hst with hst | hst
        · exact hcreate a st hst
        · exact hcreate a' st hst
    · have hsti : ∀ t u, complete (.sti :: t) u = complete t u := fun _ _ => rfl
      rw [hsti, complete_append, complete_createProcessSteps, complete_createProcessSteps]
      rfl

/-- A step of `kernel_main` while it prepares. -/
theorem Preparing.advance (h : Preparing s a a' b) (hstep : b.advance = some b') :
    Preparing s a a' b' ∨ Entering s a a' b' := by
  obtain ⟨t, htodo, hprep, hcomplete⟩ := h.rest
  rw [Boot.advance, if_pos h.onCpu, htodo] at hstep
  cases t with
  | nil =>
      obtain rfl := Option.some.inj hstep
      exact Or.inr ⟨h.onCpu, rfl, h.dispatched, h.stored, h.savedIn, [], rfl,
        Prod.ext hcomplete h.pushed⟩
  | cons st t =>
      have hprep' : ∀ st ∈ t, st.Prepares := fun st hst => hprep st (List.mem_cons_of_mem _ hst)
      cases st with
      | sti =>
          obtain rfl := Option.some.inj hstep
          exact Or.inl ⟨h.onCpu, h.switching, h.pushed, h.dispatched, h.stored, h.savedIn, t,
            rfl, hprep', hcomplete⟩
      | assign f =>
          obtain rfl := Option.some.inj hstep
          exact Or.inl ⟨h.onCpu, h.switching, h.pushed, h.dispatched, h.stored, h.savedIn, t,
            rfl, hprep', hcomplete⟩
      | ifNull yes no =>
          obtain rfl := Option.some.inj hstep
          refine Or.inl ⟨h.onCpu, h.switching, h.pushed, h.dispatched, h.stored, h.savedIn,
            (if b.sched.currentProcess = 0 then yes else no).map .assign ++ t, ?_, ?_, ?_⟩
          · exact (List.append_assoc _ _ _).symm
          · intro st hst
            rcases List.mem_append.mp hst with hst | hst
            · obtain ⟨f, -, rfl⟩ := List.mem_map.mp hst
              trivial
            · exact hprep' st hst
          · rw [complete_append, complete_assign]
            exact hcomplete
      | _ => exact (hprep _ List.mem_cons_self).elim

/-- The scheduler while `kernel_main` enters the first process. -/
theorem Entering.sched (h : Entering s a a' b) :
    b.sched.desc = (createdScheduler s a a').desc ∧
      b.sched.currentProcess = (createdScheduler s a a').currentProcess := by
  obtain ⟨u, htodo, hdone⟩ := h.done
  have hfold : ∀ (v : List KernelStep) (t : Scheduler × List Word), (∀ st ∈ v, st ∈ enterSteps) →
      (v.foldl (fun t st => st.effect t) t).1.desc = t.1.desc ∧
        (v.foldl (fun t st => st.effect t) t).1.currentProcess = t.1.currentProcess := by
    intro v
    induction v with
    | nil => exact fun t _ => ⟨rfl, rfl⟩
    | cons st v ih =>
        intro t hv
        obtain ⟨hdesc, hcurrent⟩ := desc_effect (enters_of_mem (hv st List.mem_cons_self)) t
        obtain ⟨hdesc', hcurrent'⟩ := ih (st.effect t) fun x hx => hv x (List.mem_cons_of_mem _ hx)
        exact ⟨hdesc'.trans hdesc, hcurrent'.trans hcurrent⟩
  have hu := hfold u (createdScheduler s a a', []) fun st hst => by
    rw [htodo]
    exact List.mem_append_left _ hst
  rw [← hdone] at hu
  exact hu

/-- What one more dispatch means for the first one. -/
theorem firstDispatch_append {q : Word} {c : Context}
    (h : b'.dispatched = b.dispatched ++ [(q, c)]) (p : Word) :
    b'.firstDispatch p = (b.firstDispatch p).or (if q = p then some c else none) := by
  rw [Boot.firstDispatch, h, List.find?_append, Boot.firstDispatch]
  cases b.dispatched.find? fun d => d.1 == p with
  | some d => rfl
  | none =>
      by_cases hq : q = p
      · simp [hq]
      · simp [hq]

/-- A step of `kernel_main` while it enters the first process. -/
theorem Entering.advance (h : Entering s a a' b) (hd : Distinct a a')
    (hstep : b.advance = some b') : Entering s a a' b' ∨ Entered a a' b' := by
  obtain ⟨hdesc, hcurrent⟩ := h.sched
  obtain ⟨u, htodo, hdone⟩ := h.done
  rw [Boot.advance, if_pos h.onCpu] at hstep
  cases hrest : b.todo with
  | nil =>
      rw [hrest] at hstep
      cases hstep
  | cons st rest =>
      rw [hrest] at hstep htodo
      have henters : st.Enters := by
        refine enters_of_mem ?_
        rw [htodo]
        exact List.mem_append_right _ List.mem_cons_self
      have hquiet : b' = { b with
          todo := rest
          sched := (st.effect (b.sched, b.pushed)).1
          pushed := (st.effect (b.sched, b.pushed)).2 } → Entering s a a' b' := by
        rintro rfl
        refine ⟨h.onCpu, h.switching, h.dispatched, h.stored, h.savedIn, u ++ [st], ?_, ?_⟩
        · rw [htodo, List.append_assoc]
          rfl
        · rw [List.foldl_append, ← hdone]
          rfl
      cases st with
      | push f => exact Or.inl (hquiet (Option.some.inj hstep).symm)
      | setTssStack => exact Or.inl (hquiet (Option.some.inj hstep).symm)
      | call => exact Or.inl (hquiet (Option.some.inj hstep).symm)
      | instr i => exact Or.inl (hquiet (Option.some.inj hstep).symm)
      | iret =>
          obtain ⟨rfl, hu⟩ := iret_last htodo
          rw [hu, words_enterSteps] at hdone
          have hpushed : pushedContext b.pushed = some (initialContext 0) := by
            rw [(Prod.mk.inj hdone).2, pushedContext_words, Scheduler.current,
              currentProcess_created s hd, (desc_created s hd List.mem_cons_self).1]
          have hstep' : Boot.enter { b with todo := [] } = some b' := hstep
          rw [Boot.enter] at hstep'
          simp only [hpushed, Option.bind_some] at hstep'
          have hesp : (initialContext 0).genRegs.esp = 0 := rfl
          rw [if_pos hesp] at hstep'
          obtain rfl := Option.some.inj hstep'
          refine Or.inr ⟨rfl, h.stored, h.savedIn, fun p hp => ?_⟩
          have hnone : b.firstDispatch p = none := by
            rw [Boot.firstDispatch, h.dispatched]
            rfl
          rw [firstDispatch_append (b := b) rfl p, hnone, Option.none_or]
          by_cases hp' : b.sched.currentProcess = p
          · exact Or.inl (if_pos hp')
          · refine Or.inr ⟨if_neg hp', fun he => hp' he.symm, ?_⟩
            rw [hdesc]
            exact (desc_created s hd hp).1
      | _ => exact henters.elim

/-- **An interrupt inside the window** stores the context of `kernel_main`. -/
theorem Entering.tick (h : Entering s a a' b) (hd : Distinct a a') (hlive : s.live = [])
    {c : Context} (hstep : b.tick c = some b') : b'.stored ≠ [] := by
  obtain ⟨hdesc, hcurrent⟩ := h.sched
  have hnext : b.sched.next b.sched.currentProcess ≠ b.sched.currentProcess := by
    have hne := next_created_ne s hd hlive
    rwa [← hcurrent, Scheduler.next, ← hdesc] at hne
  have hnull : b.sched.currentProcess ≠ 0 := by
    rw [hcurrent, currentProcess_created s hd]
    exact hd.left
  have hrunning : b.sched.current.state = processRunning := by
    rw [Scheduler.current, hdesc, hcurrent, currentProcess_created s hd]
    exact (desc_created s hd List.mem_cons_self).2
  rw [Boot.tick] at hstep
  split at hstep
  · obtain ⟨⟨t, out⟩, hswitch, rfl⟩ := Option.map_eq_some_iff.mp hstep
    rw [timerHandler, if_pos h.switching] at hswitch
    rcases switchProcess_cases hswitch with ⟨hstay, -, -⟩ | ⟨-, -, p, -, -, rfl⟩
    · rcases hstay with h0 | hself
      · exact absurd h0 hnull
      · exact absurd hself hnext
    · simp [h.onCpu, hrunning]
  · cases hstep

/-- **An interrupt while the processes are created** changes nothing. -/
theorem Preparing.tick (h : Preparing s a a' b) {c : Context} (hstep : b.tick c = some b') :
    b' = b := by
  rw [Boot.tick] at hstep
  split at hstep
  · have hoff : ¬ b.switching = true := by
      rw [h.switching]
      exact Bool.false_ne_true
    rw [timerHandler, if_neg hoff] at hstep
    exact (Option.some.inj hstep).symm
  · cases hstep

/-- **An interrupt after the processes have taken over**: the process that is entered has
had the CPU before, or has the context that was built for it. -/
theorem Entered.tick (h : Entered a a' b) {c : Context} (hstep : b.tick c = some b') :
    Entered a a' b' := by
  rw [Boot.tick] at hstep
  split at hstep
  · obtain ⟨⟨t, out⟩, hswitch, rfl⟩ := Option.map_eq_some_iff.mp hstep
    rw [timerHandler] at hswitch
    split at hswitch
    · rcases switchProcess_cases hswitch with ⟨-, rfl, rfl⟩ | ⟨-, -, q, -, hq, rfl⟩
      · exact h
      · have hcpu : ¬ b.onCpu = true := by
          rw [h.onCpu]
          exact Bool.false_ne_true
        have hsaved : b.savedInAfter = none := by
          simp [Boot.savedInAfter, h.onCpu, h.savedIn]
        refine ⟨?_, ?_, hsaved, fun p hp => ?_⟩
        · simp only [hsaved]
          rfl
        · rw [if_neg fun hboth => hcpu hboth.1]
          exact h.stored
        · rw [firstDispatch_append (b := b) rfl p]
          rcases h.waiting p hp with hhad | ⟨hnone, hne, hcontext⟩
          · rw [hhad]
            exact Or.inl rfl
          · have hkept := context_switchProcess_of_ne hswitch hne
            rw [hnone, Option.none_or]
            by_cases hqp : t.currentProcess = p
            · refine Or.inl ?_
              rw [if_pos hqp]
              show some (t.desc t.currentProcess).context = _
              rw [hqp, hkept, hcontext]
            · exact Or.inr ⟨if_neg hqp, fun he => hqp he.symm, hkept.trans hcontext⟩
    · obtain ⟨rfl, rfl⟩ := Prod.mk.inj (Option.some.inj hswitch)
      exact h
  · cases hstep

/-- **An event outside the window.** -/
theorem bootStep_outside (h : Undisturbed s a a' b) (hd : Distinct a a') {e : BootEvent}
    (hout : OutsideWindow b e) (hstep : bootStep b e = some b') : Undisturbed s a a' b' := by
  cases e with
  | advance =>
      rcases h with h | h | h
      · exact (h.advance hstep).imp_right Or.inl
      · exact Or.inr (h.advance hd hstep)
      · have hoff : ¬ b.onCpu = true := by
          rw [h.onCpu]
          exact Bool.false_ne_true
        have hnone : b.advance = none := if_neg hoff
        cases hnone.symm.trans hstep
  | tick c =>
      rcases h with h | h | h
      · rw [h.tick hstep]
        exact Or.inl h
      · exact absurd ⟨h.switching, h.onCpu⟩ hout
      · exact Or.inr (Or.inr (h.tick hstep))

/-- **An interrupt inside the window.** -/
theorem tick_inside (h : Undisturbed s a a' b) (hd : Distinct a a') (hlive : s.live = [])
    {e : BootEvent} (hin : ¬ OutsideWindow b e) (hstep : bootStep b e = some b') :
    b'.stored ≠ [] := by
  cases e with
  | advance => exact absurd trivial hin
  | tick c =>
      obtain ⟨hswitching, hcpu⟩ := Classical.not_not.mp hin
      rcases h with h | h | h
      · rw [h.switching] at hswitching
        cases hswitching
      · exact h.tick hd hlive hstep
      · rw [h.onCpu] at hcpu
        cases hcpu

/-- Nothing is taken back: what was stored stays recorded. -/
theorem stored_bootStep {e : BootEvent} (hne : b.stored ≠ []) (hstep : bootStep b e = some b') :
    b'.stored ≠ [] := by
  cases e with
  | advance =>
      have hadvance : b.advance = some b' := hstep
      rw [Boot.advance] at hadvance
      split at hadvance
      · split at hadvance
        · cases hadvance
        · obtain rfl := Option.some.inj hadvance
          exact hne
        · obtain rfl := Option.some.inj hadvance
          exact hne
        · obtain rfl := Option.some.inj hadvance
          exact hne
        · obtain ⟨c, -, hc⟩ := Option.bind_eq_some_iff.mp hadvance
          split at hc
          · obtain rfl := Option.some.inj hc
            exact hne
          · cases hc
        · obtain rfl := Option.some.inj hadvance
          exact hne
      · cases hadvance
  | tick c =>
      have htick : b.tick c = some b' := hstep
      rw [Boot.tick] at htick
      split at htick
      · obtain ⟨⟨t, out⟩, -, rfl⟩ := Option.map_eq_some_iff.mp htick
        cases out with
        | none => exact hne
        | some x =>
            show (if b.onCpu = true ∧ b.sched.current.state = processRunning then
              b.stored ++ [b.sched.currentProcess] else b.stored) ≠ []
            split
            · simp
            · exact hne
      · cases htick

/-- A run in which nothing is stored had no interrupt inside the window. -/
theorem meets_outside {events : List BootEvent} (hd : Distinct a a') (hlive : s.live = [])
    (h : Undisturbed s a a' b) (hrun : exec bootStep b events = some b')
    (hstored : b'.stored = []) : Meets bootStep OutsideWindow b events := by
  induction events generalizing b with
  | nil => trivial
  | cons e events ih =>
      obtain ⟨d, hstep, hrest⟩ := exec_cons_inv hrun
      have hd' : d.stored = [] := by
        by_contra hne
        exact exec_invariant (I := fun b => b.stored ≠ [])
          (fun _ _ _ hne hstep => stored_bootStep hne hstep) hne hrest hstored
      have hout : OutsideWindow b e := by
        by_contra hin
        exact tick_inside h hd hlive hin hstep hd'
      refine ⟨hout, fun d' hstep' => ?_⟩
      obtain rfl := Option.some.inj (hstep.symm.trans hstep')
      exact ih (bootStep_outside h hd hout hstep) hrest

/-- What the three phases say about the contexts. -/
theorem Undisturbed.handedOver (h : Undisturbed s a a' b) :
    HandedOver [a.process, a'.process] b := by
  have hnone : b.dispatched = [] → ∀ p, b.firstDispatch p = none := by
    intro hd p
    rw [Boot.firstDispatch, hd]
    rfl
  rcases h with h | h | h
  · exact ⟨h.stored, fun p _ c hc => by cases (hnone h.dispatched p).symm.trans hc⟩
  · exact ⟨h.stored, fun p _ c hc => by cases (hnone h.dispatched p).symm.trans hc⟩
  · refine ⟨h.stored, fun p hp c hc => ?_⟩
    rcases h.waiting p hp with hhad | ⟨hno, -, -⟩
    · obtain rfl := Option.some.inj (hhad.symm.trans hc)
      exact ⟨rfl, rfl, rfl, rfl⟩
    · cases hno.symm.trans hc

end Steps

/-- **The hand-over**, for every run of `kernel_main` and timer interrupts: no context of
`kernel_main` is stored, and both processes are first given the CPU with the context that
was built for them, exactly when no interrupt came between `enable_switching` and the end
of the `iret` of `force_enter_userland`. -/
theorem handedOver_iff {s : Scheduler} {a a' : Allocated} {events : List BootEvent} {b : Boot}
    (hlive : s.live = []) (hd : Distinct a a')
    (hrun : exec bootStep (Boot.start s a a') events = some b) :
    HandedOver [a.process, a'.process] b ↔
      Meets bootStep OutsideWindow (Boot.start s a a') events := by
  have hstart : Undisturbed s a a' (Boot.start s a a') := Or.inl preparing_start
  constructor
  · exact fun h => meets_outside hd hlive hstart hrun h.unstored
  · intro h
    have hfinal : Undisturbed s a a' b :=
      exec_invariant_of_meets (fun _ _ _ hb hout hstep => bootStep_outside hb hd hout hstep)
        hstart h hrun
    exact hfinal.handedOver

/-- The two processes of the boot, at the addresses that the heap gives out. -/
def bootProcesses : Allocated × Allocated :=
  (⟨0xd0000080, 0xd0002000, 0xd0004000⟩, ⟨0xd0000100, 0xd000a000, 0xd000c000⟩)

/-- An interrupt of a program with the given code segment. -/
def interruptOf (cs : Word) : BootEvent := .tick (interruptedAt cs 0)

/-- A boot with one interrupt while the processes are created, and two after the hand-over. -/
theorem handedOver_three_ticks :
    ∃ b, exec bootStep (Boot.start idleScheduler bootProcesses.1 bootProcesses.2)
        (List.replicate 30 .advance ++ interruptOf 0x08 ::
          (List.replicate 68 .advance ++ [interruptOf 0x1b, interruptOf 0x1b])) = some b ∧
      HandedOver [bootProcesses.1.process, bootProcesses.2.process] b := by
  have hsome : (exec bootStep (Boot.start idleScheduler bootProcesses.1 bootProcesses.2)
      (List.replicate 30 .advance ++ interruptOf 0x08 ::
        (List.replicate 68 .advance ++ [interruptOf 0x1b, interruptOf 0x1b]))).isSome = true := by
    decide +kernel
  obtain ⟨b, hb⟩ := Option.isSome_iff_exists.mp hsome
  refine ⟨b, hb, (handedOver_iff rfl ⟨by decide, by decide, by decide⟩ hb).mpr ?_⟩
  decide +kernel

/-- **An interrupt right after `enable_switching`**: the context of `kernel_main` is stored in
the descriptor of the first process. -/
theorem interrupted_boot :
    ¬ ∀ (events : List BootEvent) (b : Boot),
      exec bootStep (Boot.start idleScheduler bootProcesses.1 bootProcesses.2) events = some b →
      HandedOver [bootProcesses.1.process, bootProcesses.2.process] b := by
  intro hall
  have hrun : (exec bootStep (Boot.start idleScheduler bootProcesses.1 bootProcesses.2)
      (List.replicate 53 .advance ++ [interruptOf 0x08])).map Boot.stored
        = some [bootProcesses.1.process] := by
    decide +kernel
  obtain ⟨b, hb, hstored⟩ := Option.map_eq_some_iff.mp hrun
  have hempty := (hall _ b hb).unstored
  rw [hstored] at hempty
  cases hempty

end LoofOS
