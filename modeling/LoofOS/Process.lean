import LoofOS.Alloc
import LoofOS.LinkedRing

/-!
# Processes

The functions of `kernel/proc/process.c` and the timer handler that calls them. Process
descriptors are records at 32-bit addresses; the allocator enters only through the
addresses it returns.

`kernel_free` writes to memory, at and below the user stack pointer that it is called with. Among
the records it is taken to leave the fields of the descriptors as they are; the functions with what
it writes are those of `LoofOS.KernelSwitch`, and `LoofOS.KernelScheduler` relates the two.

`Scheduler` carries two lists that the code does not have: `freed`, the pointers that were
handed to `kernel_free`, and `live`, the descriptors that were created and not yet freed.
No function reads them.

What `create_process` does to page tables and memory is not part of this module.
-/

namespace LoofOS

/-- A `uint32_t` of the kernel, addresses included. -/
abbrev Word := BitVec 32

/-! ### Register sets -/

/-- `gen_register_set`. -/
structure GenRegisterSet where
  edi : Word
  esi : Word
  ebp : Word
  ebx : Word
  edx : Word
  ecx : Word
  eax : Word
  esp : Word
  deriving DecidableEq, Repr, Inhabited

/-- `seg_register_set`. -/
structure SegRegisterSet where
  ds : Word
  es : Word
  fs : Word
  gs : Word
  deriving DecidableEq, Repr, Inhabited

/-- `interrupt_frame`. -/
structure InterruptFrame where
  eip : Word
  cs : Word
  eflags : Word
  esp : Word
  ss : Word
  deriving DecidableEq, Repr, Inhabited

/-- The three register sets that travel together. -/
structure Context where
  segRegs : SegRegisterSet
  genRegs : GenRegisterSet
  frame : InterruptFrame
  deriving DecidableEq, Repr, Inhabited

/-! ### Descriptors -/

/-- `PROCESS_RUNNING`. -/
def processRunning : BitVec 8 := 0

/-- `PROCESS_HALTED`. -/
def processHalted : BitVec 8 := 1

/-- `process_desc`. -/
structure ProcessDesc where
  frame : InterruptFrame
  genRegs : GenRegisterSet
  segRegs : SegRegisterSet
  esp0 : Word
  pageDirectory : Word
  prev : Word
  next : Word
  state : BitVec 8
  deriving DecidableEq, Repr, Inhabited

/-- The register sets of a descriptor. -/
def ProcessDesc.context (d : ProcessDesc) : Context := ⟨d.segRegs, d.genRegs, d.frame⟩

/-- The register sets of a descriptor are assigned. -/
def ProcessDesc.setContext (d : ProcessDesc) (c : Context) : ProcessDesc :=
  { d with frame := c.frame, segRegs := c.segRegs, genRegs := c.genRegs }

@[simp] theorem ProcessDesc.context_setContext (d : ProcessDesc) (c : Context) :
    (d.setContext c).context = c := rfl

/-- The descriptors, `current_process`, the stack in the TSS, and the two lists. -/
structure Scheduler where
  desc : Word → ProcessDesc
  currentProcess : Word
  esp0 : Word
  freed : List Word
  live : List Word

namespace Scheduler

/-- Fields of the descriptor at `p` are assigned. -/
def modify (s : Scheduler) (p : Word) (f : ProcessDesc → ProcessDesc) : Scheduler :=
  { s with desc := Function.update s.desc p (f (s.desc p)) }

/-- `p->next`. -/
def next (s : Scheduler) (p : Word) : Word := (s.desc p).next

/-- `p->prev`. -/
def prev (s : Scheduler) (p : Word) : Word := (s.desc p).prev

/-- `p->next = w`. -/
def setNext (s : Scheduler) (p w : Word) : Scheduler := s.modify p fun d => { d with next := w }

/-- `p->prev = w`. -/
def setPrev (s : Scheduler) (p w : Word) : Scheduler := s.modify p fun d => { d with prev := w }

/-- `current_process = p`. -/
def setCurrent (s : Scheduler) (p : Word) : Scheduler := { s with currentProcess := p }

/-- The descriptor that `current_process` points to. -/
def current (s : Scheduler) : ProcessDesc := s.desc s.currentProcess

section Modify

variable (s : Scheduler) (p : Word) (f : ProcessDesc → ProcessDesc)

@[simp] theorem desc_modify_self : (s.modify p f).desc p = f (s.desc p) := by
  simp only [modify, Function.update_self]

theorem desc_modify_of_ne {x : Word} (h : x ≠ p) : (s.modify p f).desc x = s.desc x := by
  simp only [modify, Function.update_of_ne h]

/-- An assignment that changes no forward link. -/
theorem next_modify (hf : ∀ d, (f d).next = d.next) (x : Word) :
    (s.modify p f).next x = s.next x := by
  by_cases hx : x = p
  · subst hx
    simp only [next, desc_modify_self, hf]
  · simp only [next, desc_modify_of_ne s p f hx]

/-- An assignment that changes no backward link. -/
theorem prev_modify (hf : ∀ d, (f d).prev = d.prev) (x : Word) :
    (s.modify p f).prev x = s.prev x := by
  by_cases hx : x = p
  · subst hx
    simp only [prev, desc_modify_self, hf]
  · simp only [prev, desc_modify_of_ne s p f hx]

@[simp] theorem currentProcess_modify : (s.modify p f).currentProcess = s.currentProcess := rfl

@[simp] theorem esp0_modify : (s.modify p f).esp0 = s.esp0 := rfl

@[simp] theorem freed_modify : (s.modify p f).freed = s.freed := rfl

@[simp] theorem live_modify : (s.modify p f).live = s.live := rfl

variable (w x : Word)

@[simp] theorem next_setNext : (s.setNext p w).next x = if x = p then w else s.next x := by
  split
  · subst x
    simp only [next, setNext, desc_modify_self]
  · simp only [next, setNext, desc_modify_of_ne s p _ ‹_›]

@[simp] theorem prev_setNext : (s.setNext p w).prev x = s.prev x :=
  prev_modify s p (fun d => { d with next := w }) (fun _ => rfl) x

@[simp] theorem next_setPrev : (s.setPrev p w).next x = s.next x :=
  next_modify s p (fun d => { d with prev := w }) (fun _ => rfl) x

@[simp] theorem prev_setPrev : (s.setPrev p w).prev x = if x = p then w else s.prev x := by
  split
  · subst x
    simp only [prev, setPrev, desc_modify_self]
  · simp only [prev, setPrev, desc_modify_of_ne s p _ ‹_›]

@[simp] theorem currentProcess_setNext : (s.setNext p w).currentProcess = s.currentProcess := rfl

@[simp] theorem currentProcess_setPrev : (s.setPrev p w).currentProcess = s.currentProcess := rfl

@[simp] theorem live_setNext : (s.setNext p w).live = s.live := rfl

@[simp] theorem live_setPrev : (s.setPrev p w).live = s.live := rfl

@[simp] theorem next_setCurrent : (s.setCurrent p).next x = s.next x := rfl

@[simp] theorem prev_setCurrent : (s.setCurrent p).prev x = s.prev x := rfl

@[simp] theorem currentProcess_setCurrent : (s.setCurrent p).currentProcess = p := rfl

@[simp] theorem live_setCurrent : (s.setCurrent p).live = s.live := rfl

end Modify

end Scheduler

/-- The arguments of `switch_context`. -/
structure SwitchArguments where
  context : Context
  pageDirectory : Word
  deriving DecidableEq, Repr, Inhabited

/-! ### `process.c` -/

/-- `init_processes`. -/
def initProcesses (s : Scheduler) : Scheduler := s.setCurrent 0

/-- `set_tss_stack`. -/
def setTssStack (s : Scheduler) (esp0 : Word) : Scheduler := { s with esp0 := esp0 }

/-- What is passed to `switch_context` for the current process. -/
def switchArguments (s : Scheduler) : SwitchArguments where
  context := s.current.context
  pageDirectory := s.current.pageDirectory - BitVec.ofNat 32 kernelBase

/-- `force_enter_userland`. -/
def forceEnterUserland (s : Scheduler) : Scheduler × SwitchArguments :=
  (setTssStack s s.current.esp0, switchArguments s)

/-- The first branch of `switch_process`: the registers are saved. -/
def saveRegisters (s : Scheduler) (c : Context) : Scheduler :=
  s.modify s.currentProcess fun d => d.setContext c

/-- The calls of `kernel_free` for a process that has ended, with the saved user stack
pointer and with the descriptor, where they leave the fields of the descriptors alone. What
they write is in `Kernel.freeCurrent`. -/
def freeProcess (s : Scheduler) (p : Word) : Scheduler :=
  { s with freed := p :: (s.desc p).frame.esp :: s.freed, live := s.live.erase p }

@[simp] theorem next_freeProcess (s : Scheduler) (p x : Word) :
    (freeProcess s p).next x = s.next x := rfl

@[simp] theorem prev_freeProcess (s : Scheduler) (p x : Word) :
    (freeProcess s p).prev x = s.prev x := rfl

/-- The second branch of `switch_process`: the current process has ended. -/
def deleteCurrent (s : Scheduler) : Scheduler :=
  let current := s.currentProcess
  let s := freeProcess s current
  if current = s.next current then
    s.setCurrent 0
  else
    let s := s.setNext (s.prev current) (s.next current)
    s.setPrev (s.next current) (s.prev current)

/-- The patch of `switch_process` after the save: a context that was interrupted in ring 0
resumes on its old stack, any other one marks that there is none. -/
def patchContext (privLevel : Word) (c : Context) : Context :=
  if privLevel = 0 then
    { c with frame := { c.frame with ss := 0x10, esp := c.genRegs.esp } }
  else
    { c with genRegs := { c.genRegs with esp := 0 } }

/-- The patch is applied to the descriptor that `current_process` points to. -/
def patchCurrent (s : Scheduler) (privLevel : Word) : Scheduler :=
  s.modify s.currentProcess fun d => d.setContext (patchContext privLevel d.context)

/-- The loop of `switch_process` that skips halted processes. It writes nothing, so it
goes on forever once it comes back to a process. -/
def skipHalted (s : Scheduler) : Option Word :=
  Loop.iter (LinkedRing.advance s.next fun p => (s.desc p).state == processHalted)
    (2 ^ 32 + 1) s.currentProcess

/-- What `switch_process` does with the current process first: save it when it is running,
delete it when it has ended. -/
def leaveCurrent (s : Scheduler) (c : Context) : Scheduler :=
  if s.current.state = processRunning then saveRegisters s c
  else if s.current.state = 2 then deleteCurrent s
  else s

/-- What `switch_process` does last: `p` becomes the current process. -/
def enterProcess (s : Scheduler) (p : Word) : Scheduler :=
  let s := s.setCurrent p
  setTssStack s s.current.esp0

/-- `switch_process`; nothing is passed to `switch_context` when it returns early. -/
def switchProcess (s : Scheduler) (c : Context) : Option (Scheduler × Option SwitchArguments) :=
  if s.currentProcess = 0 ∨ s.next s.currentProcess = s.currentProcess then
    some (s, none)
  else
    let privLevel := c.frame.cs &&& 3
    let s := leaveCurrent s c
    let s := patchCurrent s privLevel
    (skipHalted s).map fun p =>
      let s := enterProcess s p
      (s, some (switchArguments s))

/-- The context that `create_process` sets up. -/
def initialContext (eip : Word) : Context :=
  let codeSegment : Word := 0x18 ||| 3
  let dataSegment : Word := 0x20 ||| 3
  let esp : Word := BitVec.ofNat 32 kernelBase - 4
  { frame := { eip := eip, cs := codeSegment, eflags := 1 <<< 9, esp := esp, ss := dataSegment }
    segRegs := { ds := dataSegment, es := dataSegment, fs := dataSegment, gs := dataSegment }
    genRegs :=
      { edi := 0, esi := 0, ebp := esp, ebx := 0, edx := 0, ecx := 0, eax := 0, esp := 0 } }

/-- The descriptor that `create_process` fills in, before it is put into the queue, at a
place where `old` was; `stack` and `directory` come from `kernel_allocate`. -/
def newProcess (old : ProcessDesc) (stack directory eip : Word) : ProcessDesc where
  frame := (initialContext eip).frame
  genRegs := (initialContext eip).genRegs
  segRegs := (initialContext eip).segRegs
  esp0 := stack + 4092
  pageDirectory := directory
  prev := old.prev
  next := old.next
  state := 0

/-- The last part of `create_process`: the new process is put into the queue before the
current one. -/
def insertProcess (s : Scheduler) (p : Word) : Scheduler :=
  if s.currentProcess = 0 then
    let s := s.setCurrent p
    let s := s.setNext s.currentProcess p
    s.setPrev s.currentProcess p
  else
    let s := s.setNext p s.currentProcess
    let s := s.setPrev p (s.prev s.currentProcess)
    let s := s.setNext (s.prev s.currentProcess) p
    s.setPrev s.currentProcess p

/-- `create_process`, as far as the scheduler sees it; `p`, `stack` and `directory` are
the three results of `kernel_allocate`. -/
def createProcess (s : Scheduler) (p stack directory eip : Word) : Scheduler :=
  let s := { s with live := p :: s.live }
  insertProcess (s.modify p fun d => newProcess d stack directory eip) p

/-- `update_process`. -/
def updateProcess (s : Scheduler) (state : BitVec 8) : Scheduler :=
  s.modify s.currentProcess fun d => { d with state := state }

/-- `timer_handler`, with the flag that `enable_switching` sets. -/
def timerHandler (switchingEnabled : Bool) (s : Scheduler) (c : Context) :
    Option (Scheduler × Option SwitchArguments) :=
  if switchingEnabled then switchProcess s c else some (s, none)

end LoofOS
