import LoofOS.Fairness

/-!
# The Blocks of a Process

`create_process` takes three blocks from the heap for a process: the descriptor, the kernel
stack and the page directory. What becomes of them is seen in the calls of
`kernel_allocate` and `kernel_free` and in the accesses to descriptors, in the order in
which they happen. This module has the functions of `LoofOS.Process` once more, with this
trace (`Traced`); without the trace they are the same functions (`opTraced_sched`).

`switch_process` calls `kernel_free` only for a current process that has ended, with the
saved stack pointer of the interrupted program and with the descriptor, which it goes on
using (`usesFreed_deleteCurrentT`). So the accounts are in order in the runs in which no such
process is removed, and in no others.

## Main results

* `opTraced_sched`: the trace changes nothing.
* `frees_deleteCurrentT`: what is freed when a process is removed.
* `accounted_of_not_removes`, `not_accounted_of_removes`: one operation.
* `teardown_accounted`: the runs.
-/

namespace LoofOS

open LinkedRing Run

/-- What happens to the heap and to descriptors: `access p` is one statement that reads or
writes a field of the descriptor at `p`. -/
inductive HeapEvent
  | allocate (a : Word)
  | free (a : Word)
  | access (p : Word)
  deriving DecidableEq, Repr

/-- The scheduler with the events so far. -/
structure Traced where
  sched : Scheduler
  events : List HeapEvent

namespace Traced

/-- Fields of the descriptors `ps` are read. -/
def read (t : Traced) (ps : List Word) : Traced :=
  { t with events := t.events ++ ps.map .access }

/-- The scheduler is changed by `f`, for which fields of the descriptors `ps` are used. -/
def perform (t : Traced) (f : Scheduler → Scheduler) (ps : List Word) : Traced :=
  { sched := f t.sched, events := t.events ++ ps.map .access }

/-- `kernel_allocate` returns `a`. -/
def kernelAllocate (t : Traced) (a : Word) : Traced :=
  { t with events := t.events ++ [.allocate a] }

/-- `kernel_free`. -/
def kernelFree (t : Traced) (a : Word) : Traced :=
  { t with events := t.events ++ [.free a] }

section

variable (t : Traced) (f : Scheduler → Scheduler) (ps : List Word) (a : Word)

@[simp] theorem read_sched : (t.read ps).sched = t.sched := rfl

@[simp] theorem perform_sched : (t.perform f ps).sched = f t.sched := rfl

@[simp] theorem kernelAllocate_sched : (t.kernelAllocate a).sched = t.sched := rfl

@[simp] theorem kernelFree_sched : (t.kernelFree a).sched = t.sched := rfl

@[simp] theorem read_events : (t.read ps).events = t.events ++ ps.map .access := rfl

@[simp] theorem perform_events : (t.perform f ps).events = t.events ++ ps.map .access := rfl

@[simp] theorem kernelAllocate_events :
    (t.kernelAllocate a).events = t.events ++ [.allocate a] := rfl

@[simp] theorem kernelFree_events : (t.kernelFree a).events = t.events ++ [.free a] := rfl

end

end Traced

/-! ### The functions with their trace -/

/-- The first branch of `switch_process`: three fields are written. -/
def saveRegistersT (t : Traced) (c : Context) : Traced :=
  let current := t.sched.currentProcess
  t.perform (saveRegisters · c) [current, current, current]

/-- The second branch: the two calls of `kernel_free` and the unlinking. -/
def deleteCurrentT (t : Traced) : Traced :=
  let current := t.sched.currentProcess
  let next := t.sched.next current
  let prev := t.sched.prev current
  let t := t.read [current]
  let t := t.kernelFree (t.sched.desc current).frame.esp
  let t := (t.kernelFree current).perform (freeProcess · current) []
  let t := t.read [current]
  if current = next then
    t.perform (Scheduler.setCurrent · 0) []
  else
    let t := t.perform (Scheduler.setNext · prev next) [current, current, prev]
    t.perform (Scheduler.setPrev · next prev) [current, current, next]

/-- The two branches; the state is read once or twice. -/
def leaveCurrentT (t : Traced) (c : Context) : Traced :=
  let current := t.sched.currentProcess
  if t.sched.current.state = processRunning then saveRegistersT (t.read [current]) c
  else if t.sched.current.state = 2 then deleteCurrentT (t.read [current, current])
  else t.read [current, current]

/-- The patch. -/
def patchCurrentT (t : Traced) (privLevel : Word) : Traced :=
  let current := t.sched.currentProcess
  t.perform (patchCurrent · privLevel)
    (if privLevel = 0 then [current, current, current] else [current])

/-- One round of the loop that skips halted processes. -/
def skipHaltedBody (t : Traced) : Traced ⊕ Traced :=
  let current := t.sched.currentProcess
  let next := t.sched.next current
  let t' := t.perform (Scheduler.setCurrent · next) [current, next]
  if (t.sched.desc next).state = processHalted then Sum.inl t' else Sum.inr t'

/-- The loop. -/
def skipHaltedT (t : Traced) : Option Traced := Loop.iter skipHaltedBody (2 ^ 32 + 1) t

/-- What `switch_process` does last. -/
def enterProcessT (t : Traced) : Traced :=
  let current := t.sched.currentProcess
  (t.perform (enterProcess · current) [current]).read [current, current, current, current]

/-- `switch_process`. -/
def switchProcessT (t : Traced) (c : Context) : Option (Traced × Option SwitchArguments) :=
  let current := t.sched.currentProcess
  if current = 0 then some (t, none)
  else if t.sched.next current = current then some (t.read [current], none)
  else
    let t := leaveCurrentT (t.read [current]) c
    let t := patchCurrentT t (c.frame.cs &&& 3)
    (skipHaltedT t).map fun t =>
      let t := enterProcessT t
      (t, some (switchArguments t.sched))

/-- `create_process`; statements that use the new descriptor one after the other are taken
together, and the page tables that `allocate_page` takes from the heap are left out. -/
def createProcessT (t : Traced) (p stack directory eip : Word) : Traced :=
  let current := t.sched.currentProcess
  let t := (t.kernelAllocate p).read [p]
  let t := (t.kernelAllocate stack).read [p]
  let t := (t.kernelAllocate directory).read [p]
  t.perform (createProcess · p stack directory eip)
    (if current = 0 then [p, p, p]
    else [p, p, current, p, current, t.sched.prev current, current])

/-- `update_process`. -/
def updateProcessT (t : Traced) (state : BitVec 8) : Traced :=
  t.perform (updateProcess · state) [t.sched.currentProcess]

/-- One operation, with the events that it causes. -/
def opTraced (s : Scheduler) : SchedOp → Option Traced
  | .create p stack directory eip => some (createProcessT ⟨s, []⟩ p stack directory eip)
  | .update state => some (updateProcessT ⟨s, []⟩ state)
  | .tick c => (switchProcessT ⟨s, []⟩ c).map Prod.fst

/-! ### The trace changes nothing -/

/-- The traced deletion does to the scheduler what the deletion does. -/
theorem deleteCurrentT_sched (t : Traced) : (deleteCurrentT t).sched = deleteCurrent t.sched := by
  rw [deleteCurrentT, deleteCurrent, next_freeProcess]
  by_cases hself : t.sched.currentProcess = t.sched.next t.sched.currentProcess
  · rw [if_pos hself, if_pos hself]
    rfl
  · rw [if_neg hself, if_neg hself]
    simp

/-- The traced way out of a process does what the plain one does. -/
theorem leaveCurrentT_sched (t : Traced) (c : Context) :
    (leaveCurrentT t c).sched = leaveCurrent t.sched c := by
  rw [leaveCurrentT, leaveCurrent]
  by_cases hrun : t.sched.current.state = processRunning
  · rw [if_pos hrun, if_pos hrun]
    rfl
  by_cases hended : t.sched.current.state = 2
  · rw [if_neg hrun, if_neg hrun, if_pos hended, if_pos hended]
    exact deleteCurrentT_sched _
  · rw [if_neg hrun, if_neg hrun, if_neg hended, if_neg hended]
    rfl

/-- **The loop** with its trace moves `current_process` as the loop without. -/
theorem skipHaltedT_sched (t : Traced) :
    (skipHaltedT t).map Traced.sched = (skipHalted t.sched).map t.sched.setCurrent := by
  have hloop : ∀ fuel x events,
      (Loop.iter skipHaltedBody fuel ⟨t.sched.setCurrent x, events⟩).map Traced.sched
        = (Loop.iter (advance t.sched.next fun p => (t.sched.desc p).state == processHalted)
            fuel x).map t.sched.setCurrent := by
    intro fuel
    induction fuel with
    | zero => intro x events; rfl
    | succ fuel ih =>
        intro x events
        by_cases hhalted : (t.sched.desc (t.sched.next x)).state = processHalted
        · have hbody : skipHaltedBody ⟨t.sched.setCurrent x, events⟩
              = Sum.inl ⟨t.sched.setCurrent (t.sched.next x),
                  events ++ [.access x, .access (t.sched.next x)]⟩ := if_pos hhalted
          have hround : advance t.sched.next (fun p => (t.sched.desc p).state == processHalted) x
              = Sum.inl (t.sched.next x) := if_pos (beq_iff_eq.mpr hhalted)
          rw [Loop.iter_succ_of_inl hbody, Loop.iter_succ_of_inl hround]
          exact ih _ _
        · have hbody : skipHaltedBody ⟨t.sched.setCurrent x, events⟩
              = Sum.inr ⟨t.sched.setCurrent (t.sched.next x),
                  events ++ [.access x, .access (t.sched.next x)]⟩ := if_neg hhalted
          have hround : advance t.sched.next (fun p => (t.sched.desc p).state == processHalted) x
              = Sum.inr (t.sched.next x) := if_neg fun h => hhalted (beq_iff_eq.mp h)
          rw [Loop.iter_succ_of_inr hbody, Loop.iter_succ_of_inr hround]
          rfl
  exact hloop _ t.sched.currentProcess t.events

/-- The traced switch is the switch, with its events. -/
theorem switchProcessT_sched (t : Traced) (c : Context) :
    (switchProcessT t c).map (fun r => (r.1.sched, r.2)) = switchProcess t.sched c := by
  simp only [switchProcessT, switchProcess]
  by_cases hc : t.sched.currentProcess = 0
  · rw [if_pos hc, if_pos (Or.inl hc)]
    rfl
  by_cases hself : t.sched.next t.sched.currentProcess = t.sched.currentProcess
  · rw [if_neg hc, if_pos hself, if_pos (Or.inr hself)]
    rfl
  rw [if_neg hc, if_neg hself, if_neg (not_or.mpr ⟨hc, hself⟩), Option.map_map]
  generalize hu : patchCurrentT (leaveCurrentT (t.read [t.sched.currentProcess]) c)
    (c.frame.cs &&& 3) = u
  have husched : u.sched = patchCurrent (leaveCurrent t.sched c) (c.frame.cs &&& 3) := by
    rw [← hu, patchCurrentT, Traced.perform_sched, leaveCurrentT_sched, Traced.read_sched]
  rw [← husched]
  have hskip := skipHaltedT_sched u
  cases hT : skipHaltedT u with
  | none =>
      rw [hT, Option.map_none] at hskip
      rw [Option.map_eq_none_iff.mp hskip.symm]
      rfl
  | some v =>
      rw [hT, Option.map_some] at hskip
      obtain ⟨p, hp, hv⟩ := Option.map_eq_some_iff.mp hskip.symm
      have henter : (enterProcessT v).sched = enterProcess u.sched p := by
        have hsched : (enterProcessT v).sched = enterProcess v.sched v.sched.currentProcess := rfl
        rw [hsched, ← hv]
        rfl
      simp only [hp, Option.map_some, Function.comp_apply, henter]

/-- **Without the trace** it is the scheduler. -/
theorem opTraced_sched (s : Scheduler) (op : SchedOp) :
    (opTraced s op).map Traced.sched = schedStep s op := by
  cases op with
  | create p stack directory eip => rfl
  | update state => rfl
  | tick c =>
      rw [opTraced, schedStep, ← switchProcessT_sched ⟨s, []⟩ c, Option.map_map, Option.map_map]
      rfl

/-! ### What is freed -/

/-- The pointers that are passed to `kernel_free`. -/
def frees (es : List HeapEvent) : List Word :=
  es.filterMap fun e => match e with
    | .free a => some a
    | _ => none

/-- The frees of two traces, one after the other. -/
theorem frees_append (es es' : List HeapEvent) : frees (es ++ es') = frees es ++ frees es' :=
  List.filterMap_append

/-- Accesses free nothing. -/
@[simp] theorem frees_access (ps : List Word) : frees (ps.map .access) = [] := by
  induction ps with
  | nil => rfl
  | cons p ps ih => exact ih

@[simp] theorem frees_read (t : Traced) (ps : List Word) :
    frees (t.read ps).events = frees t.events := by
  rw [Traced.read_events, frees_append, frees_access, List.append_nil]

@[simp] theorem frees_perform (t : Traced) (f : Scheduler → Scheduler) (ps : List Word) :
    frees (t.perform f ps).events = frees t.events := by
  rw [Traced.perform_events, frees_append, frees_access, List.append_nil]

@[simp] theorem frees_kernelAllocate (t : Traced) (a : Word) :
    frees (t.kernelAllocate a).events = frees t.events := by
  rw [Traced.kernelAllocate_events, frees_append]
  exact List.append_nil _

/-- **A process that is removed**: its saved stack pointer and its descriptor are freed. -/
theorem frees_deleteCurrentT (t : Traced) :
    frees (deleteCurrentT t).events
      = frees t.events ++ [t.sched.current.frame.esp, t.sched.currentProcess] := by
  rw [deleteCurrentT]
  split <;> simp only [frees_perform, frees_read, Traced.kernelFree_events, frees_append] <;>
    rw [List.append_assoc] <;> rfl

/-- Leaving frees only for an ended process: its stack pointer and its descriptor. -/
theorem frees_leaveCurrentT (t : Traced) (c : Context) :
    frees (leaveCurrentT t c).events = frees t.events ++ (if t.sched.current.state = 2
      then [t.sched.current.frame.esp, t.sched.currentProcess] else []) := by
  rw [leaveCurrentT]
  by_cases hrun : t.sched.current.state = processRunning
  · have hnot : t.sched.current.state ≠ 2 := by
      rw [hrun]
      decide
    rw [if_pos hrun, if_neg hnot, List.append_nil, saveRegistersT, frees_perform, frees_read]
  by_cases hended : t.sched.current.state = 2
  · rw [if_neg hrun, if_pos hended, if_pos hended, frees_deleteCurrentT, frees_read]
    rfl
  · rw [if_neg hrun, if_neg hended, if_neg hended, List.append_nil, frees_read]

/-- A turn of the skip loop adds accesses only. -/
theorem skipHaltedBody_cases (t : Traced) : ∃ ps,
    let t' := t.perform (Scheduler.setCurrent · (t.sched.next t.sched.currentProcess)) ps
    skipHaltedBody t = Sum.inl t' ∨ skipHaltedBody t = Sum.inr t' := by
  refine ⟨[t.sched.currentProcess, t.sched.next t.sched.currentProcess], ?_⟩
  simp only [skipHaltedBody]
  split
  · exact Or.inl rfl
  · exact Or.inr rfl

/-- What is kept by every access is kept by the loop. -/
theorem skipHaltedT_keeps {I : List HeapEvent → Prop}
    (hI : ∀ es (ps : List Word), I es → I (es ++ ps.map .access)) {t t' : Traced} (ht : I t.events)
    (hskip : skipHaltedT t = some t') : I t'.events := by
  refine Loop.iter_sound (I := fun t => I t.events) (Q := fun t => I t.events) ?_ ?_ ht hskip
  · intro t t' ht hbody
    obtain ⟨ps, h | h⟩ := skipHaltedBody_cases t
    · obtain rfl := Sum.inl.inj (h.symm.trans hbody)
      exact hI _ ps ht
    · rw [h] at hbody
      cases hbody
  · intro t t' ht hbody
    obtain ⟨ps, h | h⟩ := skipHaltedBody_cases t
    · rw [h] at hbody
      cases hbody
    · obtain rfl := Sum.inr.inj (h.symm.trans hbody)
      exact hI _ ps ht

/-- The current process has ended, and there is another one to switch to. -/
def Removes (s : Scheduler) : SchedOp → Prop
  | .tick _ => s.currentProcess ≠ 0 ∧ s.next s.currentProcess ≠ s.currentProcess ∧
      s.current.state = 2
  | _ => False

instance (s : Scheduler) : ∀ op, Decidable (Removes s op)
  | .create _ _ _ _ => isFalse id
  | .update _ => isFalse id
  | .tick _ => inferInstanceAs (Decidable (s.currentProcess ≠ 0 ∧
      s.next s.currentProcess ≠ s.currentProcess ∧ s.current.state = 2))

/-- **What `switch_process` frees.** -/
theorem frees_switchProcessT {t : Traced} {c : Context} {r : Traced × Option SwitchArguments}
    (h : switchProcessT t c = some r) :
    frees r.1.events = frees t.events ++ (if Removes t.sched (.tick c)
      then [t.sched.current.frame.esp, t.sched.currentProcess] else []) := by
  simp only [switchProcessT] at h
  by_cases hc : t.sched.currentProcess = 0
  · rw [if_pos hc] at h
    obtain rfl := Option.some.inj h
    rw [if_neg fun hr => hr.1 hc, List.append_nil]
  by_cases hself : t.sched.next t.sched.currentProcess = t.sched.currentProcess
  · rw [if_neg hc, if_pos hself] at h
    obtain rfl := Option.some.inj h
    rw [if_neg fun hr => hr.2.1 hself, List.append_nil, frees_read]
  rw [if_neg hc, if_neg hself] at h
  obtain ⟨u, hu, rfl⟩ := Option.map_eq_some_iff.mp h
  have hremoves : Removes t.sched (.tick c) ↔ t.sched.current.state = 2 :=
    ⟨fun hr => hr.2.2, fun hended => ⟨hc, hself, hended⟩⟩
  have hkeeps := skipHaltedT_keeps
    (I := fun es => frees es = frees (leaveCurrentT (t.read [t.sched.currentProcess]) c).events)
    (fun es ps hes => by rw [frees_append, frees_access, List.append_nil, hes])
    (frees_perform _ _ _) hu
  rw [enterProcessT, frees_read, frees_perform, hkeeps, frees_leaveCurrentT, frees_read]
  simp only [hremoves]
  rfl

/-- A descriptor is used right after it was freed. -/
def UsesFreed (es : List HeapEvent) : Prop :=
  ∃ pre post p, es = pre ++ .free p :: .access p :: post

/-- A use after free stays one in every longer trace. -/
theorem UsesFreed.append {es : List HeapEvent} (h : UsesFreed es) (es' : List HeapEvent) :
    UsesFreed (es ++ es') := by
  obtain ⟨pre, post, p, rfl⟩ := h
  exact ⟨pre, post ++ es', p, by simp⟩

/-- The deletion uses the descriptor it has freed. -/
theorem usesFreed_deleteCurrentT (t : Traced) : UsesFreed (deleteCurrentT t).events := by
  have hfreed : UsesFreed ((((t.read [t.sched.currentProcess]).kernelFree
      (t.sched.desc t.sched.currentProcess).frame.esp).kernelFree
      t.sched.currentProcess).perform (freeProcess · t.sched.currentProcess) [] |>.read
      [t.sched.currentProcess]).events :=
    ⟨t.events ++ [.access t.sched.currentProcess,
      .free (t.sched.desc t.sched.currentProcess).frame.esp], [], t.sched.currentProcess, by simp⟩
  rw [deleteCurrentT]
  split
  · exact hfreed.append _
  · exact (hfreed.append _).append _

/-- **A removed process** is used after it was freed. -/
theorem usesFreed_switchProcessT {t : Traced} {c : Context}
    {r : Traced × Option SwitchArguments} (h : switchProcessT t c = some r)
    (hremoves : Removes t.sched (.tick c)) : UsesFreed r.1.events := by
  obtain ⟨hc, hself, hended⟩ := hremoves
  simp only [switchProcessT] at h
  rw [if_neg hc, if_neg hself] at h
  obtain ⟨u, hu, rfl⟩ := Option.map_eq_some_iff.mp h
  have hrun : t.sched.current.state ≠ processRunning := by
    rw [hended]
    decide
  have hleave : UsesFreed (leaveCurrentT (t.read [t.sched.currentProcess]) c).events := by
    rw [leaveCurrentT, Traced.read_sched, if_neg hrun, if_pos hended]
    exact usesFreed_deleteCurrentT _
  have hkeeps := skipHaltedT_keeps (fun es ps hes => hes.append _) (hleave.append _) hu
  exact (hkeeps.append _).append _

/-! ### Accounts -/

/-- The blocks that are allocated, and those that were freed and not allocated again. -/
structure Blocks where
  heap : List Word
  gone : List Word

/-- What an event does to the blocks. -/
def Blocks.settle (b : Blocks) : HeapEvent → Blocks
  | .allocate a => ⟨a :: b.heap, b.gone.filter (· ≠ a)⟩
  | .free a => ⟨b.heap.erase a, a :: b.gone⟩
  | .access _ => b

/-- Only a live block is freed, and no descriptor is used after it was freed. -/
def Blocks.Allows (b : Blocks) : HeapEvent → Prop
  | .allocate _ => True
  | .free a => a ∈ b.heap
  | .access p => p ∉ b.gone

/-- Every event is allowed where it happens. -/
def Blocks.AllowsAll : Blocks → List HeapEvent → Prop
  | _, [] => True
  | b, e :: es => b.Allows e ∧ (b.settle e).AllowsAll es

/-- The scheduler with the blocks of the heap, and with those that were allocated for each
descriptor. -/
structure Account where
  sched : Scheduler
  blocks : Blocks
  owned : Word → List Word

/-- `create_process` allocates three blocks. -/
def Account.own (a : Account) : SchedOp → Word → List Word
  | .create p stack directory _ => Function.update a.owned p [p, stack, directory]
  | _ => a.owned

/-- One operation. -/
def accountStep (a : Account) (op : SchedOp) : Option Account :=
  (opTraced a.sched op).map fun t => ⟨t.sched, t.events.foldl Blocks.settle a.blocks, a.own op⟩

/-- **The accounts are in order** in an operation: every event is allowed, and what is freed
are the blocks of the processes that it removes, each once. -/
def Accounted (a : Account) (op : SchedOp) : Prop :=
  ∀ t, opTraced a.sched op = some t → a.blocks.AllowsAll t.events ∧
    (frees t.events).Perm ((a.sched.live.filter (· ∉ t.sched.live)).flatMap a.owned)

/-- The second half of an allowed trace is allowed after the first. -/
theorem Blocks.AllowsAll.right {b : Blocks} {es es' : List HeapEvent}
    (h : b.AllowsAll (es ++ es')) : (es.foldl Blocks.settle b).AllowsAll es' := by
  induction es generalizing b with
  | nil => exact h
  | cons e es ih => exact ih h.2

/-- An access after the release of a block is not allowed. -/
theorem UsesFreed.not_allowsAll {es : List HeapEvent} (h : UsesFreed es) (b : Blocks) :
    ¬ b.AllowsAll es := by
  obtain ⟨pre, post, p, rfl⟩ := h
  intro hall
  exact hall.right.2.1 List.mem_cons_self

/-- Where nothing is freed, everything is allowed. -/
theorem Blocks.allowsAll_of_frees {b : Blocks} {es : List HeapEvent} (hgone : b.gone = [])
    (hes : frees es = []) : b.AllowsAll es ∧ (es.foldl Blocks.settle b).gone = [] := by
  induction es generalizing b with
  | nil => exact ⟨trivial, hgone⟩
  | cons e es ih =>
      cases e with
      | allocate a =>
          have hnone : (b.settle (.allocate a)).gone = [] := by
            rw [settle, hgone]
            rfl
          exact ⟨⟨trivial, (ih hnone hes).1⟩, (ih hnone hes).2⟩
      | free a => cases hes
      | access p =>
          have hallowed : p ∉ b.gone := by
            rw [hgone]
            exact List.not_mem_nil
          exact ⟨⟨hallowed, (ih hgone hes).1⟩, (ih hgone hes).2⟩

/-- No operation frees anything but one that removes a process, and no other one takes a
process from the ring. -/
theorem frees_opTraced {s : Scheduler} {op : SchedOp} {t : Traced} (h : opTraced s op = some t)
    (hnot : ¬ Removes s op) : frees t.events = [] ∧ s.live ⊆ t.sched.live := by
  have hsched : schedStep s op = some t.sched := by
    rw [← opTraced_sched, h]
    rfl
  cases op with
  | create p stack directory eip =>
      obtain rfl := Option.some.inj h
      constructor
      · simp only [createProcessT, frees_perform, frees_read, frees_kernelAllocate]
        rfl
      obtain hlive := congrArg Scheduler.live (Option.some.inj hsched)
      rw [live_createProcess] at hlive
      rw [← hlive]
      exact List.subset_cons_self _ _
  | update state =>
      obtain rfl := Option.some.inj h
      exact ⟨rfl, List.Subset.refl _⟩
  | tick c =>
      obtain ⟨r, hr, rfl⟩ := Option.map_eq_some_iff.mp h
      constructor
      · rw [frees_switchProcessT hr, if_neg hnot]
        rfl
      · obtain ⟨r', hr', hlast⟩ := Option.map_eq_some_iff.mp hsched
        rw [← hlast]
        rcases switchProcess_cases hr' with ⟨-, hsame, -⟩ | ⟨hc, hmore, p, -, henter, -⟩
        · rw [hsame]
          exact List.Subset.refl _
        · rw [henter]
          have hended : s.current.state ≠ 2 := fun hended => hnot ⟨hc, hmore, hended⟩
          have hlive : (leaveCurrent s c).live = s.live := (links_leaveCurrent c hended).2.2
          exact fun x hx => hlive ▸ hx

/-- **An operation that removes no process.** -/
theorem accounted_of_not_removes {a : Account} {op : SchedOp} (hgone : a.blocks.gone = [])
    (hnot : ¬ Removes a.sched op) : Accounted a op := by
  intro t ht
  obtain ⟨hfrees, hlive⟩ := frees_opTraced ht hnot
  refine ⟨(Blocks.allowsAll_of_frees hgone hfrees).1, ?_⟩
  have hremoved : a.sched.live.filter (· ∉ t.sched.live) = [] :=
    List.filter_eq_nil_iff.mpr fun p hp => by simpa using hlive hp
  rw [hfrees, hremoved]
  exact List.Perm.refl _

/-- **An operation that removes a process.** -/
theorem not_accounted_of_removes {a a' : Account} {op : SchedOp}
    (hstep : accountStep a op = some a') (hremoves : Removes a.sched op) : ¬ Accounted a op := by
  intro haccounted
  obtain ⟨t, ht, -⟩ := Option.map_eq_some_iff.mp hstep
  cases op with
  | create p stack directory eip => exact hremoves
  | update state => exact hremoves
  | tick c =>
      obtain ⟨r, hr, rfl⟩ := Option.map_eq_some_iff.mp ht
      exact (usesFreed_switchProcessT hr hremoves).not_allowsAll _ (haccounted _ ht).1

/-- **The accounts of a run** are in order if no process is removed in it; and if every
call of the run returns, only then. -/
theorem teardown_accounted (s₀ : Scheduler) (ops : List SchedOp) :
    let start : Account := ⟨initProcesses s₀, ⟨[], []⟩, fun _ => []⟩
    (Meets accountStep (fun a op => ¬ Removes a.sched op) start ops →
      Meets accountStep Accounted start ops) ∧
    (∀ a, exec accountStep start ops = some a → Meets accountStep Accounted start ops →
      Meets accountStep (fun a op => ¬ Removes a.sched op) start ops) := by
  intro start
  constructor
  · refine Meets.imp_of_invariant (I := fun a => a.blocks.gone = []) ?_ ?_ rfl
    · intro a op a' hgone hnot hstep
      obtain ⟨t, ht, rfl⟩ := Option.map_eq_some_iff.mp hstep
      exact (Blocks.allowsAll_of_frees hgone (frees_opTraced ht hnot).1).2
    · exact fun a op hgone hnot => accounted_of_not_removes hgone hnot
  · generalize start = a
    intro t ht haccounted
    induction ops generalizing a with
    | nil => trivial
    | cons op ops ih =>
        obtain ⟨a', hstep, hrest⟩ := exec_cons_inv ht
        refine ⟨fun hremoves => not_accounted_of_removes hstep hremoves haccounted.1, ?_⟩
        intro a'' hstep'
        obtain rfl := Option.some.inj (hstep.symm.trans hstep')
        exact ih a' hrest (haccounted.2 a' hstep)

/-- A run in which one of two processes is halted. -/
theorem teardown_accounted_two :
    Meets accountStep Accounted ⟨initProcesses idleScheduler, ⟨[], []⟩, fun _ => []⟩
      [.create 0xd0000100 0xd0002000 0xd0004000 0, .create 0xd0000200 0xd0006000 0xd0008000 0,
        .tick default, .update 1, .tick default, .tick default] :=
  (teardown_accounted idleScheduler _).1 (by decide +kernel)

/-- **A process that ends** while another one is there. -/
theorem teardown_uses_freed :
    ¬ ∀ ops, Meets schedStep (fun s op => AllocatesFresh s op ∧ UpdatesCurrent s op ∧
        FindsRunning s op) (initProcesses idleScheduler) ops →
      Meets accountStep Accounted ⟨initProcesses idleScheduler, ⟨[], []⟩, fun _ => []⟩ ops := by
  intro hall
  have hmeets := hall [.create 0xd0000100 0xd0002000 0xd0004000 0,
    .create 0xd0000200 0xd0006000 0xd0008000 0, .update 2, .tick default] (by decide +kernel)
  have htick := (((hmeets.2 _ rfl).2 _ rfl).2 _ rfl).1
  have hremoves : ∀ a, (accountStep a (.tick default)).isSome → Removes a.sched (.tick default) →
      ¬ Accounted a (.tick default) := by
    intro a hsome
    obtain ⟨a', ha'⟩ := Option.isSome_iff_exists.mp hsome
    exact not_accounted_of_removes ha'
  exact hremoves _ (by decide +kernel) (by decide +kernel) htick

end LoofOS
