import LoofOS.Process
import LoofOS.Run
import Mathlib.Data.Fintype.Card
import Mathlib.Data.Fintype.List

/-!
# The Ring of Processes

The processes that were created and not yet deleted form a doubly linked ring, and
`current_process` is a member of it. Every operation keeps this: `create_process` inserts
before the current process, `update_process` changes no link, and `switch_process` removes
the current process if it has ended and then moves `current_process` along the ring.

What the operations do to the links is stated once for each of them (`insertProcess_next`,
`deleteCurrent_next` and so on); the invariant follows from the rules of
`LoofOS.LinkedRing`.

## Main results

* `RingInv.create`, `RingInv.update`, `RingInv.tick`: the step lemmas.
* `RingInv.switched`: what a switch does to the processes and their states.
* `RingInv.switchProcess_isSome_iff`: when `switch_process` returns.
* `schedule_ring`: the ring in every run.
-/

namespace LoofOS

open LinkedRing Run

/-! ### What the operations do to the links -/

section Links

variable (s : Scheduler) (p x : Word)

@[simp] theorem next_saveRegisters (c : Context) : (saveRegisters s c).next x = s.next x := by
  rw [saveRegisters, s.next_modify]
  exact fun _ => rfl

@[simp] theorem prev_saveRegisters (c : Context) : (saveRegisters s c).prev x = s.prev x := by
  rw [saveRegisters, s.prev_modify]
  exact fun _ => rfl

@[simp] theorem next_patchCurrent (w : Word) : (patchCurrent s w).next x = s.next x := by
  rw [patchCurrent, s.next_modify]
  exact fun _ => rfl

@[simp] theorem prev_patchCurrent (w : Word) : (patchCurrent s w).prev x = s.prev x := by
  rw [patchCurrent, s.prev_modify]
  exact fun _ => rfl

@[simp] theorem next_updateProcess (w : BitVec 8) : (updateProcess s w).next x = s.next x := by
  rw [updateProcess, s.next_modify]
  exact fun _ => rfl

@[simp] theorem prev_updateProcess (w : BitVec 8) : (updateProcess s w).prev x = s.prev x := by
  rw [updateProcess, s.prev_modify]
  exact fun _ => rfl

variable {s p}

/-- The forward links after an insertion. -/
theorem insertProcess_next (hc : s.currentProcess ≠ 0) (hp : p ≠ s.currentProcess) :
    (insertProcess s p).next x = if x = s.prev s.currentProcess then p
      else if x = p then s.currentProcess else s.next x := by
  rw [insertProcess, if_neg hc]
  simp [hp.symm]

/-- The backward links after an insertion. -/
theorem insertProcess_prev (hc : s.currentProcess ≠ 0) (hp : p ≠ s.currentProcess) :
    (insertProcess s p).prev x = if x = s.currentProcess then p
      else if x = p then s.prev s.currentProcess else s.prev x := by
  rw [insertProcess, if_neg hc]
  simp [hp.symm]

/-- The forward links after a deletion. -/
theorem deleteCurrent_next (hc : s.next s.currentProcess ≠ s.currentProcess) :
    (deleteCurrent s).next x = if x = s.prev s.currentProcess then s.next s.currentProcess
      else s.next x := by
  rw [deleteCurrent, next_freeProcess, if_neg (Ne.symm hc)]
  simp

/-- The backward links after a deletion. -/
theorem deleteCurrent_prev (hc : s.next s.currentProcess ≠ s.currentProcess)
    (hc' : s.prev s.currentProcess ≠ s.currentProcess) :
    (deleteCurrent s).prev x = if x = s.next s.currentProcess then s.prev s.currentProcess
      else s.prev x := by
  rw [deleteCurrent, next_freeProcess, if_neg (Ne.symm hc)]
  simp [hc'.symm]

end Links

/-! ### Steps -/

/-- What can happen to the scheduler. `create` carries the three results of
`kernel_allocate`, and `tick` the registers of the interrupted program. -/
inductive SchedOp
  | create (p stack directory eip : Word)
  | update (state : BitVec 8)
  | tick (c : Context)

/-- One operation. -/
def schedStep (s : Scheduler) : SchedOp → Option Scheduler
  | .create p stack directory eip => some (createProcess s p stack directory eip)
  | .update state => some (updateProcess s state)
  | .tick c => (switchProcess s c).map Prod.fst

/-- The processes at the start: none. -/
def idleScheduler : Scheduler := ⟨fun _ => default, 0, 0, [], []⟩

/-- `kernel_allocate` returns a descriptor that is neither null nor in use. -/
def AllocatesFresh (s : Scheduler) : SchedOp → Prop
  | .create p _ _ _ => p ≠ 0 ∧ p ∉ s.live
  | _ => True

instance (s : Scheduler) : ∀ op, Decidable (AllocatesFresh s op)
  | .create p _ _ _ => inferInstanceAs (Decidable (p ≠ 0 ∧ p ∉ s.live))
  | .update _ => isTrue trivial
  | .tick _ => isTrue trivial

/-- `update_process` is called by a process, with one of the three states. -/
def UpdatesCurrent (s : Scheduler) : SchedOp → Prop
  | .update state => s.currentProcess ≠ 0 ∧ (state = 0 ∨ state = 1 ∨ state = 2)
  | _ => True

instance (s : Scheduler) : ∀ op, Decidable (UpdatesCurrent s op)
  | .create _ _ _ _ => isTrue trivial
  | .update state => inferInstanceAs
      (Decidable (s.currentProcess ≠ 0 ∧ (state = 0 ∨ state = 1 ∨ state = 2)))
  | .tick _ => isTrue trivial

/-- A timer interrupt that switches finds a process that is running. -/
def FindsRunning (s : Scheduler) : SchedOp → Prop
  | .tick _ => s.currentProcess = 0 ∨ s.next s.currentProcess = s.currentProcess ∨
      ∃ p ∈ s.live, (s.desc p).state = processRunning
  | _ => True

instance (s : Scheduler) : ∀ op, Decidable (FindsRunning s op)
  | .create _ _ _ _ => isTrue trivial
  | .update _ => isTrue trivial
  | .tick _ => decidable_of_iff (s.currentProcess = 0 ∨
      s.next s.currentProcess = s.currentProcess ∨
      s.live.any (fun p => (s.desc p).state == processRunning) = true) (by simp [FindsRunning])

/-- A timer interrupt leaves a process in the ring that is not halted, or does not search. -/
def LeavesRunnable (s : Scheduler) : SchedOp → Prop
  | .tick _ => s.currentProcess = 0 ∨ s.next s.currentProcess = s.currentProcess ∨
      ∃ p ∈ s.live, (s.desc p).state ≠ processHalted ∧
        ¬ (p = s.currentProcess ∧ s.current.state = 2)
  | _ => True

instance (s : Scheduler) : ∀ op, Decidable (LeavesRunnable s op)
  | .create _ _ _ _ => isTrue trivial
  | .update _ => isTrue trivial
  | .tick _ => decidable_of_iff (s.currentProcess = 0 ∨
      s.next s.currentProcess = s.currentProcess ∨
      s.live.any (fun p => (s.desc p).state ≠ processHalted ∧
        ¬ (p = s.currentProcess ∧ s.current.state = 2)) = true) (by
      simp only [LeavesRunnable, List.any_eq_true, decide_eq_true_eq])

/-- **The ring of processes**: the live processes, all different, are linked into a ring
whose head is `current_process`; without a process `current_process` is null. -/
structure RingInv (s : Scheduler) : Prop where
  null : (0 : Word) ∉ s.live
  ring : (s.currentProcess = 0 ∧ s.live = []) ∨
    ∃ l, IsRing s.next s.prev s.currentProcess l ∧ (s.currentProcess :: l).Perm s.live

/-- A created process joins the live ones. -/
theorem live_createProcess (s : Scheduler) (p stack directory eip : Word) :
    (createProcess s p stack directory eip).live = p :: s.live := by
  rw [createProcess, insertProcess]
  split <;> rfl

/-- **`create_process` inserts** the new process before the current one, at the end of the
ring as it is gone through. -/
theorem isRing_createProcess {s : Scheduler} {p stack directory eip : Word} {l : List Word}
    (hring : IsRing s.next s.prev s.currentProcess l) (hc : s.currentProcess ≠ 0)
    (hp : p ∉ s.currentProcess :: l) :
    IsRing (createProcess s p stack directory eip).next
        (createProcess s p stack directory eip).prev s.currentProcess (l ++ [p]) ∧
      (createProcess s p stack directory eip).currentProcess = s.currentProcess := by
  -- filling in the descriptor changes no link
  set t := ({ s with live := p :: s.live } : Scheduler).modify p
    fun d => newProcess d stack directory eip with ht
  have htnext : ∀ x, t.next x = s.next x := Scheduler.next_modify _ p _ fun _ => rfl
  have htprev : ∀ x, t.prev x = s.prev x := Scheduler.prev_modify _ p _ fun _ => rfl
  have htcurrent : t.currentProcess = s.currentProcess := rfl
  have hcreate : createProcess s p stack directory eip = insertProcess t p := rfl
  have hpc : p ≠ t.currentProcess := fun he => hp (he ▸ List.mem_cons_self)
  have hpp : p ≠ t.prev t.currentProcess := by
    rw [htprev]
    exact fun he => hp (he ▸ hring.prev_mem List.mem_cons_self)
  have hnext := fun x => insertProcess_next (x := x) (htcurrent ▸ hc) hpc
  have hprev := fun x => insertProcess_prev (x := x) (htcurrent ▸ hc) hpc
  rw [hcreate]
  constructor
  · refine hring.insert hp ?_ ?_ ?_ ?_ ?_ ?_
    · rw [hnext, if_neg hpp, if_pos rfl, htcurrent]
    · rw [hprev, if_neg hpc, if_pos rfl, htprev, htcurrent]
    · rw [hprev, htcurrent, if_pos rfl]
    · rw [hnext, htprev, htcurrent, if_pos rfl]
    · intro x hxp hxc
      rw [hnext, htprev, htcurrent, if_neg hxc, if_neg hxp, htnext]
    · intro x hxp hxc
      rw [hprev, htcurrent, if_neg hxc, if_neg hxp, htprev]
  · rw [insertProcess, if_neg (htcurrent ▸ hc)]
    rfl

namespace RingInv

variable {s : Scheduler}

/-- Only the links, the head and the live processes matter. -/
theorem congr {s' : Scheduler} (h : RingInv s) (hnext : ∀ x, s'.next x = s.next x)
    (hprev : ∀ x, s'.prev x = s.prev x) (hcurrent : s'.currentProcess = s.currentProcess)
    (hlive : s'.live = s.live) : RingInv s' where
  null := by rw [hlive]; exact h.null
  ring := by
    rw [hlive, hcurrent]
    rcases h.ring with hnone | ⟨l, hring, hperm⟩
    · exact Or.inl hnone
    · exact Or.inr ⟨l, hring.congr (fun x _ => hnext x) (fun x _ => hprev x), hperm⟩

/-- The ring when there is a current process. -/
theorem of_current_ne (h : RingInv s) (hc : s.currentProcess ≠ 0) :
    ∃ l, IsRing s.next s.prev s.currentProcess l ∧ (s.currentProcess :: l).Perm s.live :=
  h.ring.resolve_left fun hnone => hc hnone.1

/-- There is no current process only when there is none at all. -/
theorem live_eq_nil (h : RingInv s) (hc : s.currentProcess = 0) : s.live = [] := by
  rcases h.ring with hnone | ⟨l, -, hperm⟩
  · exact hnone.2
  · rw [hc] at hperm
    exact absurd (hperm.mem_iff.mp List.mem_cons_self) h.null

/-- **`create_process` keeps the ring.** -/
theorem create {p stack directory eip : Word} (h : RingInv s) (hp : p ≠ 0)
    (hfresh : p ∉ s.live) : RingInv (createProcess s p stack directory eip) := by
  have hlive := live_createProcess s p stack directory eip
  refine ⟨by rw [hlive]; exact fun hm => (List.mem_cons.mp hm).elim (hp ·.symm) h.null, ?_⟩
  rw [hlive]
  right
  by_cases hc : s.currentProcess = 0
  · -- the first process is linked to itself
    have hfirst : createProcess s p stack directory eip
        = (((({ s with live := p :: s.live } : Scheduler).modify p fun d =>
            newProcess d stack directory eip).setCurrent p).setNext p p).setPrev p p := by
      rw [createProcess, insertProcess]
      exact if_pos hc
    rw [h.live_eq_nil hc, hfirst]
    exact ⟨[], IsRing.singleton (by simp) (by simp), List.Perm.refl _⟩
  · obtain ⟨l, hring, hperm⟩ := h.of_current_ne hc
    have hp' : p ∉ s.currentProcess :: l := fun hm => hfresh (hperm.mem_iff.mp hm)
    obtain ⟨hring', hcurrent⟩ := @isRing_createProcess s p stack directory eip l hring hc hp'
    rw [hcurrent]
    have happend : (s.currentProcess :: (l ++ [p])).Perm (p :: s.currentProcess :: l) :=
      List.perm_append_singleton p (s.currentProcess :: l)
    exact ⟨l ++ [p], hring', happend.trans (hperm.cons p)⟩

/-- **`update_process` keeps the ring.** -/
theorem update (h : RingInv s) (state : BitVec 8) : RingInv (updateProcess s state) :=
  h.congr (next_updateProcess s · state) (prev_updateProcess s · state) rfl rfl

end RingInv

/-- **Deleting the current process** leaves the ring of the others, which is entered from
the deleted one by its `next`. -/
theorem isRing_deleteCurrent {s : Scheduler} {d : Word} {l : List Word}
    (hring : IsRing s.next s.prev s.currentProcess (d :: l)) :
    IsRing (deleteCurrent s).next (deleteCurrent s).prev d l ∧
      (deleteCurrent s).next s.currentProcess = d := by
  have hd : s.next s.currentProcess = d := hring.path.1
  have hmore : s.next s.currentProcess ≠ s.currentProcess := fun hself =>
    absurd (hring.next_eq_self_iff.mp hself) (List.cons_ne_nil d l)
  have hself := hring.next_prev List.mem_cons_self
  have hmore' : s.prev s.currentProcess ≠ s.currentProcess := by
    intro he
    rw [he] at hself
    exact hmore hself
  have hnext := fun x => deleteCurrent_next (x := x) hmore
  have hprev := fun x => deleteCurrent_prev (x := x) hmore hmore'
  refine ⟨hring.remove ?_ ?_ ?_ ?_, ?_⟩
  · rw [hnext, if_pos rfl]
  · rw [hprev, if_pos rfl]
  · exact fun x hx => by rw [hnext, if_neg hx]
  · exact fun x hx => by rw [hprev, if_neg hx]
  · rw [hnext, if_neg hmore'.symm, hd]

/-! ### `switch_process` -/

/-- **What `switch_process` can do**: return early and change nothing, or leave the current
process, patch its context and enter the process that the search has found. -/
theorem switchProcess_cases {s s' : Scheduler} {c : Context} {out : Option SwitchArguments}
    (h : switchProcess s c = some (s', out)) :
    ((s.currentProcess = 0 ∨ s.next s.currentProcess = s.currentProcess) ∧ s' = s ∧
      out = none) ∨
    (s.currentProcess ≠ 0 ∧ s.next s.currentProcess ≠ s.currentProcess ∧
      ∃ p, skipHalted (patchCurrent (leaveCurrent s c) (c.frame.cs &&& 3)) = some p ∧
        s' = enterProcess (patchCurrent (leaveCurrent s c) (c.frame.cs &&& 3)) p ∧
        out = some (switchArguments s')) := by
  rw [switchProcess] at h
  split at h
  · obtain ⟨rfl, rfl⟩ := Prod.mk.inj (Option.some.inj h)
    exact Or.inl ⟨‹_›, rfl, rfl⟩
  · rename_i hgo
    obtain ⟨hc, hmore⟩ := not_or.mp hgo
    obtain ⟨p, hp, he⟩ := Option.map_eq_some_iff.mp h
    obtain ⟨rfl, rfl⟩ := Prod.mk.inj he
    exact Or.inr ⟨hc, hmore, p, hp, rfl, rfl⟩

/-- A deleted process leaves the live ones. -/
theorem live_deleteCurrent (s : Scheduler) :
    (deleteCurrent s).live = s.live.erase s.currentProcess := by
  rw [deleteCurrent]
  split <;> rfl

/-- Deleting keeps the pointer to the deleted process. -/
theorem currentProcess_deleteCurrent {s : Scheduler}
    (hmore : s.next s.currentProcess ≠ s.currentProcess) :
    (deleteCurrent s).currentProcess = s.currentProcess := by
  rw [deleteCurrent, next_freeProcess, if_neg (Ne.symm hmore)]
  rfl

/-- A process that has ended is deleted. -/
theorem leaveCurrent_of_ended {s : Scheduler} (c : Context) (h : s.current.state = 2) :
    leaveCurrent s c = deleteCurrent s := by
  have hnot : s.current.state ≠ processRunning := by
    rw [h]
    decide
  rw [leaveCurrent, if_neg hnot, if_pos h]

/-- Any other one keeps its place. -/
theorem links_leaveCurrent {s : Scheduler} (c : Context) (h : s.current.state ≠ 2) :
    (∀ x, (leaveCurrent s c).next x = s.next x) ∧ (∀ x, (leaveCurrent s c).prev x = s.prev x) ∧
      (leaveCurrent s c).live = s.live := by
  rw [leaveCurrent, if_neg h]
  split
  · exact ⟨fun x => next_saveRegisters s x c, fun x => prev_saveRegisters s x c, rfl⟩
  · exact ⟨fun _ => rfl, fun _ => rfl, rfl⟩

/-- With others on the ring, leaving does not choose the next process. -/
theorem currentProcess_leaveCurrent {s : Scheduler} (c : Context)
    (hmore : s.next s.currentProcess ≠ s.currentProcess) :
    (leaveCurrent s c).currentProcess = s.currentProcess := by
  by_cases hended : s.current.state = 2
  · rw [leaveCurrent_of_ended c hended, currentProcess_deleteCurrent hmore]
  · rw [leaveCurrent, if_neg hended]
    split <;> rfl

section Keeps

variable {β : Type} {g : ProcessDesc → β} (hn : ∀ d w, g { d with next := w } = g d)
  (hp : ∀ d w, g { d with prev := w } = g d)

include hn in
/-- What does not depend on the forward link is kept when it is set. -/
theorem keeps_setNext (s : Scheduler) (p w x : Word) :
    g ((s.setNext p w).desc x) = g (s.desc x) := by
  by_cases hx : x = p
  · subst hx
    rw [Scheduler.setNext, Scheduler.desc_modify_self, hn]
  · rw [Scheduler.setNext, Scheduler.desc_modify_of_ne _ _ _ hx]

include hp in
/-- What does not depend on the backward link is kept when it is set. -/
theorem keeps_setPrev (s : Scheduler) (p w x : Word) :
    g ((s.setPrev p w).desc x) = g (s.desc x) := by
  by_cases hx : x = p
  · subst hx
    rw [Scheduler.setPrev, Scheduler.desc_modify_self, hp]
  · rw [Scheduler.setPrev, Scheduler.desc_modify_of_ne _ _ _ hx]

include hn hp

/-- Deleting changes nothing but links. -/
theorem keeps_deleteCurrent (s : Scheduler) (x : Word) :
    g ((deleteCurrent s).desc x) = g (s.desc x) := by
  rw [deleteCurrent]
  split
  · rfl
  · rw [keeps_setPrev hp, keeps_setNext hn]
    rfl

/-- Inserting changes nothing but links. -/
theorem keeps_insertProcess (s : Scheduler) (p x : Word) :
    g ((insertProcess s p).desc x) = g (s.desc x) := by
  rw [insertProcess]
  split
  · rw [keeps_setPrev hp, keeps_setNext hn]
    rfl
  · rw [keeps_setPrev hp, keeps_setNext hn, keeps_setPrev hp, keeps_setNext hn]

end Keeps

/-- Saving a context changes no state. -/
theorem state_setContext (s : Scheduler) (p x : Word) (f : ProcessDesc → Context) :
    ((s.modify p fun d => d.setContext (f d)).desc x).state = (s.desc x).state := by
  by_cases hx : x = p
  · subst hx
    rw [Scheduler.desc_modify_self]
    rfl
  · rw [Scheduler.desc_modify_of_ne _ _ _ hx]

/-- Leaving changes no state. -/
theorem state_leaveCurrent (s : Scheduler) (c : Context) (x : Word) :
    ((leaveCurrent s c).desc x).state = (s.desc x).state := by
  rw [leaveCurrent]
  split
  · exact state_setContext s _ x fun _ => c
  · split
    · exact keeps_deleteCurrent (fun _ _ => rfl) (fun _ _ => rfl) s x
    · rfl

/-- Patching `esp0` changes no state. -/
theorem state_patchCurrent (s : Scheduler) (w x : Word) :
    ((patchCurrent s w).desc x).state = (s.desc x).state :=
  state_setContext s _ x fun d => patchContext w d.context

/-- **The ring that the search runs in**, in the order in which it is searched: after the
current process was left, the other processes and, unless it has ended, the current one. -/
theorem isRing_search {s : Scheduler} {l : List Word} (c : Context)
    (hring : IsRing s.next s.prev s.currentProcess l) (hperm : (s.currentProcess :: l).Perm s.live)
    (hmore : s.next s.currentProcess ≠ s.currentProcess) :
    let u := patchCurrent (leaveCurrent s c) (c.frame.cs &&& 3)
    ∃ d m, d :: m = (if s.current.state = 2 then l else l ++ [s.currentProcess]) ∧
      IsRing u.next u.prev d m ∧ (d :: m).Perm u.live ∧ u.next u.currentProcess = d := by
  cases l with
  | nil => exact absurd (hring.next_eq_self_iff.mpr rfl) hmore
  | cons d l =>
      have hleave : ∃ m, d :: m = (if s.current.state = 2 then d :: l
            else d :: l ++ [s.currentProcess]) ∧
          IsRing (leaveCurrent s c).next (leaveCurrent s c).prev d m ∧
          (d :: m).Perm (leaveCurrent s c).live ∧ (leaveCurrent s c).next s.currentProcess = d := by
        by_cases hended : s.current.state = 2
        · rw [leaveCurrent_of_ended c hended, if_pos hended]
          obtain ⟨hrest, hnext⟩ := isRing_deleteCurrent hring
          have herase := hperm.erase s.currentProcess
          rw [List.erase_cons_head, ← live_deleteCurrent] at herase
          exact ⟨l, rfl, hrest, herase, hnext⟩
        · obtain ⟨hnext, hprev, hlive⟩ := links_leaveCurrent c hended
          rw [if_neg hended, hlive, hnext]
          exact ⟨l ++ [s.currentProcess], rfl, hring.rotate.congr (fun x _ => hnext x)
            fun x _ => hprev x, (List.perm_append_singleton s.currentProcess (d :: l)).trans hperm,
            hring.path.1⟩
      obtain ⟨m, hm, hrest, hperm', hnext⟩ := hleave
      refine ⟨d, m, hm, hrest.congr (fun x _ => next_patchCurrent _ x _)
        fun x _ => prev_patchCurrent _ x _, hperm', ?_⟩
      have hcurrent : (patchCurrent (leaveCurrent s c) (c.frame.cs &&& 3)).currentProcess
          = s.currentProcess := currentProcess_leaveCurrent c hmore
      rw [hcurrent, next_patchCurrent]
      exact hnext

namespace RingInv

variable {s : Scheduler}

/-- The ring that the search runs in. -/
theorem search (h : RingInv s) (c : Context) (hc : s.currentProcess ≠ 0)
    (hmore : s.next s.currentProcess ≠ s.currentProcess) :
    let u := patchCurrent (leaveCurrent s c) (c.frame.cs &&& 3)
    ∃ d m, IsRing u.next u.prev d m ∧ (d :: m).Perm u.live ∧ u.next u.currentProcess = d := by
  obtain ⟨l, hring, hperm⟩ := h.of_current_ne hc
  obtain ⟨d, m, -, hsearch⟩ := isRing_search c hring hperm hmore
  exact ⟨d, m, hsearch⟩

/-- The live processes are all different. -/
theorem nodup (h : RingInv s) : s.live.Nodup := by
  rcases h.ring with ⟨-, hnil⟩ | ⟨l, hring, hperm⟩
  · rw [hnil]
    exact List.nodup_nil
  · exact hperm.nodup_iff.mp hring.nodup

/-- **The processes that are left**: all but a current one that has ended. -/
theorem mem_live_leave (h : RingInv s) (c : Context) {p : Word} :
    p ∈ (leaveCurrent s c).live ↔ p ∈ s.live ∧ ¬ (p = s.currentProcess ∧ s.current.state = 2) := by
  by_cases hended : s.current.state = 2
  · rw [leaveCurrent_of_ended c hended, live_deleteCurrent, h.nodup.mem_erase_iff]
    exact ⟨fun hp => ⟨hp.2, fun he => hp.1 he.1⟩, fun hp => ⟨fun he => hp.2 ⟨he, hended⟩, hp.1⟩⟩
  · rw [(links_leaveCurrent c hended).2.2]
    exact ⟨fun hp => ⟨hp, fun he => hended he.2⟩, And.left⟩

/-- Leaving the current process adds none. -/
theorem live_leave_subset (s : Scheduler) (c : Context) :
    (leaveCurrent s c).live ⊆ s.live := by
  by_cases hended : s.current.state = 2
  · rw [leaveCurrent_of_ended c hended, live_deleteCurrent]
    exact List.erase_subset
  · rw [(links_leaveCurrent c hended).2.2]
    exact List.Subset.refl _

/-- **A timer interrupt keeps the ring.** -/
theorem tick {s' : Scheduler} {c : Context} {out : Option SwitchArguments} (h : RingInv s)
    (hstep : switchProcess s c = some (s', out)) : RingInv s' := by
  rcases switchProcess_cases hstep with ⟨-, rfl, -⟩ | ⟨hc, hmore, p, hp, rfl, -⟩
  · exact h
  obtain ⟨d, l, hring, hperm, hnext⟩ := h.search c hc hmore
  obtain ⟨hpmem, -⟩ := hring.mem_of_iter_advance (hnext ▸ List.mem_cons_self) hp
  obtain ⟨m, hm, hmperm⟩ := hring.exists_rotate hpmem
  exact ⟨fun hm => h.null (live_leave_subset s c hm), Or.inr ⟨m, hm, hmperm.trans hperm⟩⟩

/-- Lists of different addresses are not longer than there are addresses. -/
theorem length_le {l : List Word} (h : l.Nodup) : l.length ≤ 2 ^ 32 := by
  have hmap : (l.map BitVec.toFin).Nodup := h.map fun _ _ he => BitVec.toFin_inj.mp he
  have hle := hmap.length_le_card
  rw [List.length_map, Fintype.card_fin] at hle
  exact hle

/-- **What a switch does** to the scheduler: the processes that remain are those that were
left, their states are unchanged, and the one that is entered is among them and is not
halted. -/
theorem switched {s' : Scheduler} {c : Context} {out : Option SwitchArguments}
    (h : RingInv s) (hstep : switchProcess s c = some (s', out)) (hc : s.currentProcess ≠ 0)
    (hmore : s.next s.currentProcess ≠ s.currentProcess) :
    (∀ p, p ∈ s'.live ↔ p ∈ s.live ∧ ¬ (p = s.currentProcess ∧ s.current.state = 2)) ∧
      (∀ p, (s'.desc p).state = (s.desc p).state) ∧ s'.currentProcess ∈ s'.live ∧
      (s.desc s'.currentProcess).state ≠ processHalted := by
  rcases switchProcess_cases hstep with ⟨hstay, -, -⟩ | ⟨-, -, p, hp, rfl, -⟩
  · exact absurd hstay (not_or.mpr ⟨hc, hmore⟩)
  have hstate : ∀ q, ((patchCurrent (leaveCurrent s c) (c.frame.cs &&& 3)).desc q).state
      = (s.desc q).state := fun q => by rw [state_patchCurrent, state_leaveCurrent]
  obtain ⟨d, l, hring, hperm, hnext⟩ := h.search c hc hmore
  obtain ⟨hmem, hnot⟩ := hring.mem_of_iter_advance (hnext ▸ List.mem_cons_self) hp
  refine ⟨fun q => h.mem_live_leave c, hstate, hperm.mem_iff.mp hmem, fun hhalted => ?_⟩
  exact Bool.eq_false_iff.mp hnot (beq_iff_eq.mpr ((hstate p).trans hhalted))

/-- **The search goes on forever** when nothing but halted processes is left. -/
theorem skipHalted_diverges (h : RingInv s) {c : Context} (hnone : ¬ LeavesRunnable s (.tick c))
    (fuel : ℕ) :
    let u := patchCurrent (leaveCurrent s c) (c.frame.cs &&& 3)
    Loop.iter (advance u.next fun p => (u.desc p).state == processHalted) fuel u.currentProcess
      = none := by
  obtain ⟨hc, hnone⟩ := not_or.mp hnone
  obtain ⟨hmore, hall⟩ := not_or.mp hnone
  obtain ⟨d, l, hring, hperm, hnext⟩ := h.search c hc hmore
  refine hring.iter_advance_eq_none (hnext ▸ List.mem_cons_self) (fun p hp => ?_) fuel
  obtain ⟨hlive, hstays⟩ := (h.mem_live_leave c).mp (hperm.mem_iff.mp hp)
  rw [state_patchCurrent, state_leaveCurrent, beq_iff_eq]
  by_contra hrunnable
  exact hall ⟨p, hlive, hrunnable, hstays⟩

/-- **`switch_process` returns** exactly when a process that is not halted is left. -/
theorem switchProcess_isSome_iff (h : RingInv s) (c : Context) :
    (∃ r, switchProcess s c = some r) ↔ LeavesRunnable s (.tick c) := by
  constructor
  · rintro ⟨r, hr⟩
    by_contra hnone
    have hdiverges := h.skipHalted_diverges hnone (2 ^ 32 + 1)
    rcases switchProcess_cases hr with ⟨hstay, -, -⟩ | ⟨-, -, p, hp, -, -⟩
    · exact hnone (hstay.imp_right Or.inl)
    · rw [skipHalted, hdiverges] at hp
      cases hp
  · intro hleaves
    rw [switchProcess]
    split
    · exact ⟨_, rfl⟩
    · rename_i hgo
      obtain ⟨hc, hmore⟩ := not_or.mp hgo
      obtain ⟨p, hp, hrunnable, hstays⟩ := (hleaves.resolve_left hc).resolve_left hmore
      obtain ⟨d, l, hring, hperm, hnext⟩ := h.search c hc hmore
      have hmem : p ∈ d :: l := hperm.mem_iff.mpr ((h.mem_live_leave c).mpr ⟨hp, hstays⟩)
      set u := patchCurrent (leaveCurrent s c) (c.frame.cs &&& 3) with hu
      have hgoal : ∃ p ∈ d :: l, (fun p => (u.desc p).state == processHalted) p = false := by
        refine ⟨p, hmem, ?_⟩
        simp only [hu, state_patchCurrent, state_leaveCurrent]
        exact beq_eq_false_iff_ne.mpr hrunnable
      have hlen : l.length + 1 < 2 ^ 32 + 1 := Nat.lt_succ_of_le (length_le hring.nodup)
      obtain ⟨-, q, -, -, -, -, hq⟩ := hring.iter_advance hnext hgoal hlen
      have hskip : skipHalted u = some q := hq
      exact ⟨_, by simp only [← hu, hskip, Option.map_some]; rfl⟩

end RingInv

/-! ### Runs -/

/-- **Every step keeps the ring.** -/
theorem schedStep_ring {s s' : Scheduler} {op : SchedOp} (h : RingInv s)
    (hop : AllocatesFresh s op) (hstep : schedStep s op = some s') : RingInv s' := by
  cases op with
  | create p stack directory eip =>
      obtain rfl := Option.some.inj hstep
      exact h.create hop.1 hop.2
  | update state =>
      obtain rfl := Option.some.inj hstep
      exact h.update state
  | tick c =>
      obtain ⟨⟨t, out⟩, hswitch, rfl⟩ := Option.map_eq_some_iff.mp hstep
      exact h.tick hswitch

/-- **Every operation returns**, a timer interrupt exactly when it need not search or leaves
a process that is not halted. -/
theorem schedStep_isSome_iff {s : Scheduler} (h : RingInv s) (op : SchedOp) :
    (∃ s', schedStep s op = some s') ↔ LeavesRunnable s op := by
  cases op with
  | create p stack directory eip => exact iff_of_true ⟨_, rfl⟩ trivial
  | update state => exact iff_of_true ⟨_, rfl⟩ trivial
  | tick c =>
      rw [← h.switchProcess_isSome_iff c]
      constructor
      · rintro ⟨s', hs'⟩
        obtain ⟨r, hr, -⟩ := Option.map_eq_some_iff.mp hs'
        exact ⟨r, hr⟩
      · rintro ⟨r, hr⟩
        exact ⟨r.1, by rw [schedStep, hr, Option.map_some]⟩

/-- A running process is not halted, and is not the one that is deleted. -/
theorem FindsRunning.leavesRunnable {s : Scheduler} {op : SchedOp} (h : FindsRunning s op) :
    LeavesRunnable s op := by
  cases op with
  | create p stack directory eip => trivial
  | update state => trivial
  | tick c =>
      refine h.imp_right fun hmore => hmore.imp_right ?_
      rintro ⟨p, hp, hrun⟩
      refine ⟨p, hp, by rw [hrun]; decide, ?_⟩
      rintro ⟨rfl, hended⟩
      exact absurd (hrun.symm.trans hended) (by decide)

/-- No process, no ring. -/
theorem RingInv.init {s₀ : Scheduler} (hlive : s₀.live = []) : RingInv (initProcesses s₀) where
  null := by
    rw [initProcesses, Scheduler.live_setCurrent, hlive]
    exact List.not_mem_nil
  ring := Or.inl ⟨rfl, hlive⟩

end LoofOS
