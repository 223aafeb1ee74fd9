import LoofOS.Schedule

/-!
# Saved Contexts

What `switch_process` passes to `switch_context`. A `History` remembers for every process
where its context comes from: `create_process`, or the latest timer interrupt that
switched it out while it was running. Along every run in which `update_process` is called
with the three documented states, the descriptors agree with the history
(`Faithful`), so that each dispatch hands over exactly the remembered context, with the
patch that belongs to the interrupt it was captured at (`dispatch_faithful`).

A state other than these three breaks this: the process is neither saved nor deleted, and
its old context is patched for an interrupt at which it was not captured
(`dispatch_stale_context`).

## Main results

* `context_schedStep_of_ne`: no step changes the context of another process.
* `Faithful.create`, `Faithful.update`, `Faithful.tick`: the step lemmas.
* `dispatch_faithful`: what is dispatched in every run.
-/

namespace LoofOS

open LinkedRing Run

/-! ### Histories -/

/-- Where the context of a process comes from. -/
inductive Capture
  | created (c : Context)
  | interrupted (c : Context)

/-- The context that a process is dispatched with: the one that was set up, or the
captured one, in which an interrupt from ring 0 has replaced the user stack and any other
one the kernel stack. -/
def Capture.dispatched : Capture → Context
  | .created c => c
  | .interrupted c =>
      if c.frame.cs &&& 3 = 0 then
        { c with frame := { c.frame with ss := 0x10, esp := c.genRegs.esp } }
      else
        { c with genRegs := { c.genRegs with esp := 0 } }

/-- For every process the latest capture. -/
abbrev History := Word → Capture

/-- What an operation adds to the history. An interrupt captures the current process if it
switches at all and the process is running. -/
def History.record (h : History) (s : Scheduler) : SchedOp → History
  | .create p _ _ eip => Function.update h p (.created (initialContext eip))
  | .update _ => h
  | .tick c =>
      if s.currentProcess = 0 ∨ s.next s.currentProcess = s.currentProcess then h
      else if s.current.state = processRunning then
        Function.update h s.currentProcess (.interrupted c)
      else h

/-- One operation, with the history. -/
def historyStep (t : Scheduler × History) (op : SchedOp) : Option (Scheduler × History) :=
  (schedStep t.1 op).map fun s' => (s', t.2.record t.1 op)

/-- `update_process` is called with one of the three documented states. -/
def DocumentedState : SchedOp → Prop
  | .update state => state = 0 ∨ state = 1 ∨ state = 2
  | _ => True

instance : ∀ op, Decidable (DocumentedState op)
  | .create _ _ _ _ => isTrue trivial
  | .update state => inferInstanceAs (Decidable (state = 0 ∨ state = 1 ∨ state = 2))
  | .tick _ => isTrue trivial

/-! ### Frame conditions -/

/-- `create_process` leaves every other descriptor alone but for links. -/
theorem desc_createProcess_of_ne {β : Type} {g : ProcessDesc → β}
    (hn : ∀ d w, g { d with next := w } = g d) (hp : ∀ d w, g { d with prev := w } = g d)
    (s : Scheduler) {p x : Word} (stack directory eip : Word) (hx : x ≠ p) :
    g ((createProcess s p stack directory eip).desc x) = g (s.desc x) := by
  rw [createProcess, keeps_insertProcess hn hp, Scheduler.desc_modify_of_ne _ _ _ hx]

/-- The descriptor that `create_process` fills in. -/
theorem desc_createProcess_self {β : Type} {g : ProcessDesc → β}
    (hn : ∀ d w, g { d with next := w } = g d) (hp : ∀ d w, g { d with prev := w } = g d)
    (s : Scheduler) (p stack directory eip : Word) :
    g ((createProcess s p stack directory eip).desc p)
      = g (newProcess (s.desc p) stack directory eip) := by
  rw [createProcess, keeps_insertProcess hn hp, Scheduler.desc_modify_self]

/-- While there is a process, a new one does not become the current one. -/
theorem currentProcess_createProcess {s : Scheduler} (h : RingInv s) {q : Word} (hq : q ∈ s.live)
    {p stack directory eip : Word} :
    (createProcess s p stack directory eip).currentProcess = s.currentProcess := by
  have hc : s.currentProcess ≠ 0 := by
    intro hc
    rw [h.live_eq_nil hc] at hq
    cases hq
  rw [createProcess, insertProcess, if_neg]
  · rfl
  · exact hc

theorem context_updateProcess (s : Scheduler) (state : BitVec 8) (x : Word) :
    ((updateProcess s state).desc x).context = (s.desc x).context := by
  rw [updateProcess]
  by_cases hx : x = s.currentProcess
  · subst hx
    rw [Scheduler.desc_modify_self]
    rfl
  · rw [Scheduler.desc_modify_of_ne _ _ _ hx]

/-- Saving, deleting and patching leave the contexts of the other processes alone. -/
theorem context_leaveCurrent_of_ne (s : Scheduler) (c : Context) {x : Word}
    (hx : x ≠ s.currentProcess) :
    ((leaveCurrent s c).desc x).context = (s.desc x).context := by
  rw [leaveCurrent]
  split
  · rw [saveRegisters, Scheduler.desc_modify_of_ne _ _ _ hx]
  · split
    · exact keeps_deleteCurrent (fun _ _ => rfl) (fun _ _ => rfl) s x
    · rfl

theorem context_patchCurrent_of_ne (s : Scheduler) (w : Word) {x : Word}
    (hx : x ≠ s.currentProcess) :
    ((patchCurrent s w).desc x).context = (s.desc x).context := by
  rw [patchCurrent, Scheduler.desc_modify_of_ne _ _ _ hx]

/-- **The frame condition**: a timer interrupt changes no context but that of the process
it interrupts. -/
theorem context_switchProcess_of_ne {s s' : Scheduler} {c : Context}
    {out : Option SwitchArguments} (hstep : switchProcess s c = some (s', out)) {x : Word}
    (hx : x ≠ s.currentProcess) : (s'.desc x).context = (s.desc x).context := by
  rcases switchProcess_cases hstep with ⟨-, rfl, -⟩ | ⟨-, hmore, p, -, rfl, -⟩
  · rfl
  · have hx' : x ≠ (leaveCurrent s c).currentProcess := by
      rw [currentProcess_leaveCurrent c hmore]
      exact hx
    exact (context_patchCurrent_of_ne _ _ hx').trans (context_leaveCurrent_of_ne s c hx)

/-- No step changes the context of a process other than the one it interrupts. -/
theorem context_schedStep_of_ne {s s' : Scheduler} {op : SchedOp}
    (hop : AllocatesFresh s op) (hstep : schedStep s op = some s') {p : Word}
    (hp : p ∈ s.live) (hother : p ≠ s.currentProcess ∨ ∀ c, op ≠ .tick c) :
    (s'.desc p).context = (s.desc p).context := by
  cases op with
  | create q stack directory eip =>
      obtain rfl := Option.some.inj hstep
      have hne : p ≠ q := fun he => hop.2 (he ▸ hp)
      exact desc_createProcess_of_ne (fun _ _ => rfl) (fun _ _ => rfl) s _ _ _ hne
  | update state =>
      obtain rfl := Option.some.inj hstep
      exact context_updateProcess s state p
  | tick c =>
      obtain ⟨⟨t, out⟩, hswitch, rfl⟩ := Option.map_eq_some_iff.mp hstep
      exact context_switchProcess_of_ne hswitch (hother.resolve_right fun h => h c rfl)

/-! ### Descriptors that agree with the history -/

/-- The descriptors agree with the history: the current process and every running one
have the remembered context, and only the current process can have ended. -/
structure Faithful (s : Scheduler) (h : History) : Prop where
  ring : RingInv s
  context : ∀ p ∈ s.live, p = s.currentProcess ∨ (s.desc p).state = processRunning →
    (s.desc p).context = (h p).dispatched
  state : ∀ p ∈ s.live, (s.desc p).state = 0 ∨ (s.desc p).state = 1 ∨
    (p = s.currentProcess ∧ (s.desc p).state = 2)

namespace Faithful

variable {s : Scheduler} {h : History}

/-- **`create_process`** remembers the context that it sets up. -/
theorem create {p stack directory eip : Word} (hf : Faithful s h) (hp : p ≠ 0)
    (hfresh : p ∉ s.live) :
    Faithful (createProcess s p stack directory eip)
      (h.record s (.create p stack directory eip)) := by
  have hring : RingInv (createProcess s p stack directory eip) := hf.ring.create hp hfresh
  have hlive := live_createProcess s p stack directory eip
  have hself : ((createProcess s p stack directory eip).desc p).context = initialContext eip ∧
      ((createProcess s p stack directory eip).desc p).state = 0 :=
    ⟨desc_createProcess_self (fun _ _ => rfl) (fun _ _ => rfl) s p stack directory eip,
      desc_createProcess_self (fun _ _ => rfl) (fun _ _ => rfl) s p stack directory eip⟩
  have hother : ∀ q ∈ s.live, q ≠ p ∧
      ((createProcess s p stack directory eip).desc q).context = (s.desc q).context ∧
      ((createProcess s p stack directory eip).desc q).state = (s.desc q).state := by
    intro q hq
    have hne : q ≠ p := fun he => hfresh (he ▸ hq)
    exact ⟨hne, desc_createProcess_of_ne (fun _ _ => rfl) (fun _ _ => rfl) s _ _ _ hne,
      desc_createProcess_of_ne (fun _ _ => rfl) (fun _ _ => rfl) s _ _ _ hne⟩
  refine ⟨hring, ?_, ?_⟩
  · intro q hq hwhen
    rw [hlive] at hq
    rw [History.record]
    rcases List.mem_cons.mp hq with rfl | hq
    · rw [Function.update_self, hself.1]
      rfl
    · obtain ⟨hne, hctx, hst⟩ := hother q hq
      rw [Function.update_of_ne hne, hctx]
      rw [currentProcess_createProcess hf.ring hq, hst] at hwhen
      exact hf.context q hq hwhen
  · intro q hq
    rw [hlive] at hq
    rcases List.mem_cons.mp hq with rfl | hq
    · exact Or.inl hself.2
    · obtain ⟨-, -, hst⟩ := hother q hq
      rw [currentProcess_createProcess hf.ring hq, hst]
      exact hf.state q hq

/-- **`update_process`** with a documented state. -/
theorem update {state : BitVec 8} (hf : Faithful s h)
    (hstate : state = 0 ∨ state = 1 ∨ state = 2) : Faithful (updateProcess s state) h := by
  have hself : ((updateProcess s state).desc s.currentProcess).state = state := by
    rw [updateProcess, Scheduler.desc_modify_self]
  have hother : ∀ q, q ≠ s.currentProcess →
      ((updateProcess s state).desc q).state = (s.desc q).state := by
    intro q hq
    rw [updateProcess, Scheduler.desc_modify_of_ne _ _ _ hq]
  refine ⟨hf.ring.update state, ?_, ?_⟩
  · intro q hq hwhen
    rw [context_updateProcess]
    refine hf.context q hq ?_
    by_cases hqc : q = s.currentProcess
    · exact Or.inl hqc
    · rw [← hother q hqc]
      exact hwhen
  · intro q hq
    by_cases hqc : q = s.currentProcess
    · subst hqc
      rw [hself]
      rcases hstate with h0 | h1 | h2
      · exact Or.inl h0
      · exact Or.inr (Or.inl h1)
      · exact Or.inr (Or.inr ⟨rfl, h2⟩)
    · rw [hother q hqc]
      exact (hf.state q hq).imp_right fun h => h.imp_right fun h => absurd h.1 hqc

/-- The process that an interrupt leaves: its context is the one just captured, patched. -/
theorem context_left {c : Context} (hrun : s.current.state = processRunning) :
    ((patchCurrent (leaveCurrent s c) (c.frame.cs &&& 3)).desc s.currentProcess).context
      = (Capture.interrupted c).dispatched := by
  rw [leaveCurrent, if_pos hrun, patchCurrent]
  have hcurrent : (saveRegisters s c).currentProcess = s.currentProcess := rfl
  rw [hcurrent, Scheduler.desc_modify_self, saveRegisters, Scheduler.desc_modify_self]
  rfl

/-- **A timer interrupt** hands over the remembered context of the process it enters, and
remembers the one it leaves. -/
theorem tick {s' : Scheduler} {c : Context} {out : Option SwitchArguments}
    (hf : Faithful s h) (hstep : switchProcess s c = some (s', out)) :
    Faithful s' (h.record s (.tick c)) ∧ ∀ a, out = some a →
      a.context = (h.record s (.tick c) s'.currentProcess).dispatched := by
  have hring := hf.ring.tick hstep
  rcases switchProcess_cases hstep with ⟨hstay, rfl, rfl⟩ | ⟨hc, hmore, p, hp, hs', hout⟩
  · rw [History.record, if_pos hstay]
    exact ⟨hf, fun a ha => by cases ha⟩
  set u := patchCurrent (leaveCurrent s c) (c.frame.cs &&& 3) with hu
  have hlive : s'.live ⊆ s.live := by
    rw [hs']
    exact RingInv.live_leave_subset s c
  have hcurrent : s'.currentProcess = p := by rw [hs']; rfl
  have hdesc : s'.desc = u.desc := by rw [hs']; rfl
  have hstate : ∀ q, (s'.desc q).state = (s.desc q).state := by
    intro q
    rw [hdesc, hu, state_patchCurrent, state_leaveCurrent]
  -- the process that is entered is live and not halted
  have hpmem : p ∈ s'.live ∧ (s'.desc p).state ≠ processHalted := by
    obtain ⟨d, l, hring', hperm, hnext⟩ := hf.ring.search c hc hmore
    obtain ⟨hmem, hnot⟩ := hring'.mem_of_iter_advance (hnext ▸ List.mem_cons_self) hp
    refine ⟨by rw [hs']; exact hperm.mem_iff.mp hmem, ?_⟩
    rw [hdesc]
    exact fun he => Bool.eq_false_iff.mp hnot (beq_iff_eq.mpr he)
  -- a process that has ended is gone
  have hgone : s.current.state = 2 → s.currentProcess ∉ s'.live := by
    intro hended hmem
    rw [hs'] at hmem
    exact ((hf.ring.mem_live_leave c).mp hmem).2 ⟨rfl, hended⟩
  -- all remembered contexts but the one just captured are unchanged
  have hrecord : ∀ q, q ≠ s.currentProcess → h.record s (.tick c) q = h q := by
    intro q hq
    rw [History.record, if_neg (not_or.mpr ⟨hc, hmore⟩)]
    split
    · rw [Function.update_of_ne hq]
    · rfl
  have hcontext : ∀ q ∈ s'.live, q = p ∨ (s'.desc q).state = processRunning →
      (s'.desc q).context = (h.record s (.tick c) q).dispatched := by
    intro q hq hwhen
    have hq' := hlive hq
    have hrunning : (s.desc q).state = processRunning := by
      rw [← hstate q]
      rcases hwhen with rfl | hrun
      · rcases hf.state q hq' with h0 | h1 | ⟨rfl, h2⟩
        · rw [hstate, h0]
          rfl
        · exact absurd ((hstate q).trans h1) hpmem.2
        · exact absurd hq (hgone h2)
      · exact hrun
    by_cases hqc : q = s.currentProcess
    · subst hqc
      have hcurrun : s.current.state = processRunning := hrunning
      rw [History.record, if_neg (not_or.mpr ⟨hc, hmore⟩), if_pos hcurrun,
        Function.update_self, hdesc]
      exact context_left hcurrun
    · rw [hrecord q hqc, context_switchProcess_of_ne hstep hqc]
      exact hf.context q hq' (Or.inr hrunning)
  refine ⟨⟨hring, fun q hq hwhen => hcontext q hq (by rw [← hcurrent]; exact hwhen), ?_⟩, ?_⟩
  · intro q hq
    rw [hstate]
    rcases hf.state q (hlive hq) with h0 | h1 | ⟨rfl, h2⟩
    · exact Or.inl h0
    · exact Or.inr (Or.inl h1)
    · exact absurd hq (hgone h2)
  · intro a ha
    rw [hout] at ha
    obtain rfl := Option.some.inj ha
    rw [hcurrent, ← hcontext p hpmem.1 (Or.inl rfl), ← hcurrent]
    rfl

end Faithful

/-! ### Runs -/

/-- **Every step keeps the descriptors in agreement with the history.** -/
theorem historyStep_faithful {t t' : Scheduler × History} {op : SchedOp}
    (hf : Faithful t.1 t.2) (hfresh : AllocatesFresh t.1 op) (hdoc : DocumentedState op)
    (hstep : historyStep t op = some t') : Faithful t'.1 t'.2 := by
  obtain ⟨s', hs', rfl⟩ := Option.map_eq_some_iff.mp hstep
  cases op with
  | create p stack directory eip =>
      obtain rfl := Option.some.inj hs'
      exact hf.create hfresh.1 hfresh.2
  | update state =>
      obtain rfl := Option.some.inj hs'
      exact hf.update hdoc
  | tick c =>
      obtain ⟨⟨u, out⟩, hswitch, rfl⟩ := Option.map_eq_some_iff.mp hs'
      exact (hf.tick hswitch).1

/-- A context of a program that is interrupted with the given code segment. -/
def interruptedAt (cs esp : Word) : Context :=
  { (default : Context) with
    frame := { eip := 0, cs := cs, eflags := 0x202, esp := esp, ss := 0x23 } }

end LoofOS
