import LoofOS.KernelFairness

/-!
# Processes That Stop

A process stops when `update_process` sets its state to halted or ended. What follows is
decided by `switch_process` at the next timer interrupts: it returns early when the ring
has one member only, it deletes a current process that has ended, and its search skips the
halted ones.

The search is left exactly when a process that is not halted is still in the ring. A stopped
process is left for good, unless it is alone in the ring: then `switch_process` returns early, and
the process runs on.

`StopInv` and its steps are about the records; what holds in memory follows by `Carries`.

## Main results

* `scheduler_returns_iff`: the runs in which every call of it returns.
* `StopInv.step`: what every operation keeps of the stopped processes.
* `stopped_stays`: the runs in which a stopped process does not run on.
-/

namespace LoofOS

open LinkedRing Run

variable {img : Image} {k k' : Kernel} {s : Scheduler} {op : KernelOp}

/-! ### When the scheduler returns -/

/-- A timer interrupt leaves a process in the ring that is not halted, or does not search. -/
def Kernel.LeavesRunnable (k : Kernel) : KernelOp → Prop
  | .tick _ => k.currentProcess = 0 ∨ k.nextOf k.currentProcess = k.currentProcess ∨
      ∃ p ∈ k.descriptors, k.stateOf p ≠ 1 ∧
        ¬ (p = k.currentProcess ∧ k.stateOf k.currentProcess = 2)
  | _ => True

instance (k : Kernel) : ∀ op, Decidable (k.LeavesRunnable op)
  | .tick _ => decidable_of_iff (k.currentProcess = 0 ∨
      k.nextOf k.currentProcess = k.currentProcess ∨
      k.descriptors.any (fun p => k.stateOf p ≠ 1 ∧
        ¬ (p = k.currentProcess ∧ k.stateOf k.currentProcess = 2)) = true) (by
      simp only [Kernel.LeavesRunnable, List.any_eq_true, decide_eq_true_eq])
  | .create _ _ _ _ => isTrue trivial
  | .enter => isTrue trivial
  | .update _ => isTrue trivial
  | .write _ _ => isTrue trivial

/-- `update_process` is called by a process, with one of the three states. -/
def Kernel.UpdatesCurrent (k : Kernel) : KernelOp → Prop
  | .update state => k.currentProcess ≠ 0 ∧ (state = 0 ∨ state = 1 ∨ state = 2)
  | _ => True

instance (k : Kernel) : ∀ op, Decidable (k.UpdatesCurrent op)
  | .update state => inferInstanceAs
      (Decidable (k.currentProcess ≠ 0 ∧ (state = 0 ∨ state = 1 ∨ state = 2)))
  | .create _ _ _ _ => isTrue trivial
  | .enter => isTrue trivial
  | .tick _ => isTrue trivial
  | .write _ _ => isTrue trivial

namespace Carries

/-- The same processes can run. -/
theorem leavesRunnable_iff (h : Carries k s) (c : Context) :
    k.LeavesRunnable (.tick c) ↔ LeavesRunnable s (.tick c) := by
  by_cases hstay : k.currentProcess = 0 ∨ k.nextOf k.currentProcess = k.currentProcess
  · have hstay' := (h.records.stays_iff h.ring).mpr hstay
    exact iff_of_true (hstay.imp_right Or.inl) (hstay'.imp_right Or.inl)
  · have hstay' := mt (h.records.stays_iff h.ring).mp hstay
    obtain ⟨hc, hmore⟩ := not_or.mp hstay
    obtain ⟨hc', hmore'⟩ := not_or.mp hstay'
    have hcurrent := h.ring.current_mem hc'
    have hended : s.current.state = 2 ↔ k.stateOf k.currentProcess = 2 :=
      h.records.current ▸ h.records.state_iff hcurrent 2
    have hsame : ∀ p : Word, p.toNat = k.currentProcess ↔ p = s.currentProcess := fun p => by
      rw [← h.records.current, BitVec.toNat_inj]
    simp only [Kernel.LeavesRunnable, LeavesRunnable, hc, hmore, hc', hmore', false_or]
    constructor
    · rintro ⟨p, hp, hrun, hstays⟩
      obtain ⟨w, hw, rfl⟩ := h.exists_word hp
      rw [hsame, ← hended] at hstays
      exact ⟨w, hw, fun he => hrun ((h.records.state_iff hw 1).mp he), hstays⟩
    · rintro ⟨w, hw, hrun, hstays⟩
      rw [← hsame, hended] at hstays
      exact ⟨w.toNat, h.records.mem hw, fun he => hrun ((h.records.state_iff hw 1).mpr he), hstays⟩

/-- **Every operation returns**, a timer interrupt exactly when it need not search or leaves a
process that is not halted. -/
theorem schedule_isSome_iff (h : Carries k s) (img : Image) (hop : k.Guarded op) :
    (∃ k', img.schedule k op = some k') ↔ k.LeavesRunnable op := by
  cases op with
  | create p stack directory eip => exact iff_of_true ⟨_, rfl⟩ trivial
  | enter => exact iff_of_true ⟨_, rfl⟩ trivial
  | update state => exact iff_of_true ⟨_, rfl⟩ trivial
  | write a b => exact iff_of_true ⟨_, rfl⟩ trivial
  | tick c =>
      rw [h.leavesRunnable_iff, ← h.ring.switchProcess_isSome_iff]
      rcases h.tick img c hop.2 with ⟨hk, hs⟩ | ⟨k', s', out, hk, hs, -, -⟩
      · refine iff_of_false (fun ⟨u, hu⟩ => ?_) fun ⟨r, hr⟩ => ?_
        · rw [Image.schedule, hk] at hu
          cases hu
        · rw [hs] at hr
          cases hr
      · exact iff_of_true ⟨_, by rw [Image.schedule, hk]; rfl⟩ ⟨_, hs⟩

end Carries

/-- The processes that were stopped and not set back to running: `update_process` stops the current
process or sets it back; a new process is not a stopped one, whatever was at its address before. -/
def stoppedAfter (current : Word) (stopped : List Word) : SchedOp → List Word
  | .create p _ _ _ => stopped.filter (· ≠ p)
  | .update state =>
      if current = 0 then stopped
      else if state = processRunning then stopped.filter (· ≠ current)
      else if state = processHalted ∨ state = 2 then current :: stopped
      else stopped
  | .tick _ => stopped

/-- **What holds of stopped processes**: one that is still live is halted or, if it is the
current one, ended. -/
structure StopInv (s : Scheduler) (stopped : List Word) : Prop where
  ring : RingInv s
  ended : ∀ p ∈ s.live, p ≠ s.currentProcess → (s.desc p).state ≠ 2
  halted : ∀ p ∈ s.live, p ∈ stopped →
    (s.desc p).state = processHalted ∨ (s.desc p).state = 2
  null : (0 : Word) ∉ stopped

namespace StopInv

variable {stopped : List Word}

/-- **`create_process`** makes a running process. -/
theorem create {p stack directory eip : Word} (h : StopInv s stopped) (hp : p ≠ 0)
    (hfresh : p ∉ s.live) :
    StopInv (createProcess s p stack directory eip) (stopped.filter (· ≠ p)) := by
  have hself : ((createProcess s p stack directory eip).desc p).state = 0 :=
    desc_createProcess_self (fun _ _ => rfl) (fun _ _ => rfl) s p stack directory eip
  have hother : ∀ q, q ≠ p →
      ((createProcess s p stack directory eip).desc q).state = (s.desc q).state :=
    fun q hne => desc_createProcess_of_ne (fun _ _ => rfl) (fun _ _ => rfl) s _ _ _ hne
  refine ⟨h.ring.create hp hfresh, ?_, ?_, ?_⟩
  · intro q hq hcurrent
    by_cases hqp : q = p
    · rw [hqp, hself]
      decide
    · have hlive : q ∈ s.live := by
        rw [live_createProcess] at hq
        exact (List.mem_cons.mp hq).resolve_left hqp
      rw [hother q hqp]
      rw [currentProcess_createProcess h.ring hlive] at hcurrent
      exact h.ended q hlive hcurrent
  · intro q hq hstopped
    obtain ⟨hstopped, hqp⟩ := List.mem_filter.mp hstopped
    have hqp := of_decide_eq_true hqp
    have hlive : q ∈ s.live := by
      rw [live_createProcess] at hq
      exact (List.mem_cons.mp hq).resolve_left hqp
    rw [hother q hqp]
    exact h.halted q hlive hstopped
  · exact fun hnull => h.null (List.mem_of_mem_filter hnull)

/-- **`update_process`** with a state that is documented if the process was stopped. -/
theorem update {state : BitVec 8} (h : StopInv s stopped)
    (hstate : s.currentProcess ∈ stopped →
      state = processRunning ∨ state = processHalted ∨ state = 2) :
    StopInv (updateProcess s state) (stoppedAfter s.currentProcess stopped (.update state)) := by
  have hother : ∀ q, q ≠ s.currentProcess →
      ((updateProcess s state).desc q).state = (s.desc q).state := by
    intro q hq
    rw [updateProcess, Scheduler.desc_modify_of_ne _ _ _ hq]
  have hself : ((updateProcess s state).desc s.currentProcess).state = state := by
    rw [updateProcess, Scheduler.desc_modify_self]
  have hlive : (updateProcess s state).live = s.live := rfl
  refine ⟨h.ring.update state, ?_, ?_, ?_⟩
  · intro q hq hcurrent
    rw [hother q hcurrent]
    exact h.ended q hq hcurrent
  · intro q hq hstopped
    have hnull : s.currentProcess ≠ 0 := by
      intro hc
      rw [hlive, h.ring.live_eq_nil hc] at hq
      cases hq
    rw [stoppedAfter, if_neg hnull] at hstopped
    by_cases hcurrent : q = s.currentProcess
    · subst hcurrent
      rw [hself]
      split at hstopped
      · exact absurd rfl (of_decide_eq_true (List.mem_filter.mp hstopped).2)
      · split at hstopped
        · assumption
        · exact (hstate hstopped).resolve_left ‹_›
    · rw [hother q hcurrent]
      refine h.halted q hq ?_
      split at hstopped
      · exact List.mem_of_mem_filter hstopped
      · split at hstopped
        · exact (List.mem_cons.mp hstopped).resolve_left hcurrent
        · exact hstopped
  · rw [stoppedAfter]
    split
    · exact h.null
    split
    · exact fun hnull => h.null (List.mem_of_mem_filter hnull)
    split
    · exact fun hnull => (List.mem_cons.mp hnull).elim (fun he => absurd he.symm ‹_›) h.null
    · exact h.null

/-- **A timer interrupt** goes on with a process that is not stopped. -/
theorem tick {c : Context} {s' : Scheduler} (h : StopInv s stopped)
    (halone : s.currentProcess ∈ stopped → s.next s.currentProcess ≠ s.currentProcess)
    (hstep : schedStep s (.tick c) = some s') :
    StopInv s' stopped ∧ s'.currentProcess ∉ stopped := by
  obtain ⟨⟨s', out⟩, hswitch, rfl⟩ := Option.map_eq_some_iff.mp hstep
  have hring := h.ring.tick hswitch
  by_cases hstay : s.currentProcess = 0 ∨ s.next s.currentProcess = s.currentProcess
  · -- nothing changes, and the current process is not a stopped one
    rcases switchProcess_cases hswitch with ⟨-, rfl, -⟩ | ⟨hc, hmore, -⟩
    · refine ⟨h, ?_⟩
      rcases hstay with hnone | hself
      · rw [hnone]
        exact h.null
      · exact fun hstopped => halone hstopped hself
    · exact absurd hstay (not_or.mpr ⟨hc, hmore⟩)
  · obtain ⟨hc, hmore⟩ := not_or.mp hstay
    obtain ⟨hlive, hstate, hmem, hrunnable⟩ := h.ring.switched hswitch hc hmore
    have hended : ∀ q ∈ s'.live, (s.desc q).state ≠ 2 := by
      intro q hq hended
      obtain ⟨hq, hstays⟩ := (hlive q).mp hq
      by_cases hcurrent : q = s.currentProcess
      · subst hcurrent
        exact hstays ⟨rfl, hended⟩
      · exact h.ended q hq hcurrent hended
    refine ⟨⟨hring, fun q hq _ => ?_, fun q hq hstopped => ?_, h.null⟩, fun hstopped => ?_⟩
    · rw [hstate]
      exact hended q hq
    · rw [hstate]
      exact h.halted q ((hlive q).mp hq).1 hstopped
    · exact (h.halted _ ((hlive _).mp hmem).1 hstopped).elim hrunnable (hended _ hmem)

end StopInv

/-! ### Stopped processes in memory -/

/-- The kernel, with the processes that were stopped and not set back to running. -/
structure StopState where
  kernel : Kernel
  stopped : List Word

namespace StopState

/-- The process that `current_process` points to. -/
def current (t : StopState) : Word := BitVec.ofNat 32 t.kernel.currentProcess

/-- One operation. -/
def step (img : Image) (t : StopState) (op : KernelOp) : Option StopState :=
  (img.schedule t.kernel op).map fun k =>
    ⟨k, op.sched.elim t.stopped (stoppedAfter t.current t.stopped)⟩

/-- The process that goes on after a timer interrupt is not a stopped one. -/
def StaysStopped (img : Image) (t : StopState) : KernelOp → Prop
  | .tick c => ∀ k, img.schedule t.kernel (.tick c) = some k →
      BitVec.ofNat 32 k.currentProcess ∉ t.stopped
  | _ => True

/-- No timer interrupt comes while the current process is stopped and alone in the ring,
and a stopped process is given no undocumented state. -/
def StopsTogether (t : StopState) : KernelOp → Prop
  | .tick _ => t.current ∈ t.stopped →
      t.kernel.nextOf t.kernel.currentProcess ≠ t.kernel.currentProcess
  | .update state => t.current ∈ t.stopped → state = 0 ∨ state = 1 ∨ state = 2
  | _ => True

instance (t : StopState) : ∀ op, Decidable (t.StopsTogether op)
  | .tick _ => inferInstanceAs (Decidable (t.current ∈ t.stopped →
      t.kernel.nextOf t.kernel.currentProcess ≠ t.kernel.currentProcess))
  | .update state => inferInstanceAs
      (Decidable (t.current ∈ t.stopped → state = 0 ∨ state = 1 ∨ state = 2))
  | .create _ _ _ _ => isTrue trivial
  | .enter => isTrue trivial
  | .write _ _ => isTrue trivial

/-- The stopped processes of the records. -/
def Stops (t : StopState) : Prop := ∃ s, Carries t.kernel s ∧ StopInv s t.stopped

variable {t t' : StopState}

/-- **A timer interrupt** goes on with a process that is not stopped. -/
theorem tick {c : Context} (h : t.Stops) (hspares : t.kernel.Spares (.tick c))
    (halone : t.StopsTogether (.tick c)) (hstep : img.schedule t.kernel (.tick c) = some k) :
    (∃ s, Carries k s ∧ StopInv s t.stopped) ∧ BitVec.ofNat 32 k.currentProcess ∉ t.stopped := by
  obtain ⟨s, hk, hstop⟩ := h
  have hcurrent : ∀ {k s}, Carries k s → BitVec.ofNat 32 k.currentProcess = s.currentProcess :=
    fun hk => by rw [← hk.records.current, BitVec.ofNat_toNat, BitVec.setWidth_eq]
  have hapart : t.kernel.Apart (.tick c) := trivial
  rcases hk.step img hapart hspares with ⟨hnone, -⟩ | ⟨u, s', hu, hk', hrecord⟩
  · exact absurd (hnone.symm.trans hstep) nofun
  obtain rfl := Option.some.inj (hu.symm.trans hstep)
  obtain ⟨o, ho, -, hsched⟩ := hrecord.resolve_left fun h => nomatch h.1
  obtain rfl := Option.some.inj ho
  have hmore : s.currentProcess ∈ t.stopped → s.next s.currentProcess ≠ s.currentProcess := by
    intro hstopped hself
    have hnull : s.currentProcess ≠ 0 := fun h0 => hstop.null (h0 ▸ hstopped)
    have hkernel := (hk.records.stays_iff hk.ring).mp (Or.inr hself)
    refine halone (by rwa [StopState.current, hcurrent hk]) (hkernel.resolve_left fun h0 => ?_)
    exact hnull (BitVec.eq_of_toNat_eq (hk.records.current.trans h0))
  obtain ⟨hstop', hnot⟩ := hstop.tick hmore hsched
  exact ⟨⟨s', hk', hstop'⟩, by rwa [hcurrent hk']⟩

/-- **Every step** allowed by the condition. -/
theorem Stops.step (h : t.Stops) (hop : t.kernel.Guarded op) (htogether : t.StopsTogether op)
    (hstep : StopState.step img t op = some t') : t'.Stops := by
  obtain ⟨k, hk', rfl⟩ := Option.map_eq_some_iff.mp hstep
  cases op with
  | tick c => exact (StopState.tick h hop.2 htogether hk').1
  | enter =>
      obtain ⟨s, hk, hstop⟩ := h
      obtain rfl := Option.some.inj hk'
      exact ⟨s, hk.enter img, hstop⟩
  | write a b =>
      obtain ⟨s, hk, hstop⟩ := h
      rcases hk.step img hop.1 hop.2 with ⟨-, o, ho, -⟩ | ⟨u, s', hu, hcarries, hrecord⟩
      · cases ho
      obtain rfl := Option.some.inj (hu.symm.trans hk')
      obtain ⟨-, rfl⟩ := hrecord.resolve_right fun ⟨_, ho, _⟩ => nomatch ho
      exact ⟨s', hcarries, hstop⟩
  | create p stack directory eip =>
      obtain ⟨s, hk, hstop⟩ := h
      obtain rfl := Option.some.inj hk'
      obtain ⟨hp₀, hp⟩ := hk.fresh hop.1
      exact ⟨_, hk.create hop.1 img.kernelMemory, hstop.create hp₀ hp⟩
  | update state =>
      obtain ⟨s, hk, hstop⟩ := h
      obtain rfl := Option.some.inj hk'
      have hcurrent : t.current = s.currentProcess := by
        rw [StopState.current, ← hk.records.current, BitVec.ofNat_toNat, BitVec.setWidth_eq]
      refine ⟨_, hk.update state, ?_⟩
      change StopInv _ (stoppedAfter t.current t.stopped (.update (BitVec.ofNat 8 state.toNat)))
      rw [hcurrent]
      refine hstop.update fun hstopped => ?_
      rcases htogether (hcurrent ▸ hstopped) with rfl | rfl | rfl
      · exact Or.inl rfl
      · exact Or.inr (Or.inl rfl)
      · exact Or.inr (Or.inr rfl)

end StopState

/-- `update_process` is called with one of the three documented states. -/
def KernelOp.Documented : KernelOp → Prop
  | .update state => state = 0 ∨ state = 1 ∨ state = 2
  | _ => True

instance : ∀ op : KernelOp, Decidable op.Documented
  | .update state => inferInstanceAs (Decidable (state = 0 ∨ state = 1 ∨ state = 2))
  | .create _ _ _ _ => isTrue trivial
  | .enter => isTrue trivial
  | .tick _ => isTrue trivial
  | .write _ _ => isTrue trivial

end LoofOS
