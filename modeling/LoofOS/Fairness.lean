import LoofOS.RoundRobin
import LoofOS.SavedContext

/-!
# Turns of the Scheduler

`switch_process` serves the processes round robin: the ring, read from the current process
on, is a queue in the sense of `LoofOS.RoundRobin`, a switch is a turn of it
(`isRing_switched`), and `create_process` adds to its end.

A process is identified by its descriptor, as long as the descriptor stays in the ring;
after it was deleted the same address can belong to another process.

## Main results

* `isRing_switched`: a switch is a turn of the queue.
* `Interval.step`: what one operation does between two turns of a process.
* `Passed.step`: what it does to a process that was passed over.
-/

namespace LoofOS

open LinkedRing RoundRobin Run

/-- The process that an operation hands to `switch_context`. -/
def dispatched (s : Scheduler) : SchedOp → Option Word
  | .tick c => (switchProcess s c).bind fun r => r.2.map fun _ => r.1.currentProcess
  | _ => none

/-- An early return dispatches nothing and changes nothing; a switch dispatches the process
that becomes the current one. -/
theorem tick_cases {s s' : Scheduler} {c : Context} (hstep : schedStep s (.tick c) = some s') :
    (dispatched s (.tick c) = none ∧ s' = s) ∨
      (∃ out, switchProcess s c = some (s', out)) ∧ s.currentProcess ≠ 0 ∧
        s.next s.currentProcess ≠ s.currentProcess ∧
        dispatched s (.tick c) = some s'.currentProcess := by
  obtain ⟨⟨s', out⟩, hswitch, rfl⟩ := Option.map_eq_some_iff.mp hstep
  rcases switchProcess_cases hswitch with ⟨-, rfl, rfl⟩ | ⟨hc, hmore, p, -, -, rfl⟩
  · exact Or.inl ⟨by rw [dispatched, hswitch]; rfl, rfl⟩
  · exact Or.inr ⟨⟨_, hswitch⟩, hc, hmore, by rw [dispatched, hswitch]; rfl⟩

/-- **A switch is a turn** of the queue of processes. -/
theorem isRing_switched {s s' : Scheduler} {c : Context} {out : Option SwitchArguments}
    {l : List Word} (hring : IsRing s.next s.prev s.currentProcess l)
    (hperm : (s.currentProcess :: l).Perm s.live) (hstep : switchProcess s c = some (s', out))
    (hc : s.currentProcess ≠ 0) (hmore : s.next s.currentProcess ≠ s.currentProcess) :
    ∃ m, IsRing s'.next s'.prev s'.currentProcess m ∧ (s'.currentProcess :: m).Perm s'.live ∧
      Turn (fun z => (s.desc z).state = processHalted)
        (candidates (s.current.state ≠ 2) (s.currentProcess :: l)) (s'.currentProcess :: m) := by
  rcases switchProcess_cases hstep with ⟨hstay, -, -⟩ | ⟨-, -, p, hp, rfl, -⟩
  · exact absurd hstay (not_or.mpr ⟨hc, hmore⟩)
  obtain ⟨d, m, hm, hring', hperm', hnext⟩ := isRing_search c hring hperm hmore
  set u := patchCurrent (leaveCurrent s c) (c.frame.cs &&& 3) with hu
  obtain ⟨hmem, hnot⟩ := hring'.mem_of_iter_advance (hnext ▸ List.mem_cons_self) hp
  have hlen : m.length + 1 < 2 ^ 32 + 1 := Nat.lt_succ_of_le (RingInv.length_le hring'.nodup)
  obtain ⟨pre, y, post, hcut, hpre, hy, hiter⟩ := hring'.iter_advance
    (P := fun p => (u.desc p).state == processHalted) hnext ⟨p, hmem, hnot⟩ hlen
  obtain rfl := Loop.iter_unique hiter hp
  have hstate : ∀ z, (u.desc z).state = (s.desc z).state := fun z => by
    rw [hu, state_patchCurrent, state_leaveCurrent]
  have hcand : candidates (s.current.state ≠ 2) (s.currentProcess :: l) = pre ++ y :: post := by
    rw [← hcut, hm, candidates]
    by_cases hended : s.current.state = 2
    · rw [if_pos hended, if_neg (by simp [hended])]
    · rw [if_neg hended, if_pos (decide_eq_true hended)]
  refine ⟨post ++ pre, hring'.cut hcut, ?_, ?_⟩
  · rw [hcut] at hperm'
    exact (@List.perm_append_comm _ pre (y :: post)).symm.trans hperm'
  · rw [hcand]
    refine Turn.intro pre y post (fun z hz => ?_) ?_
    · rw [← hstate]
      exact beq_iff_eq.mp (hpre z hz)
    · rw [← hstate]
      exact fun he => Bool.eq_false_iff.mp hy (beq_iff_eq.mpr he)

/-! ### Between two turns of a process -/

/-- **Between two turns of `p`**: `q` had `n` turns since the first of them. -/
structure Interval (p q : Word) (s : Scheduler) (n : ℕ) : Prop where
  ring : RingInv s
  queue : ∃ l, IsRing s.next s.prev s.currentProcess l ∧
    (s.currentProcess :: l).Perm s.live ∧ Phase p q (s.currentProcess :: l) n

/-- `p` is halted and some other process is on the CPU: `p` has no further turn. -/
structure Passed (p : Word) (s : Scheduler) : Prop where
  ring : RingInv s
  live : p ∈ s.live
  other : p ≠ s.currentProcess
  halted : (s.desc p).state = processHalted

/-- **What is dispatched** is one of the processes, and is not halted. -/
theorem RingInv.dispatched_runnable {s : Scheduler} (h : RingInv s) {op : SchedOp} {p : Word}
    (hp : dispatched s op = some p) : p ∈ s.live ∧ (s.desc p).state ≠ processHalted := by
  cases op with
  | create q stack directory eip => cases hp
  | update state => cases hp
  | tick c =>
      obtain ⟨r, hr, hout⟩ := Option.bind_eq_some_iff.mp hp
      have hstep : schedStep s (.tick c) = some r.1 := by rw [schedStep, hr, Option.map_some]
      rcases tick_cases hstep with ⟨hnone, -⟩ | ⟨⟨out, hswitch⟩, hc, hmore, hd⟩
      · rw [hnone] at hp
        cases hp
      · obtain rfl := Option.some.inj (hd.symm.trans hp)
        obtain ⟨hlive, -, hmem, hrunnable⟩ := h.switched hswitch hc hmore
        exact ⟨((hlive _).mp hmem).1, hrunnable⟩

/-- Creating and updating leave the states of the other processes alone. -/
theorem state_schedStep {s s' : Scheduler} {op : SchedOp} (hfresh : AllocatesFresh s op)
    (hstep : schedStep s op = some s') {p : Word} (hp : p ∈ s.live)
    (hother : p ≠ s.currentProcess ∨ ∀ w, op ≠ .update w) :
    (s'.desc p).state = (s.desc p).state := by
  cases op with
  | create q stack directory eip =>
      obtain rfl := Option.some.inj hstep
      have hne : p ≠ q := fun he => hfresh.2 (he ▸ hp)
      exact desc_createProcess_of_ne (fun _ _ => rfl) (fun _ _ => rfl) s _ _ _ hne
  | update w =>
      obtain rfl := Option.some.inj hstep
      rw [updateProcess, Scheduler.desc_modify_of_ne _ _ _ (hother.resolve_right fun h => h w rfl)]
  | tick c =>
      obtain ⟨⟨s', out⟩, hswitch, rfl⟩ := Option.map_eq_some_iff.mp hstep
      rcases switchProcess_cases hswitch with ⟨-, rfl, -⟩ | ⟨-, -, q, -, rfl, -⟩
      · rfl
      · exact (state_patchCurrent _ _ p).trans (state_leaveCurrent s c p)

/-- Only a switch changes the current process, while there is one. -/
theorem currentProcess_schedStep {s s' : Scheduler} {op : SchedOp} (h : RingInv s)
    (hstep : schedStep s op = some s') {p : Word} (hp : p ∈ s.live)
    (hnone : dispatched s op = none) : s'.currentProcess = s.currentProcess := by
  cases op with
  | create q stack directory eip =>
      obtain rfl := Option.some.inj hstep
      exact currentProcess_createProcess h hp
  | update w =>
      obtain rfl := Option.some.inj hstep
      rfl
  | tick c =>
      rcases tick_cases hstep with ⟨-, rfl⟩ | ⟨-, -, -, hd⟩
      · rfl
      · rw [hd] at hnone
        cases hnone

/-- What is dispatched becomes the current process, and is live. -/
theorem dispatched_eq {s s' : Scheduler} {op : SchedOp} (h : RingInv s)
    (hstep : schedStep s op = some s') {p : Word} (hd : dispatched s op = some p) :
    s'.currentProcess = p ∧ p ∈ s'.live := by
  cases op with
  | create q stack directory eip => cases hd
  | update w => cases hd
  | tick c =>
      rcases tick_cases hstep with ⟨hnone, -⟩ | ⟨⟨out, hswitch⟩, hc, hmore, hd'⟩
      · rw [hnone] at hd
        cases hd
      · obtain rfl := Option.some.inj (hd'.symm.trans hd)
        exact ⟨rfl, (h.switched hswitch hc hmore).2.2.1⟩

/-- **A process that was passed over** stays so. -/
theorem Passed.step {p : Word} {s s' : Scheduler} {op : SchedOp} (h : Passed p s)
    (hfresh : AllocatesFresh s op) (hstep : schedStep s op = some s') (hp : p ∈ s'.live) :
    Passed p s' ∧ dispatched s op ≠ some p := by
  have hnot : dispatched s op ≠ some p := fun hd => (h.ring.dispatched_runnable hd).2 h.halted
  refine ⟨⟨schedStep_ring h.ring hfresh hstep, hp, ?_, ?_⟩, hnot⟩
  · cases hd : dispatched s op with
    | none =>
        rw [currentProcess_schedStep h.ring hstep h.live hd]
        exact h.other
    | some r =>
        rw [(dispatched_eq h.ring hstep hd).1]
        exact fun he => hnot (he ▸ hd)
  · rw [state_schedStep hfresh hstep h.live (Or.inl h.other)]
    exact h.halted

/-- **One operation between two turns** of `p`, while `q` is running: it is the second turn
of `p`, and `q` had one; or `p` was passed over; or the interval goes on. -/
theorem Interval.step {p q : Word} {s s' : Scheduler} {op : SchedOp} {n : ℕ}
    (h : Interval p q s n) (hfresh : AllocatesFresh s op) (hstep : schedStep s op = some s')
    (hp : p ∈ s'.live) (hpl : p ∈ s.live) (hqp : q ≠ p) (hq : q ∈ s.live)
    (hrun : (s.desc q).state = processRunning) :
    (dispatched s op = some p ∧ n = 1) ∨ (dispatched s op ≠ some p ∧ (Passed p s' ∨
      Interval p q s' (n + (dispatched s op).toList.count q))) := by
  have hring := schedStep_ring h.ring hfresh hstep
  obtain ⟨l, hl, hperm, hphase⟩ := h.queue
  cases op with
  | create r stack directory eip =>
      obtain rfl := Option.some.inj hstep
      refine Or.inr ⟨(Option.some_ne_none p).symm, Or.inr ⟨hring, ?_⟩⟩
      have hc : s.currentProcess ≠ 0 := by
        intro hc
        rw [h.ring.live_eq_nil hc] at hq
        cases hq
      have hr : r ∉ s.currentProcess :: l := fun hm => hfresh.2 (hperm.mem_iff.mp hm)
      obtain ⟨hl', hcurrent⟩ := @isRing_createProcess s r stack directory eip l hl hc hr
      rw [hcurrent, live_createProcess]
      exact ⟨l ++ [r], hl', (List.perm_append_singleton r _).trans (hperm.cons r),
        hphase.enqueue r⟩
  | update w =>
      obtain rfl := Option.some.inj hstep
      refine Or.inr ⟨(Option.some_ne_none p).symm, Or.inr ⟨hring, l, ?_, hperm, hphase⟩⟩
      exact hl.congr (fun x _ => next_updateProcess s x w) fun x _ => prev_updateProcess s x w
  | tick c =>
      rcases tick_cases hstep with ⟨hnone, rfl⟩ | ⟨⟨out, hswitch⟩, hc, hmore, hd⟩
      · rw [hnone]
        exact Or.inr ⟨(Option.some_ne_none p).symm, Or.inr h⟩
      · obtain ⟨m, hm, hperm', hturn⟩ := isRing_switched hl hperm hswitch hc hmore
        obtain ⟨hlive, hstate, -, -⟩ := h.ring.switched hswitch hc hmore
        have hrunnable : ¬ (s.desc q).state = processHalted := by
          rw [hrun]
          decide
        have hq' : q ∈ s'.live := by
          refine (hlive q).mpr ⟨hq, fun he => ?_⟩
          obtain ⟨rfl, hended⟩ := he
          exact absurd (hrun.symm.trans hended) (by decide)
        rw [hd]
        rcases hphase.turn hl.nodup hturn (hperm'.mem_iff.mpr hp) (hperm'.mem_iff.mpr hq') hqp
          hrunnable with ⟨he, hn⟩ | ⟨hne, hhalted⟩ | ⟨hne, hphase'⟩
        · exact Or.inl ⟨by rw [he], hn⟩
        · refine Or.inr ⟨fun he => hne (Option.some.inj he), Or.inl ⟨hring, hp, hne.symm, ?_⟩⟩
          rw [hstate]
          exact hhalted
        · refine Or.inr ⟨fun he => hne (Option.some.inj he), Or.inr ⟨hring, m, hm, hperm', ?_⟩⟩
          have hcount : (some s'.currentProcess).toList.count q
              = if s'.currentProcess = q then 1 else 0 := by
            rw [Option.toList_some, List.count_singleton]
            simp only [beq_iff_eq]
          rw [hcount]
          exact hphase'

end LoofOS
