import LoofOS.CleanHeap
import LoofOS.Fairness

/-!
# Waiting for the CPU

A process that is not halted gets the CPU after at most as many timer interrupts as there are other
processes, whatever is stored, pushed and updated in between (`machine_fair`). Nothing changes its
state while it waits, so that it need only be known not to be halted when it begins to wait.

## Main results

* `Image.Awaits.step`: one step while a process waits.
* `machine_fair`: a waiting process gets the CPU.
-/

namespace LoofOS

open LinkedRing RoundRobin Run

variable {img : Image} {m m' : Machine} {k k' : Kernel} {s s' : Scheduler} {p : Word} {n : ℕ}

/-- `p` waits for the CPU, and gets it within `n` switches. -/
structure Scheduler.Awaits (s : Scheduler) (p : Word) (n : ℕ) : Prop where
  queue : ∃ l, IsRing s.next s.prev s.currentProcess l ∧ (s.currentProcess :: l).Perm s.live ∧
    Waiting p n l
  runs : (s.desc p).state ≠ processHalted

namespace Scheduler.Awaits

/-- A waiting process is live. -/
theorem live (h : s.Awaits p n) : p ∈ s.live := by
  obtain ⟨l, -, hperm, hwait⟩ := h.queue
  exact hperm.mem_iff.mp (List.mem_cons_of_mem _ hwait.mem)

/-- A waiting process is not the one that runs. -/
theorem ne_current (h : s.Awaits p n) : p ≠ s.currentProcess := by
  obtain ⟨l, hring, -, hwait⟩ := h.queue
  rintro rfl
  exact (List.nodup_cons.mp hring.nodup).1 hwait.mem

/-- There is somebody to switch to. -/
theorem more (h : s.Awaits p n) : s.next s.currentProcess ≠ s.currentProcess := by
  obtain ⟨l, hring, -, hwait⟩ := h.queue
  intro he
  rw [hring.next_eq_self_iff.mp he] at hwait
  exact List.not_mem_nil hwait.mem

/-- **A switch** is to `p`, or brings `p` closer. -/
theorem switch {c : Context} {out : Option SwitchArguments} (h : s.Awaits p (n + 1))
    (hc : s.currentProcess ≠ 0) (hswitch : switchProcess s c = some (s', out)) :
    s'.currentProcess = p ∨ s'.Awaits p n := by
  obtain ⟨l, hring, hperm, hwait⟩ := h.queue
  obtain ⟨m, hring', hperm', hturn⟩ := isRing_switched hring hperm hswitch hc h.more
  have hstep : schedStep s (.tick c) = some s' := by rw [schedStep, hswitch, Option.map_some]
  have hstate := @state_schedStep s s' (.tick c) trivial hstep p h.live (Or.inl h.ne_current)
  refine (hwait.turn hturn h.runs).imp_right fun hwait' => ⟨⟨m, hring', hperm', hwait'⟩, ?_⟩
  rw [hstate]
  exact h.runs

/-- The current process updates its own state. -/
theorem update (h : s.Awaits p n) (state : BitVec 8) : (updateProcess s state).Awaits p n := by
  obtain ⟨l, hring, hperm, hwait⟩ := h.queue
  refine ⟨⟨l, hring.congr (fun x _ => next_updateProcess s x state)
    fun x _ => prev_updateProcess s x state, hperm, hwait⟩, ?_⟩
  rw [updateProcess, Scheduler.desc_modify_of_ne _ _ _ h.ne_current]
  exact h.runs

end Scheduler.Awaits

/-! ### On the machine -/

/-- The process at `q` waits for the CPU while switching is on. -/
def Image.Awaits (img : Image) (m : Machine) (q n : ℕ) : Prop :=
  m.switching = true ∧ ∃ s bs tables free p, img.Sound m s bs tables free ∧ s.Awaits p n ∧
    p.toNat = q

/-- The timer interrupt gives the CPU to the process at `q`. -/
def Image.Gives (img : Image) (m : Machine) (c : Context) (q : ℕ) : Prop :=
  ∃ k' a, m.kernel.timerHandler img.tss m.switching c = some (k', some a) ∧ k'.currentProcess = q

/-- A timer interrupt. -/
def MachineOp.isTimer : MachineOp → Bool
  | .timer _ => true
  | _ => false

/-- **A timer interrupt** gives the CPU to the process that waits, or brings it closer. -/
theorem Image.Awaits.timer {q : ℕ} {c : Context} (h : img.Awaits m q (n + 1))
    (hstep : img.step m (.timer c) = some m') : img.Gives m c q ∨ img.Awaits m' q n := by
  obtain ⟨hon, s, bs, tables, free, p, h, hwait, rfl⟩ := h
  obtain ⟨⟨k', out⟩, hk, rfl⟩ := Option.map_eq_some_iff.mp hstep
  have hswitch := hk
  rw [Kernel.timerHandler, if_pos hon] at hswitch
  obtain ⟨s', hs, h'⟩ := h.timer hon hswitch
  obtain ⟨u, hu, hrec, -, hstay, hgo⟩ := h.switchProcess hswitch
  obtain ⟨rfl, -⟩ := Prod.mk.inj (Option.some.inj (hs.symm.trans hu))
  have hc : s.currentProcess ≠ 0 := fun hz => by
    have hlive := hwait.live
    rw [h.faithful.ring.live_eq_nil hz] at hlive
    exact List.not_mem_nil hlive
  rcases hwait.switch hc hs with he | hwait'
  · have hstays := h.records.stays_iff h.faithful.ring
    obtain ⟨hc', hmore⟩ := not_or.mp (mt hstays.mpr (not_or.mpr ⟨hc, hwait.more⟩))
    obtain ⟨rfl, -⟩ := hgo hc' hmore
    exact Or.inl ⟨k', _, hk, hrec.current ▸ congrArg BitVec.toNat he⟩
  · exact Or.inr ⟨hon, s', bs, tables, free, p, h', hwait', rfl⟩

/-- **What else happens** does not change who waits how long. -/
theorem Image.Awaits.step {q : ℕ} {op : MachineOp} (h : img.Awaits m q n) (hop : img.Allows m op)
    (hstep : img.step m op = some m') (hnot : op.isTimer = false) : img.Awaits m' q n := by
  obtain ⟨hon, s, bs, tables, free, p, h, hwait, rfl⟩ := h
  cases op with
  | createProcess eip => exact absurd (hop.1.symm.trans hon) Bool.false_ne_true
  | enableSwitching =>
      obtain rfl := Option.some.inj hstep
      exact ⟨rfl, s, bs, tables, free, p, h.enableSwitching, hwait, rfl⟩
  | forceEnterUserland =>
      obtain rfl := Option.some.inj hstep
      exact ⟨hon, s, bs, tables, free, p, h.forceEnterUserland hop, hwait, rfl⟩
  | timer c => cases hnot
  | updateProcess state =>
      obtain rfl := Option.some.inj hstep
      exact ⟨hon, _, bs, tables, free, p, h.updateProcess hop, hwait.update _, rfl⟩
  | userStore addr b =>
      obtain ⟨k', hk, rfl⟩ := Option.map_eq_some_iff.mp hstep
      exact ⟨hon, s, bs, tables, free, p, h.userStore addr.isLt hk, hwait, rfl⟩
  | kernelPush addr b =>
      obtain rfl := Option.some.inj hstep
      exact ⟨hon, s, bs, tables, free, p, h.kernelPush hop, hwait, rfl⟩
  | bootPush addr b =>
      obtain rfl := Option.some.inj hstep
      exact ⟨hon, s, bs, tables, free, p, h.bootPush hop, hwait, rfl⟩

/-- A waiting process has a turn still to come. -/
theorem Image.Awaits.pos {q : ℕ} (h : img.Awaits m q n) : 0 < n := by
  obtain ⟨-, s, bs, tables, free, p, -, ⟨⟨l, -, -, a, b, -, hlt⟩, -⟩, -⟩ := h
  exact Nat.zero_lt_of_lt hlt

/-- **Runs**: a process that waits gets the CPU once there were enough timer interrupts. -/
theorem Image.Awaits.exec {q : ℕ} {ops : List MachineOp} (h : img.Awaits m q n)
    (hops : Meets img.step img.Allows m ops) (hrun : exec img.step m ops = some m')
    (hticks : n ≤ ops.countP MachineOp.isTimer) :
    ∃ before c after u, ops = before ++ .timer c :: after ∧
      Run.exec img.step m before = some u ∧ img.Gives u c q := by
  induction ops generalizing m n with
  | nil => exact absurd (Nat.le_zero.mp hticks) h.pos.ne'
  | cons op ops ih =>
      obtain ⟨u, hu, hrest⟩ := exec_cons_inv hrun
      -- what holds of the rest of the run holds of the run
      have hcons : ∀ {n : ℕ}, img.Awaits u q n → n ≤ ops.countP MachineOp.isTimer →
          ∃ before c after v, op :: ops = before ++ .timer c :: after ∧
            Run.exec img.step m before = some v ∧ img.Gives v c q := fun h' hn => by
        obtain ⟨before, c, after, v, rfl, hexec, hgives⟩ := ih h' (hops.2 u hu) hrest hn
        exact ⟨op :: before, c, after, v, rfl, (exec_cons hu before).trans hexec, hgives⟩
      rw [List.countP_cons] at hticks
      by_cases htimer : op.isTimer = true
      · obtain ⟨c, rfl⟩ : ∃ c, op = .timer c := by
          cases op with
          | timer c => exact ⟨c, rfl⟩
          | _ => cases htimer
        obtain ⟨n, rfl⟩ := Nat.exists_eq_succ_of_ne_zero h.pos.ne'
        rw [if_pos htimer] at hticks
        rcases h.timer hu with hgives | hwait
        · exact ⟨[], c, ops, m, rfl, rfl, hgives⟩
        · exact hcons hwait (Nat.le_of_succ_le_succ hticks)
      · rw [if_neg htimer, Nat.add_zero] at hticks
        exact hcons (h.step hops.1 hu (Bool.eq_false_iff.mpr htimer)) hticks

/-- **Nobody waits forever**, in any part of any run: a process that is not halted when it begins to
wait gets the CPU by the time that there were as many timer interrupts as there are other
processes. -/
theorem machine_fair {ops ops' : List MachineOp} {q : ℕ} (hboot : Booted k)
    (h : img.Reaches k ops m) (hon : m.switching = true) (hq : q ∈ m.kernel.descriptors)
    (hwaits : m.kernel.currentProcess ≠ q) (hruns : m.kernel.stateOf q ≠ 1)
    (hops' : Meets img.step img.Allows m ops') (hrun' : exec img.step m ops' = some m')
    (hticks : m.kernel.processes.length ≤ ops'.countP MachineOp.isTimer + 1) :
    ∃ before c after u, ops' = before ++ .timer c :: after ∧ exec img.step m before = some u ∧
      img.Gives u c q := by
  obtain ⟨-, s, -, -, bs, tables, free, hs⟩ := machine_carriesOut hboot h
  rw [← hs.records.live] at hq
  obtain ⟨p, hp, rfl⟩ := List.mem_map.mp hq
  have hc : s.currentProcess ≠ 0 := fun hz => by
    rw [hs.faithful.ring.live_eq_nil hz] at hp
    exact List.not_mem_nil hp
  obtain ⟨l, hring, hperm⟩ := hs.faithful.ring.of_current_ne hc
  have hmem : p ∈ l := by
    refine (List.mem_cons.mp (hperm.mem_iff.mpr hp)).resolve_left ?_
    rintro rfl
    exact hwaits hs.records.current.symm
  have hlen : m.kernel.processes.length = l.length + 1 := by
    have hlive := congrArg List.length hs.records.live
    rw [List.length_map, Kernel.descriptors, List.length_map] at hlive
    rw [← hlive, ← hperm.length_eq, List.length_cons]
  have hawaits : img.Awaits m p.toNat l.length :=
    ⟨hon, s, bs, tables, free, p, hs, ⟨⟨l, hring, hperm, Waiting.of_mem hmem⟩,
      fun he => hruns ((hs.records.state_iff hp 1).mp he)⟩, rfl⟩
  exact hawaits.exec hops' hrun' (by omega)

/-- The second process gets the CPU when the first one is interrupted. -/
theorem machine_fair_two : ∃ m q, sampleImage.Reaches (bootKernel bootRam) kernelMainOps m ∧
    m.kernel.currentProcess ≠ q ∧
    ∃ before c after u, interruption = before ++ .timer c :: after ∧
      exec sampleImage.step m before = some u ∧ sampleImage.Gives u c q := by
  obtain ⟨m, -, m', x, h, hon, htwo, hx, hne, hruns, -, hexec⟩ := interruption_runs
  exact ⟨m, x.1, h, hne, machine_fair booted_zeroRam h hon (Kernel.mem_descriptors hx) hne hruns
    meets_interruption hexec (htwo ▸ Nat.le_refl 2)⟩

end LoofOS
