import LoofOS.CleanHeap

/-!
# Protection

What holds in every run of the machine: it carries out the scheduler (`machine_refines`), processes
are isolated from one another and from the kernel whatever they store (`stores_protected`), and a
process that gets the CPU is given the context that was captured last, its own page directory and
its own kernel stack (`machine_dispatch`).

## Main results

* `machine_refines`: runs of the machine are runs of the scheduler.
* `stores_protected`: what a store in user mode leaves alone.
* `machine_progress`: which stores fault, and when a timer interrupt hangs.
* `machine_dispatch`: what a process is given when it gets the CPU.
-/

namespace LoofOS

open LinkedRing Run

variable {img : Image} {m : Machine} {k k' : Kernel} {s : Scheduler} {bs : List Block}
  {tables free : List ℕ}

/-- **Runs of the machine are runs of the scheduler**: there is a run of `create_process`,
`update_process` and `switch_process` on records after which the descriptors in memory are the
records, and every timer interrupt passes the same arguments to `switch_context`, or goes on
forever, in both. -/
theorem machine_refines {ops : List MachineOp} (hboot : Booted k) (h : img.Reaches k ops m) :
    ∃ sops s, Meets schedStep Regular idleScheduler sops ∧
      exec schedStep idleScheduler sops = some s ∧ Represents m.kernel s ∧
      ∀ c, (m.kernel.timerHandler img.tss m.switching c).map Prod.snd
        = (timerHandler m.switching s c).map Prod.snd := by
  obtain ⟨sops, s, hmeets, hexec, bs, tables, free, h⟩ := machine_carriesOut hboot h
  refine ⟨sops, s, hmeets, hexec, h.records, fun c => ?_⟩
  rw [Kernel.timerHandler, timerHandler]
  split
  · rcases h.records.switchProcess h.faithful.ring h.separate h.not_ended h.tss_below c with
      ⟨hk, hs⟩ | ⟨k', s', out, hk, hs, -⟩
    · rw [hk, hs]
      rfl
    · rw [hk, hs]
      rfl
  · rfl

/-- The machine that starts two processes, one of which stores a byte and is interrupted. -/
theorem machine_refines_interrupted :
    ∃ m, sampleImage.Reaches (bootKernel bootRam) interruptedOps m ∧
    ∃ sops s, Meets schedStep Regular idleScheduler sops ∧
      exec schedStep idleScheduler sops = some s ∧ Represents m.kernel s ∧
      ∀ c, (m.kernel.timerHandler sampleImage.tss m.switching c).map Prod.snd
        = (timerHandler m.switching s c).map Prod.snd := by
  obtain ⟨m, h⟩ := interrupted_reaches
  exact ⟨m, h, machine_refines booted_zeroRam h⟩

/-- What a store in user mode leaves alone: the memory of the kernel, the free list, the memory that
other processes reach, and what the page directories map. -/
structure SparesProcesses (k k' : Kernel) (x : ℕ × ℕ) : Prop where
  kernel : ∀ y, kernelBase ≤ y → k'.ram.byte y = k.ram.byte y
  freelist : ∃ free, LinkedChain.Chain k.read32 k.pageFreelist free kernelBase ∧
    LinkedChain.Chain k'.read32 k'.pageFreelist free kernelBase
  memory : ∀ y ∈ k.processes, y ≠ x → ∀ addr acc, UserAccess k.ram.byte y.2 addr acc →
    k'.ram.byte (wrap32 (acc.physical + kernelBase))
      = k.ram.byte (wrap32 (acc.physical + kernelBase))
  maps : ∀ y ∈ k.processes, ∀ addr < 2 ^ 32,
    translate k'.ram.byte (sub32 y.2 kernelBase) addr
      = translate k.ram.byte (sub32 y.2 kernelBase) addr

/-- **A store of one process** spares the others. -/
theorem Image.Sound.sparesProcesses {addr : ℕ} {b : UInt8} (h : img.Sound m s bs tables free)
    (haddr : addr < 2 ^ 32) (hstore : m.kernel.userStore addr b = some k') :
    ∃ x ∈ m.kernel.processes, x.1 = m.kernel.currentProcess ∧
      m.kernel.cr3.headD 0 = sub32 x.2 kernelBase ∧ SparesProcesses m.kernel k' x := by
  obtain ⟨d, hd, hdir, acc, hacc, rfl, hq⟩ := h.spaces.userStore img.place
    h.loaded_directory haddr hstore
  obtain ⟨hwrap, hlt, -⟩ := h.spaces.userAccess_bounds hd hacc
  have hmem : ∀ y ∈ m.kernel.processes, y.2 ∈ m.kernel.directories := fun _ =>
    Kernel.mem_directories
  -- the directory that is loaded is that of the current process
  have hcurrent : (m.kernel.currentProcess, d) ∈ m.kernel.processes := by
    obtain ⟨d', hmem', hdir'⟩ :=
      h.loaded.resolve_left fun he => h.directory_ne hd (hdir.symm.trans he)
    obtain rfl := sub32_kernelBase_inj (h.directory_bounds hd).2
      (h.directory_bounds (hmem _ hmem')).2 (hdir.symm.trans hdir')
    exact hmem'
  have hisolated := h.spaces.isolated h.pages
  refine ⟨_, hcurrent, rfl, hdir, ⟨fun y hy => ?_,
    ⟨free, h.spaces.space.chain, hq.spaces.space.chain⟩, fun y hy hne addr' acc' hacc' => ?_,
    fun y hy addr' haddr' => hq.translate h.spaces (hmem y hy) userIndex_of_lt haddr'⟩⟩
  · generalize acc.physical - pageOffset = z at hlt
    exact Mem.store_of_ne b (by omega)
  · obtain ⟨hwrap', -⟩ := h.spaces.userAccess_bounds (hmem y hy) hacc'
    have hphysical : acc'.physical ≠ acc.physical := fun he =>
      hne (hisolated.apart y hy _ hcurrent addr' addr acc' acc hacc' hacc (by rw [he])).1
    have habove := hisolated.above y hy addr' acc' hacc'
    have habove' := hisolated.above _ hcurrent addr acc hacc
    have hne : acc'.physical - pageOffset ≠ acc.physical - pageOffset := by omega
    rw [hwrap']
    generalize acc.physical - pageOffset = z at hne
    generalize acc'.physical - pageOffset = z' at hne
    exact Mem.store_of_ne b hne

/-- **Stores of processes, in every run**: processes are isolated, and a store in user mode is one
of the current process, in its own address space. It changes no memory of the kernel, no memory that
another process reaches, and nothing that is mapped. -/
theorem stores_protected {ops : List MachineOp} (hboot : Booted k) (h : img.Reaches k ops m) :
    Isolated m.kernel ∧ ∀ addr b m', img.step m (.userStore addr b) = some m' →
      ∃ x ∈ m.kernel.processes, x.1 = m.kernel.currentProcess ∧
        m.kernel.cr3.headD 0 = sub32 x.2 kernelBase ∧
        SparesProcesses m.kernel m'.kernel x := by
  obtain ⟨-, s, -, -, bs, tables, free, h⟩ := machine_carriesOut hboot h
  refine ⟨h.spaces.isolated h.pages, fun addr b m' hstep => ?_⟩
  obtain ⟨k', hk, rfl⟩ := Option.map_eq_some_iff.mp hstep
  exact h.sparesProcesses addr.isLt hk

/-- The same after the interrupt of the first process. -/
theorem stores_protected_interrupted :
    ∃ m, sampleImage.Reaches (bootKernel bootRam) interruptedOps m ∧
      Isolated m.kernel ∧ ∀ addr b m', sampleImage.step m (.userStore addr b) = some m' →
        ∃ x ∈ m.kernel.processes, x.1 = m.kernel.currentProcess ∧
          m.kernel.cr3.headD 0 = sub32 x.2 kernelBase ∧
          SparesProcesses m.kernel m'.kernel x := by
  obtain ⟨m, h⟩ := interrupted_reaches
  exact ⟨m, h, stores_protected booted_zeroRam h⟩

/-- **What faults and what hangs, in every run**: once a process has been entered, a store in user
mode takes place exactly when it is to one of the two pages that `create_process` maps, and a timer
interrupt goes on forever exactly when there are several processes and all of them are halted. -/
theorem machine_progress {ops : List MachineOp} (hboot : Booted k) (h : img.Reaches k ops m) :
    (m.kernel.cr3.headD 0 ≠ sub32 img.kernelMemory kernelBase → ∀ addr b,
      (∃ m', img.step m (.userStore addr b) = some m') ↔
        addr.toNat / 4096 = 0 ∨ addr.toNat / 4096 = kernelBase / 4096 - 1) ∧
    ∀ c, (∃ m', img.step m (.timer c) = some m') ↔
      m.switching = false ∨ m.kernel.currentProcess = 0 ∨
        m.kernel.nextOf m.kernel.currentProcess = m.kernel.currentProcess ∨
        ∃ q ∈ m.kernel.descriptors, m.kernel.stateOf q ≠ 1 := by
  obtain ⟨-, s, -, -, bs, tables, free, h⟩ := machine_carriesOut hboot h
  have hmap : ∀ {α : Type} {f : α → Machine} (o : Option α),
      (∃ m', o.map f = some m') ↔ ∃ r, o = some r := fun o => by
    rw [← Option.isSome_iff_exists, Option.isSome_map, Option.isSome_iff_exists]
  refine ⟨fun hload addr b => ?_, fun c => ?_⟩
  · rw [Image.step, hmap]
    exact h.userStore_isSome_iff hload addr.isLt
  · rw [Image.step, hmap]
    exact h.timer_isSome_iff c

/-- The same after the interrupt of the first process, which has stored to one of its two pages. -/
theorem machine_progress_interrupted :
    ∃ m, sampleImage.Reaches (bootKernel bootRam) interruptedOps m ∧
      (m.kernel.cr3.headD 0 ≠ sub32 sampleImage.kernelMemory kernelBase → ∀ addr b,
        (∃ m', sampleImage.step m (.userStore addr b) = some m') ↔
          addr.toNat / 4096 = 0 ∨ addr.toNat / 4096 = kernelBase / 4096 - 1) ∧
      ∀ c, (∃ m', sampleImage.step m (.timer c) = some m') ↔
        m.switching = false ∨ m.kernel.currentProcess = 0 ∨
          m.kernel.nextOf m.kernel.currentProcess = m.kernel.currentProcess ∨
          ∃ q ∈ m.kernel.descriptors, m.kernel.stateOf q ≠ 1 := by
  obtain ⟨m, h⟩ := interrupted_reaches
  exact ⟨m, h, machine_progress booted_zeroRam h⟩

/-! ### Dispatching -/

/-- The current process is entered: its page directory is passed to `switch_context`, and the TSS
has the top of a kernel stack that is a block of its own. -/
structure Image.Enters (img : Image) (k : Kernel) (a : SwitchArguments) : Prop where
  directory : ∃ d, (k.currentProcess, d) ∈ k.processes ∧ a.pageDirectory.toNat = sub32 d kernelBase
  stack : ∃ e, (e, 4096) ∈ k.live ∧ k.read32 (img.tss + 4) = e + 4092 ∧ e ∉ k.directories ∧
    (∀ q n, (q, n) ∈ k.live → q ≠ e → q + n ≤ e ∨ e + 4096 ≤ q) ∧
    ∀ q ∈ k.descriptors, q ≠ k.currentProcess → k.read32 (q + esp0Offset) ≠ e + 4092

/-- A process that is loaded is entered with its own page directory and its own kernel stack. -/
theorem Image.Sound.enters (h : img.Sound m s bs tables free) (hload : img.Loaded m.kernel s) :
    img.Enters m.kernel (switchArguments s) := by
  have hmem := h.faithful.ring.current_mem hload.current
  obtain ⟨e, he⟩ := h.stack _ hmem
  refine ⟨⟨_, h.records.current ▸ h.directory hmem, toNat_sub_kernelBase _⟩,
    e, he.live, hload.stack.trans he.top, fun hd => he.page (List.mem_append_left _ hd),
    fun q n hq hne => h.spaces.space.heap.live_apart hq he.live hne, fun q hq hne htop => ?_⟩
  obtain ⟨p, hp, rfl⟩ := List.mem_map.mp (h.records.live ▸ hq)
  have hsame := h.own p hp _ hmem (BitVec.eq_of_toNat_eq
    ((h.records.esp0 hp).trans (htop.trans he.top.symm)))
  exact hne (hsame ▸ h.records.current)

/-- The process that a kernel with these records has on the CPU. -/
theorem Represents.ofNat_current (h : Represents k s) :
    BitVec.ofNat 32 k.currentProcess = s.currentProcess := by
  rw [← h.current, BitVec.ofNat_toNat, BitVec.setWidth_eq]

/-- **A timer interrupt that switches.** -/
theorem Image.Sound.timer_enters {c : Context} {a : SwitchArguments}
    (h : img.Sound m s bs tables free)
    (hk : m.kernel.timerHandler img.tss m.switching c = some (k', some a)) :
    a.context = (m.record c (BitVec.ofNat 32 k'.currentProcess)).dispatched ∧ img.Enters k' a := by
  rw [Kernel.timerHandler] at hk
  by_cases hon : m.switching = true
  · rw [if_pos hon] at hk
    obtain ⟨s', hs, h'⟩ := h.timer hon hk
    obtain ⟨u, hu, hrec, -, hstay, hgo⟩ := h.switchProcess hk
    obtain ⟨rfl, -⟩ := Prod.mk.inj (Option.some.inj (hs.symm.trans hu))
    have hcontext := (h.faithful.tick hs).2 a rfl
    rw [← h.record_eq hon c] at hcontext
    have hgoes := not_or.mp fun he => Option.some_ne_none a (hstay he).1
    obtain ⟨ha, hsw⟩ := hgo hgoes.1 hgoes.2
    have henters := h'.enters ⟨hsw.entered.1, congrArg (fun a => a.pageDirectory.toNat)
      (Option.some.inj ha), hsw.stack⟩
    rw [← Option.some.inj ha] at henters
    exact ⟨hrec.ofNat_current ▸ hcontext, henters.directory, henters.stack⟩
  · rw [if_neg hon] at hk
    cases hk

/-- **`force_enter_userland`.** -/
theorem Image.Sound.force_enters (h : img.Sound m s bs tables free)
    (hop : img.Allows m .forceEnterUserland) :
    m.kernel.switchArguments.context
        = (m.captured (BitVec.ofNat 32 m.kernel.currentProcess)).dispatched ∧
      img.Enters (m.kernel.forceEnterUserland img.tss) m.kernel.switchArguments := by
  obtain ⟨-, hmem⟩ := h.current_mem hop.2
  have henters := (h.forceEnterUserland hop).enters (h.loaded_forceEnterUserland hop.2)
  rw [h.records.ofNat_current, h.records.switchArguments hmem]
  exact ⟨h.faithful.context _ hmem (Or.inl rfl), henters⟩

/-- **What a process is given when it gets the CPU, in every run**: the context that was captured
last, or the one that `create_process` set up, with its own page directory and its own kernel
stack. -/
theorem machine_dispatch {ops : List MachineOp} (hboot : Booted k) (h : img.Reaches k ops m) :
    (∀ c k' a, m.kernel.timerHandler img.tss m.switching c = some (k', some a) →
      a.context = (m.record c (BitVec.ofNat 32 k'.currentProcess)).dispatched ∧
        img.Enters k' a) ∧
    (img.Allows m .forceEnterUserland →
      m.kernel.switchArguments.context
          = (m.captured (BitVec.ofNat 32 m.kernel.currentProcess)).dispatched ∧
        img.Enters (m.kernel.forceEnterUserland img.tss) m.kernel.switchArguments) := by
  obtain ⟨-, s, -, -, bs, tables, free, h⟩ := machine_carriesOut hboot h
  exact ⟨fun _ _ _ hk => h.timer_enters hk, fun hop => h.force_enters hop⟩

/-- The same after the interrupt of the first process. -/
theorem machine_dispatch_interrupted :
    ∃ m, sampleImage.Reaches (bootKernel bootRam) interruptedOps m ∧
      (∀ c k' a, m.kernel.timerHandler sampleImage.tss m.switching c = some (k', some a) →
        a.context = (m.record c (BitVec.ofNat 32 k'.currentProcess)).dispatched ∧
          sampleImage.Enters k' a) ∧
      (sampleImage.Allows m .forceEnterUserland →
        m.kernel.switchArguments.context
            = (m.captured (BitVec.ofNat 32 m.kernel.currentProcess)).dispatched ∧
          sampleImage.Enters (m.kernel.forceEnterUserland sampleImage.tss)
            m.kernel.switchArguments) := by
  obtain ⟨m, h⟩ := interrupted_reaches
  exact ⟨m, h, machine_dispatch booted_zeroRam h⟩

end LoofOS
