import LoofOS.MachineInvariant

/-!
# A Clean Heap

`create_process` does not clear the blocks that it takes for page directories and page tables. It
need not, when the memory that the heap has not handed out is zero at boot: as long as no process
ends nothing is freed, processes do not reach that memory, and so it stays zero in every run
(`machine_fresh`). Then `create_process` succeeds as often as there are blocks and frames
(`processes_created`), which is known from the headers of the heap before the first call.

## Main results

* `machine_fresh`: on a clean heap the blocks of every process are fresh.
* `processes_created`: how many processes can be created.
-/

namespace LoofOS

open LinkedRing Run

variable {img : Image} {m m' : Machine} {k k' : Kernel} {s s' : Scheduler} {bs bs' : List Block}
  {tables tables' free free' : List ℕ}

/-! ### The heap stays clean -/

/-- A quiet step keeps the unused blocks clean. -/
theorem Clean.quiet {kernelMemory : ℕ} (hclean : Clean bs k.ram.byte)
    (hq : Quiet userIndex kernelMemory bs tables free k k') : Clean bs k'.ram.byte :=
  fun x hx => (hq.unused x hx).trans (hclean x hx)

/-- What the kernel relies on when the heap is clean: `create_process` is not refused a block. -/
def Image.Requests (img : Image) (m : Machine) : MachineOp → Prop
  | .createProcess eip => m.switching = false ∧ GrantsBlocks m.kernel (.createProcess eip)
  | op => img.Allows m op

/-- On a clean heap the requested operations are the allowed ones. -/
theorem Image.Sound.allows {op : MachineOp} (h : img.Sound m s bs tables free)
    (hclean : Clean bs m.kernel.ram.byte) (hop : img.Requests m op) : img.Allows m op := by
  cases op with
  | createProcess eip => exact ⟨hop.1, h.spaces.space.heap.freshBlocks hclean hop.2⟩
  | _ => exact hop

/-- The machine on a clean heap. -/
def Image.CarriesOutClean (img : Image) (m : Machine) : Prop :=
  ∃ s bs tables free, img.Sound m s bs tables free ∧ Clean bs m.kernel.ram.byte

/-- **Every step keeps the heap clean.** -/
theorem Image.CarriesOutClean.step {op : MachineOp} (h : img.CarriesOutClean m)
    (hop : img.Requests m op) (hstep : img.step m op = some m') : img.CarriesOutClean m' := by
  obtain ⟨s, bs, tables, free, h, hclean⟩ := h
  have hallows := h.allows hclean hop
  by_cases hcreate : ∃ eip, op = .createProcess eip
  · obtain ⟨eip, rfl⟩ := hcreate
    obtain ⟨k', hk, rfl⟩ := Option.map_eq_some_iff.mp hstep
    obtain ⟨p, stack, directory, bs', tables', free', -, -, h', htakes⟩ :=
      h.createProcess hallows.2 hk
    exact ⟨_, bs', tables', free', h', fun x hx =>
      (htakes.unused x hx).2.trans (hclean x (htakes.unused x hx).1)⟩
  · obtain ⟨-, s', -, -, hstay⟩ :=
      h.quiet_step hallows hstep fun eip he => hcreate ⟨eip, he⟩
    exact ⟨s', bs, tables, free, hstay.sound, hclean.quiet hstay.quiet⟩

/-- `init_paging` does not write to the heap. -/
theorem boot_clean (img : Image) (hheap : HeapInv ⟨k.ram, k.live⟩ bs)
    (hclean : Clean bs k.ram.byte) : Clean bs (img.boot k).kernel.ram.byte := by
  obtain ⟨-, -, hsame⟩ := @initPaging_spec userIndex k bs [] img.kernelMemory img.place hheap
    (fun i hi => Nat.lt_trans hi (by simp)) (fun _ hd => absurd hd List.not_mem_nil)
    List.nodup_nil (fun _ hd => absurd hd List.not_mem_nil)
  intro x hx
  exact (hsame x (hheap.freeByte_bounds hx).1.le).trans (hclean x hx)

/-- **Blocks are fresh in every run** on a heap that is clean at boot: `create_process` need only
not be refused a block. -/
theorem machine_fresh {ops : List MachineOp} (hboot : Booted k)
    (hheap : HeapInv ⟨k.ram, k.live⟩ bs) (hclean : Clean bs k.ram.byte)
    (hops : Meets img.step img.Requests (img.boot k) ops) :
    Meets img.step img.Allows (img.boot k) ops := by
  refine Meets.imp_of_invariant (I := img.CarriesOutClean)
    (fun m op m' h hop hstep => h.step hop hstep) ?_
    ⟨_, _, _, _, boot_sound img hboot hheap, boot_clean img hheap hclean⟩ hops
  rintro m op ⟨s, bs, tables, free, h, hclean⟩ hop
  exact h.allows hclean hop

/-! ### Memory of zeros -/

/-- The blocks of the first process are fresh. -/
theorem machine_fresh_first :
    Meets sampleImage.step sampleImage.Allows (sampleImage.boot (bootKernel bootRam))
      [.createProcess 0, .enableSwitching] := by
  refine machine_fresh booted_zeroRam heapInv_bootRam clean_bootRam
    ⟨⟨rfl, fun blocks hb => ?_⟩, fun _ _ => ⟨trivial, fun _ _ => trivial⟩⟩
  have hheap : HeapInv ⟨(sampleImage.boot (bootKernel bootRam)).kernel.ram, []⟩ [⟨29, false⟩] :=
    (boot_sound sampleImage booted_zeroRam heapInv_bootRam).spaces.space.heap
  have hblocks := allocateAll_boot (show zeroRam.byte kernelHeap.last = 0 from rfl)
    initKernelHeap_zeroRam
  rw [← hheap.allocateAll_eq heapInv_bootRam processSizes_small] at hblocks
  obtain rfl := Option.some.inj (hblocks.symm.trans hb)
  decide

/-! ### Creating many processes -/

/-- There are blocks and frames for `n` more processes. -/
structure Image.HasRoom (img : Image) (m : Machine) (s : Scheduler) (n : ℕ) (bs : List Block)
    (tables free : List ℕ) : Prop where
  sound : img.Sound m s bs tables free
  clean : Clean bs m.kernel.ram.byte
  off : m.switching = false
  frames : 2 * n ≤ free.length
  blocks : ∃ blocks, allocateAll m.kernel.ram (requests n) = some blocks ∧ 0 ∉ blocks
  running : ∀ p ∈ s.live, (s.desc p).state = 0
  created : ∀ q ∈ m.kernel.descriptors, ∃ eip,
    m.captured (BitVec.ofNat 32 q) = .created (initialContext eip)

/-- A new process is running. -/
theorem running_createProcess {p stack directory eip : Word} (hp : p ∉ s.live)
    (h : ∀ q ∈ s.live, (s.desc q).state = 0) :
    ∀ q ∈ (createProcess s p stack directory eip).live,
      ((createProcess s p stack directory eip).desc q).state = 0 := by
  intro q hq
  rw [live_createProcess] at hq
  rcases List.mem_cons.mp hq with rfl | hq
  · exact desc_createProcess_self (g := ProcessDesc.state) (fun _ _ => rfl) (fun _ _ => rfl) s q
      stack directory eip
  · have hne : q ≠ p := fun he => hp (he ▸ hq)
    exact (desc_createProcess_of_ne (g := ProcessDesc.state) (fun _ _ => rfl) (fun _ _ => rfl) s
      stack directory eip hne).trans (h q hq)

/-- **One more process.** -/
theorem Image.HasRoom.create {n : ℕ} (h : img.HasRoom m s (n + 1) bs tables free) (eip : ℕ) :
    ∃ m' s' bs' tables' free', img.step m (.createProcess eip) = some m' ∧
      img.Allows m (.createProcess eip) ∧ img.HasRoom m' s' n bs' tables' free' ∧
      m'.kernel.processes.length = m.kernel.processes.length + 1 := by
  obtain ⟨blocks, hblocks, hgranted⟩ := h.blocks
  rw [requests_succ] at hblocks
  obtain ⟨k', -, -, -, rest, hk, hfresh, -, -, -, -, hrest, hgranted'⟩ :=
    h.sound.spaces.createProcess_clean img.place h.clean (by have := h.frames; omega)
      (requests_small n) hblocks hgranted eip
  obtain ⟨p, stack, directory, bs', tables', free', -, hp, h', htakes⟩ :=
    h.sound.createProcess hfresh hk
  refine ⟨_, _, bs', tables', free', ?_, ⟨h.off, hfresh⟩, ⟨h', fun x hx =>
    (htakes.unused x hx).2.trans (h.clean x (htakes.unused x hx).1), h.off, ?_,
    ⟨rest, hrest, hgranted'⟩, ?_, ?_⟩, ?_⟩
  · rw [Image.step, hk, Option.map_some]
  · have hframes := htakes.frames
    have := h.frames
    omega
  · exact running_createProcess hp h.running
  · obtain ⟨x, hx⟩ := htakes.processes
    have hdesc : k'.descriptors = x.1 :: m.kernel.descriptors := congrArg (List.map Prod.fst) hx
    intro q hq
    change ∃ e, Function.update m.captured (BitVec.ofNat 32 (k'.descriptors.headD 0)) _ _ = _
    rw [hdesc] at hq ⊢
    rw [List.headD_cons]
    by_cases he : BitVec.ofNat 32 q = BitVec.ofNat 32 x.1
    · rw [he, Function.update_self]
      exact ⟨_, rfl⟩
    · rw [Function.update_of_ne he]
      refine h.created q ((List.mem_cons.mp hq).resolve_left ?_)
      rintro rfl
      exact he rfl
  · obtain ⟨x, hx⟩ := htakes.processes
    exact congrArg List.length hx

/-- **As many processes as there is room for.** -/
theorem Image.HasRoom.createAll {eips : List ℕ} {n : ℕ}
    (h : img.HasRoom m s (eips.length + n) bs tables free) :
    ∃ m' s' bs' tables' free', exec img.step m (eips.map .createProcess) = some m' ∧
      Meets img.step img.Allows m (eips.map .createProcess) ∧
      img.HasRoom m' s' n bs' tables' free' ∧
      m'.kernel.processes.length = m.kernel.processes.length + eips.length := by
  induction eips generalizing m s bs tables free with
  | nil =>
      rw [List.length_nil, Nat.zero_add] at h
      exact ⟨m, s, bs, tables, free, rfl, trivial, h, rfl⟩
  | cons eip eips ih =>
      rw [List.length_cons, Nat.add_right_comm] at h
      obtain ⟨u, t, bs₁, tables₁, free₁, hstep, hallows, h₁, hlen⟩ := h.create eip
      obtain ⟨m', s', bs', tables', free', hexec, hmeets, h', hlen'⟩ := ih h₁
      refine ⟨m', s', bs', tables', free', ?_, ⟨hallows, fun u' hu' => ?_⟩, h', ?_⟩
      · rw [List.map_cons, exec_cons hstep, hexec]
      · obtain rfl := Option.some.inj (hstep.symm.trans hu')
        exact hmeets
      · rw [hlen', hlen, List.length_cons]
        omega

/-- There is room after booting. -/
theorem boot_hasRoom {n : ℕ} {blocks : List ℕ} (img : Image) (hboot : Booted k)
    (hheap : HeapInv ⟨k.ram, k.live⟩ bs) (hclean : Clean bs k.ram.byte)
    (hblocks : allocateAll k.ram (requests n) = some blocks) (hgranted : 0 ∉ blocks)
    (hframes : 2 * n ≤ kernelBase / 4096) :
    img.HasRoom (img.boot k) idleScheduler n bs [] (frames 0 (kernelBase / 4096)) := by
  have hsound := boot_sound img hboot hheap
  have hnone : (img.boot k).kernel.descriptors = [] := congrArg (List.map Prod.fst) hboot.processes
  refine ⟨hsound, boot_clean img hheap hclean, rfl, ?_, ⟨blocks, ?_, hgranted⟩, nofun,
    fun q hq => absurd hq (hnone ▸ List.not_mem_nil)⟩
  · rw [frames, List.length_map, List.length_range']
    exact hframes
  · have hheap' : HeapInv ⟨k.ram, (img.boot k).kernel.live⟩ bs := hheap
    rw [hsound.spaces.space.heap.allocateAll_eq hheap' (requests_small _)]
    exact hblocks

/-- **How many processes can be created** on a clean heap: as many as the headers of the heap have
blocks for and as the frames suffice for, two for each. -/
theorem processes_created {eips blocks : List ℕ} (img : Image) (hboot : Booted k)
    (hheap : HeapInv ⟨k.ram, k.live⟩ bs) (hclean : Clean bs k.ram.byte)
    (hblocks : allocateAll k.ram (requests eips.length) = some blocks) (hgranted : 0 ∉ blocks)
    (hframes : 2 * eips.length ≤ kernelBase / 4096) :
    ∃ m, img.Reaches k (eips.map .createProcess) m ∧
      m.kernel.processes.length = eips.length := by
  have hroom := boot_hasRoom (n := eips.length + 0) img hboot hheap hclean hblocks hgranted hframes
  obtain ⟨m, -, -, -, -, hexec, hmeets, -, hlen⟩ := hroom.createAll
  have hnone : (img.boot k).kernel.processes = [] := hboot.processes
  refine ⟨m, ⟨hmeets, hexec⟩, ?_⟩
  rw [hlen, hnone, List.length_nil, Nat.zero_add]

/-- The two processes of `kernel_main`. -/
theorem processes_created_two : ∃ m,
    sampleImage.Reaches (bootKernel bootRam) ([0, 0].map .createProcess) m ∧
      m.kernel.processes.length = 2 := by
  obtain ⟨blocks, hblocks, hgranted⟩ := allocateAll_requests_two
  exact @processes_created _ _ [0, 0] blocks sampleImage booted_zeroRam heapInv_bootRam
    clean_bootRam hblocks hgranted (by decide)

/-! ### The first process runs -/

/-- `kernel_main` from `create_process` to `enable_switching`. -/
def startOps : List MachineOp := [.createProcess 0, .createProcess 0, .enableSwitching]

/-- `kernel_main` from `create_process` on. -/
def kernelMainOps : List MachineOp := startOps ++ [.forceEnterUserland]

/-- Two processes that are running, none of which has been on the CPU: on any memory with a clean
heap that has blocks for them. -/
theorem boot_runs {blocks : List ℕ} (img : Image) (hboot : Booted k)
    (hheap : HeapInv ⟨k.ram, k.live⟩ bs) (hclean : Clean bs k.ram.byte)
    (hblocks : allocateAll k.ram (requests 2) = some blocks) (hgranted : 0 ∉ blocks) :
    ∃ m s bs tables free, img.Reaches k startOps m ∧ img.Sound m s bs tables free ∧
      img.Allows m .forceEnterUserland ∧ m.kernel.processes.length = 2 ∧
      (∀ p ∈ s.live, (s.desc p).state = 0) ∧
      ∀ q ∈ m.kernel.descriptors, ∃ eip,
        m.captured (BitVec.ofNat 32 q) = .created (initialContext eip) := by
  have hroom := boot_hasRoom (n := [0, 0].length + 0) img hboot hheap hclean hblocks hgranted
    (by decide)
  obtain ⟨m, s, bs, tables, free, hexec, hmeets, h, hlen⟩ := hroom.createAll
  have hnone : (img.boot k).kernel.processes = [] := hboot.processes
  rw [hnone] at hlen
  have hc : m.kernel.currentProcess ≠ 0 := by
    intro hz
    have hcurrent := h.sound.records.current
    have hzero : s.currentProcess = 0 := by
      rw [hz] at hcurrent
      exact BitVec.eq_of_toNat_eq hcurrent
    have hlive := congrArg List.length h.sound.records.live
    rw [h.sound.faithful.ring.live_eq_nil hzero, List.length_map, Kernel.descriptors,
      List.length_map, hlen] at hlive
    cases hlive
  have hreaches : img.Reaches k [.createProcess 0, .createProcess 0] m := ⟨hmeets, hexec⟩
  have hallowed : img.Allows m .enableSwitching := trivial
  exact ⟨_, s, bs, tables, free, hreaches.concat hallowed rfl, h.sound.enableSwitching, ⟨rfl, hc⟩,
    hlen, h.running, h.created⟩

/-- The same right after `init_kernel_heap`. -/
theorem start_runs {r : Ram} (hboot : Booted (bootKernel r)) (hheap : HeapInv ⟨r, []⟩ [⟨29, false⟩])
    (hclean : Clean [⟨29, false⟩] r.byte) : ∃ m s bs tables free,
    sampleImage.Reaches (bootKernel r) startOps m ∧
    sampleImage.Sound m s bs tables free ∧ sampleImage.Allows m .forceEnterUserland ∧
    m.kernel.processes.length = 2 ∧ (∀ p ∈ s.live, (s.desc p).state = 0) ∧
    ∀ q ∈ m.kernel.descriptors, ∃ eip,
      m.captured (BitVec.ofNat 32 q) = .created (initialContext eip) := by
  obtain ⟨blocks, hblocks, hgranted⟩ := allocateAll_requests_two
  rw [heapInv_bootRam.allocateAll_eq hheap (requests_small 2)] at hblocks
  exact boot_runs sampleImage hboot hheap hclean hblocks hgranted

/-- **`kernel_main`** on memory of zeros: of two processes that are running the first one is on the
CPU. -/
theorem kernelMain_reaches : ∃ m s, sampleImage.Reaches (bootKernel bootRam) kernelMainOps m ∧
    sampleImage.CarriesOut m s ∧ m.switching = true ∧
    m.kernel.cr3.headD 0 ≠ sub32 sampleImage.kernelMemory kernelBase ∧
    m.kernel.processes.length = 2 ∧ ∀ p ∈ s.live, (s.desc p).state = 0 := by
  obtain ⟨m, s, bs, tables, free, hreaches, h, hop, hlen, hrunning, -⟩ :=
    start_runs booted_zeroRam heapInv_bootRam clean_bootRam
  have hloaded := h.loaded_forceEnterUserland hop.2
  have hcurrent := h.directory (h.faithful.ring.current_mem hloaded.current)
  refine ⟨_, s, hreaches.concat hop rfl, ⟨bs, tables, free, h.forceEnterUserland hop⟩, hop.1, ?_,
    hlen, hrunning⟩
  intro he
  refine h.directory_ne (Kernel.mem_directories hcurrent) ?_
  rw [← he, hloaded.directory, ← toNat_sub_kernelBase]
  rfl

/-- One of two processes is not the current one. -/
theorem Image.Sound.exists_other (h : img.Sound m s bs tables free)
    (htwo : m.kernel.processes.length = 2) :
    ∃ x ∈ m.kernel.processes, m.kernel.currentProcess ≠ x.1 := by
  have hnodup := h.descriptors_nodup
  rw [Kernel.descriptors] at hnodup
  obtain ⟨y, z, hl⟩ := List.length_eq_two.mp htwo
  rw [hl] at hnodup
  by_cases he : m.kernel.currentProcess = y.1
  · refine ⟨z, by simp [hl], fun hz => ?_⟩
    simp [← he, ← hz] at hnodup
  · exact ⟨y, by simp [hl], he⟩

/-- Then it stores a byte in its first page and is interrupted in user mode. -/
def interruption : List MachineOp := [.userStore 0 0x90, .timer (interruptedAt 0x1b 0xbffffff0)]

def interruptedOps : List MachineOp := kernelMainOps ++ interruption

/-- The sample run meets the conditions on an interruption. -/
theorem meets_interruption {m : Machine} :
    Meets sampleImage.step sampleImage.Allows m interruption :=
  ⟨trivial, fun _ _ => ⟨trivial, fun _ _ => trivial⟩⟩

/-- The other process waits meanwhile. -/
theorem interruption_runs : ∃ m u m' x, sampleImage.Reaches (bootKernel bootRam) kernelMainOps m ∧
    m.switching = true ∧ m.kernel.processes.length = 2 ∧ x ∈ m.kernel.processes ∧
    m.kernel.currentProcess ≠ x.1 ∧ m.kernel.stateOf x.1 ≠ 1 ∧
    sampleImage.step m (.userStore 0 0x90) = some u ∧
    exec sampleImage.step m interruption = some m' := by
  obtain ⟨m, s, hreaches, ⟨bs, tables, free, h⟩, hon, hload, htwo, hrunning⟩ := kernelMain_reaches
  have hruns : ∀ q ∈ m.kernel.descriptors, m.kernel.stateOf q ≠ 1 := by
    intro q hq he
    obtain ⟨p, hp, rfl⟩ := List.mem_map.mp (h.records.live ▸ hq)
    have hstate := (h.records.state_iff hp 1).mpr he
    rw [hrunning p hp] at hstate
    cases hstate
  obtain ⟨x, hx, hne⟩ := h.exists_other htwo
  have hq := Kernel.mem_descriptors hx
  obtain ⟨k', hstore⟩ := (h.userStore_isSome_iff (b := 0x90) hload (show 0 < 2 ^ 32 by simp)).mpr
    (Or.inl rfl)
  have hone := h.userStore (by simp) hstore
  have hstep : sampleImage.step m (.userStore 0 0x90) = some { m with kernel := k' } := by
    rw [Image.step]
    exact congrArg (Option.map _) hstore
  -- a process that is not halted keeps the interrupt from hanging
  have hstate : ∃ q ∈ k'.descriptors, k'.stateOf q ≠ 1 := by
    obtain ⟨p, hp, he⟩ := List.mem_map.mp (h.records.live.symm ▸ hq)
    refine ⟨x.1, hone.records.live ▸ List.mem_map.mpr ⟨p, hp, he⟩, fun h1 => ?_⟩
    rw [← he] at h1
    exact hruns x.1 hq (he ▸ (h.records.state_iff hp 1).mp ((hone.records.state_iff hp 1).mpr h1))
  obtain ⟨r, hr⟩ := (hone.timer_isSome_iff (interruptedAt 0x1b 0xbffffff0)).mpr
    (Or.inr (Or.inr (Or.inr hstate)))
  have htimer : sampleImage.step { m with kernel := k' }
      (.timer (interruptedAt 0x1b 0xbffffff0)) = some _ := congrArg (Option.map _) hr
  exact ⟨m, _, _, x, hreaches, hon, htwo, hx, hne, hruns x.1 hq, hstep,
    (exec_cons hstep _).trans (exec_concat (exec_nil _) htimer)⟩

/-- The sample run, with its interruption, reaches a machine. -/
theorem interrupted_reaches : ∃ m, sampleImage.Reaches (bootKernel bootRam) interruptedOps m := by
  obtain ⟨m, -, m', -, h, -, -, -, -, -, -, hexec⟩ := interruption_runs
  exact ⟨m', h.append meets_interruption hexec⟩

end LoofOS
