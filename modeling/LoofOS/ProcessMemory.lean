import LoofOS.Protection

/-!
# The Memory of a Process

What a process finds when it gets the CPU again: the memory that it reaches, the pages that it has,
and its descriptor up to the links are as it left them (`KeepsProcess`), whatever the other
processes store, whatever interrupts come, and however many processes are created in between.

## Main results

* `Image.Sound.undisturbed`: one step while another process is the current one.
* `machine_undisturbed`: a part of a run.
-/

namespace LoofOS

open LinkedRing Run

variable {img : Image} {m m' : Machine} {k k' k'' : Kernel} {s s' : Scheduler}
  {bs bs' : List Block} {tables tables' free free' : List ℕ} {x : ℕ × ℕ}

/-- The descriptor at an address, without its links. -/
def unlinkedAt (k : Kernel) (p : ℕ) : ProcessDesc :=
  { descAt k.ram.byte p with prev := 0, next := 0 }

/-- The process `x` is what it was. -/
structure KeepsProcess (k k' : Kernel) (x : ℕ × ℕ) : Prop where
  process : x ∈ k'.processes
  maps : ∀ addr < 2 ^ 32, translate k'.ram.byte (sub32 x.2 kernelBase) addr
    = translate k.ram.byte (sub32 x.2 kernelBase) addr
  memory : ∀ addr acc, UserAccess k.ram.byte x.2 addr acc →
    k'.ram.byte (wrap32 (acc.physical + kernelBase))
      = k.ram.byte (wrap32 (acc.physical + kernelBase))
  descriptor : unlinkedAt k' x.1 = unlinkedAt k x.1

namespace KeepsProcess

/-- Nothing happens. -/
theorem refl (hx : x ∈ k.processes) : KeepsProcess k k x :=
  ⟨hx, fun _ _ => rfl, fun _ _ _ => rfl, rfl⟩

/-- The process reaches the same memory as before. -/
theorem userAccess (h : KeepsProcess k k' x) {addr : ℕ} {acc : Access} :
    UserAccess k'.ram.byte x.2 addr acc ↔ UserAccess k.ram.byte x.2 addr acc :=
  and_congr_right fun haddr => by rw [h.maps addr haddr]

/-- One part of a run after the other. -/
theorem trans (h : KeepsProcess k k' x) (h' : KeepsProcess k' k'' x) : KeepsProcess k k'' x where
  process := h'.process
  maps addr haddr := (h'.maps addr haddr).trans (h.maps addr haddr)
  memory addr acc hacc :=
    (h'.memory addr acc (h.userAccess.mpr hacc)).trans (h.memory addr acc hacc)
  descriptor := h'.descriptor.trans h.descriptor

end KeepsProcess

/-- **A quiet step** that writes neither below `KERNEL_BASE` nor to the descriptor. -/
theorem Quiet.undisturbed (hq : Quiet userIndex img.kernelMemory bs tables free k k')
    (h : SpacesInv userIndex img.kernelMemory k bs tables free) (hx : x ∈ k.processes)
    (hlow : ∀ y < kernelBase, k'.ram.byte y = k.ram.byte y)
    (hdesc : ∀ y, x.1 ≤ y → y < x.1 + processDescSize → k'.ram.byte y = k.ram.byte y) :
    KeepsProcess k k' x := by
  have hmem := Kernel.mem_directories hx
  refine ⟨hq.processes ▸ hx, fun addr haddr => hq.translate h hmem userIndex_of_lt haddr,
    fun addr acc hacc => ?_, ?_⟩
  · obtain ⟨hwrap, hlt, -⟩ := h.userAccess_bounds hmem hacc
    rw [hwrap]
    exact hlow _ hlt
  · rw [unlinkedAt, unlinkedAt, descAt_congr hdesc]

namespace Image.Sound

/-- The current process and another one have different descriptors. -/
theorem apart (h : img.Sound m s bs tables free) (hx : x ∈ m.kernel.processes)
    (hc : m.kernel.currentProcess ≠ 0) (hne : m.kernel.currentProcess ≠ x.1) :
    x.1 + 85 ≤ m.kernel.currentProcess ∨ m.kernel.currentProcess + 85 ≤ x.1 :=
  h.separate.apart _ (Kernel.mem_descriptors hx) _
    (h.records.current ▸ h.records.mem (h.current_mem hc).2) hne.symm

/-- The descriptor of a process lies behind the TSS. -/
theorem descriptor_bounds (h : img.Sound m s bs tables free) (hx : x ∈ m.kernel.processes) :
    kernelBase ≤ x.1 ∧ img.tss + 8 ≤ x.1 :=
  have hmem := Kernel.mem_descriptors hx
  ⟨(h.spaces.space.desc_bounds (h.spaces.descriptor_not_page hmem).1).1, h.tss_below _ hmem⟩

/-- `create_process` leaves the other processes alone. -/
theorem createProcess_undisturbed {eip : ℕ} (h : img.Sound m s bs tables free)
    (hop : FreshBlocks m.kernel (.createProcess eip))
    (hcreate : m.kernel.createProcess img.kernelMemory eip = some k')
    (hx : x ∈ m.kernel.processes) : KeepsProcess m.kernel k' x := by
  obtain ⟨blocks, hblocks⟩ := h.spaces.space.heap.allocateAll processSizes_small
  obtain ⟨a, b, free', p, d, stack, bs', tables', rfl, hspaces, hcreated, hadded, hrec⟩ :=
    h.spaces.createProcess_represents img.place (fun _ hi => hi) userIndex_zero userIndex_top
      hblocks (hop blocks hblocks) h.records h.faithful.ring hcreate
  have hmem := Kernel.mem_directories hx
  have hx' : x ∈ k'.processes := hcreated.processes ▸ List.mem_cons_of_mem _ hx
  have hmem' := Kernel.mem_directories hx'
  refine ⟨hx', fun addr haddr => ?_, fun addr acc hacc => ?_, ?_⟩
  · by_cases hlow : addr < kernelBase
    · have hindex := userIndex_of_lt hlow
      have hdiv : addr / 2 ^ 12 / 1024 = addr / 2 ^ 22 := by omega
      rw [hspaces.space.mapped.translate_eq hmem' hindex,
        h.spaces.space.mapped.translate_eq hmem hindex,
        hcreated.other x.2 hmem _ (hdiv.symm ▸ hindex)]
    · have hle := Nat.le_of_not_lt hlow
      rw [translate_kernel (hspaces.space.mapped.dir_page hmem') (hspaces.half _ hmem') hle haddr,
        translate_kernel (h.spaces.space.mapped.dir_page hmem) (h.spaces.half _ hmem) hle haddr]
  · obtain ⟨hwrap, hlt, hfree⟩ := h.spaces.userAccess_bounds hmem hacc
    rw [hwrap]
    exact hadded.below _ (hlt.trans_le kernelBase_le_heap)
      (hfree b (List.mem_cons_of_mem _ List.mem_cons_self))
  · obtain ⟨q, hq, he⟩ := List.mem_map.mp (h.records.live.symm ▸ Kernel.mem_descriptors hx)
    have hp := hspaces.space.desc_bounds (hspaces.descriptor_not_page
      (Kernel.mem_descriptors (hcreated.processes ▸ List.mem_cons_self))).1
    have hne : q ≠ BitVec.ofNat 32 p := by
      rintro rfl
      rw [BitVec.toNat_ofNat, Nat.mod_eq_of_lt hp.2.1] at he
      have hpx : p = x.1 := he
      exact hadded.fresh (hpx ▸ Kernel.mem_descriptors hx)
    have hkeep := desc_createProcess_of_ne (g := fun d => { d with prev := 0, next := 0 })
      (fun _ _ => rfl) (fun _ _ => rfl) s (BitVec.ofNat 32 stack) (BitVec.ofNat 32 d)
      (BitVec.ofNat 32 eip) hne
    have hlive : q ∈ (LoofOS.createProcess s (BitVec.ofNat 32 p) (BitVec.ofNat 32 stack)
        (BitVec.ofNat 32 d) (BitVec.ofNat 32 eip)).live :=
      live_createProcess s _ _ _ _ ▸ List.mem_cons_of_mem _ hq
    rw [hrec.desc q hlive, h.records.desc q hq, he] at hkeep
    exact hkeep

/-- A timer interrupt leaves the processes alone that it does not interrupt. -/
theorem switchProcess_undisturbed {c : Context} {out : Option SwitchArguments}
    (h : img.Sound m s bs tables free)
    (hswitch : m.kernel.switchProcess img.tss c = some (k', out)) (hx : x ∈ m.kernel.processes)
    (hne : m.kernel.currentProcess ≠ x.1) : KeepsProcess m.kernel k' x := by
  obtain ⟨s', -, -, hq, hstay, hgo⟩ := h.switchProcess hswitch
  by_cases hearly : m.kernel.currentProcess = 0 ∨
      m.kernel.nextOf m.kernel.currentProcess = m.kernel.currentProcess
  · obtain ⟨-, rfl, -⟩ := hstay hearly
    exact KeepsProcess.refl hx
  · obtain ⟨hc, hmore⟩ := not_or.mp hearly
    obtain ⟨-, hsw⟩ := hgo hc hmore
    have happart := h.apart hx hc hne
    have hbounds := h.descriptor_bounds hx
    have hcurrent := (h.spaces.space.desc_bounds (h.spaces.descriptor_not_page
      (h.records.current ▸ h.records.mem (h.current_mem hc).2)).1).1
    have htss := img.above
    have hoffset : esp0Offset = 68 ∧ processDescSize = 85 := ⟨rfl, rfl⟩
    exact hq.undisturbed h.spaces hx
      (fun y hy => hsw.outside y (Or.inl (by omega)) (Or.inl (by omega)))
      fun y hy hy' => hsw.outside y (by omega) (Or.inr (by omega))

/-- A store by another process. -/
theorem userStore_undisturbed {addr : ℕ} {b : UInt8} (h : img.Sound m s bs tables free)
    (haddr : addr < 2 ^ 32) (hstore : m.kernel.userStore addr b = some k')
    (hx : x ∈ m.kernel.processes) (hne : m.kernel.currentProcess ≠ x.1) :
    KeepsProcess m.kernel k' x := by
  obtain ⟨y, -, hy, -, hspares⟩ := h.sparesProcesses haddr hstore
  have hxy : x ≠ y := by
    rintro rfl
    exact hne hy.symm
  refine ⟨(Kernel.userStore_processes hstore).symm ▸ hx, hspares.maps x hx,
    hspares.memory x hx hxy, ?_⟩
  rw [unlinkedAt, unlinkedAt, descAt_congr fun z hz _ =>
    hspares.kernel z ((h.descriptor_bounds hx).1.trans hz)]

/-- **A step while another process is the current one.** -/
theorem undisturbed {op : MachineOp} (h : img.Sound m s bs tables free) (hop : img.Allows m op)
    (hstep : img.step m op = some m') (hx : x ∈ m.kernel.processes)
    (hne : m.kernel.currentProcess ≠ x.1) : KeepsProcess m.kernel m'.kernel x := by
  have hbounds := h.descriptor_bounds hx
  have htss := img.above
  have hsize : processDescSize = 85 := rfl
  cases op with
  | createProcess eip =>
      obtain ⟨k', hk, rfl⟩ := Option.map_eq_some_iff.mp hstep
      exact h.createProcess_undisturbed hop.2 hk hx
  | enableSwitching =>
      obtain rfl := Option.some.inj hstep
      exact KeepsProcess.refl hx
  | forceEnterUserland =>
      obtain rfl := Option.some.inj hstep
      have hq := h.spaces.quiet_setTssStack
        (m.kernel.read32 (m.kernel.currentProcess + esp0Offset))
      have hstay := hq.undisturbed h.spaces hx (fun y hy => Mem.write32_of_outside (by omega))
        fun y hy _ => Mem.write32_of_outside (by omega)
      exact ⟨hstay.process, hstay.maps, hstay.memory, hstay.descriptor⟩
  | timer c =>
      obtain ⟨⟨k', out⟩, hk, rfl⟩ := Option.map_eq_some_iff.mp hstep
      rw [Kernel.timerHandler] at hk
      by_cases hon : m.switching = true
      · rw [if_pos hon] at hk
        have hstay := h.switchProcess_undisturbed hk hx hne
        cases out with
        | none => exact hstay
        | some a => exact ⟨hstay.process, hstay.maps, hstay.memory, hstay.descriptor⟩
      · rw [if_neg hon] at hk
        obtain ⟨rfl, rfl⟩ := Prod.mk.inj (Option.some.inj hk)
        exact KeepsProcess.refl hx
  | updateProcess state =>
      obtain rfl := Option.some.inj hstep
      have hcurrent := (h.spaces.space.desc_bounds (h.spaces.descriptor_not_page
        (h.records.current ▸ h.records.mem (h.current_mem hop.1).2)).1).1
      have happart := h.apart hx hop.1 hne
      have hoffset : stateOffset = 84 := rfl
      exact (h.quiet_updateProcess hop.1 state).undisturbed h.spaces hx
        (fun y hy => Mem.store_of_ne state (by omega))
        fun y hy hy' => Mem.store_of_ne state (by omega)
  | userStore addr b =>
      obtain ⟨k', hk, rfl⟩ := Option.map_eq_some_iff.mp hstep
      exact h.userStore_undisturbed addr.isLt hk hx hne
  | kernelPush addr b =>
      obtain rfl := Option.some.inj hstep
      obtain ⟨hstart, -, hdesc⟩ := h.push_bounds hop
      have habove := kernelBase_le_heap
      exact (h.quiet_push hop).undisturbed h.spaces hx
        (fun y hy => Mem.store_of_ne b (by omega))
        fun y hy hy' => Mem.store_of_ne b (hdesc _ (Kernel.mem_descriptors hx) y hy hy')
  | bootPush addr b =>
      obtain rfl := Option.some.inj hstep
      obtain ⟨hlow, hhigh⟩ := hop
      have habove := img.above
      have hbelow := img.below
      have htop := bootStackTop_below
      have hlive := (h.spaces.descriptor_not_page (Kernel.mem_descriptors hx)).1
      have hstart := (h.spaces.space.heap.live_bounds hlive).1
      exact (h.spaces.quiet_bootPush hlow hhigh b).undisturbed h.spaces hx
        (fun y hy => Mem.store_of_ne b (by omega))
        fun y hy hy' => Mem.store_of_ne b (by omega)

end Image.Sound

/-- **While another process is the current one**, in every part of every run, a process keeps its
pages, the memory that it reaches, and its descriptor up to the links. -/
theorem machine_undisturbed {ops ops' : List MachineOp} (hboot : Booted k)
    (h : img.Reaches k ops m) (hx : x ∈ m.kernel.processes)
    (hops' : Meets img.step (fun m op => img.Allows m op ∧ m.kernel.currentProcess ≠ x.1) m ops')
    (hrun' : exec img.step m ops' = some m') : KeepsProcess m.kernel m'.kernel x := by
  obtain ⟨-, s, -, -, hs⟩ := machine_carriesOut hboot h
  set I : Machine → Prop := fun u =>
    (∃ s, img.CarriesOut u s) ∧ KeepsProcess m.kernel u.kernel x with hI
  refine (exec_invariant_of_meets (I := I) ?_ ⟨⟨s, hs⟩, KeepsProcess.refl hx⟩ hops' hrun').2
  rintro u op u' ⟨⟨s, bs, tables, free, h⟩, hstay⟩ ⟨hop, hne⟩ hstep
  obtain ⟨-, s', -, -, h'⟩ := machine_simulates img u s op u' ⟨bs, tables, free, h⟩ hop hstep
  exact ⟨⟨s', h'⟩, hstay.trans (h.undisturbed hop hstep hstay.process hne)⟩

/-- The other process, while the one that was entered stores a byte. -/
theorem machine_undisturbed_store : ∃ m m' x,
    sampleImage.Reaches (bootKernel bootRam) kernelMainOps m ∧ x ∈ m.kernel.processes ∧
      sampleImage.step m (.userStore 0 0x90) = some m' ∧
        KeepsProcess m.kernel m'.kernel x := by
  obtain ⟨m, u, -, x, h, -, -, hx, hne, -, hstep, -⟩ := interruption_runs
  have hmeets : Meets sampleImage.step
      (fun m op => sampleImage.Allows m op ∧ m.kernel.currentProcess ≠ x.1) m
      [.userStore 0 0x90] := ⟨⟨trivial, hne⟩, fun _ _ => trivial⟩
  exact ⟨m, u, x, h, hx, hstep, machine_undisturbed booted_zeroRam h hx hmeets
    (exec_concat (exec_nil m) hstep)⟩

end LoofOS
