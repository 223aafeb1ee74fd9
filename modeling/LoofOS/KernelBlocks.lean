import LoofOS.DescriptorTable
import LoofOS.KernelImage

/-!
# The Blocks of the Kernel

What the kernel has allocated before `create_process` is called first, the interrupt descriptor
table above all, belongs to no process. In no run does a byte of it change: `create_process` takes
other blocks, `switch_process` writes to descriptors, and a push goes to the kernel stack of a
process. So the processor finds the gates of `set_id` whenever an interrupt comes (`gates_kept`).

## Main results

* `Image.Sound.kernelBlock`: one step.
* `blocks_kept`: every run.
* `gates_kept`: the interrupt descriptor table, in every run.
-/

namespace LoofOS

open Run

variable {img : Image} {m m' : Machine} {k k' : Kernel} {s s' : Scheduler} {bs : List Block}
  {tables free : List ℕ} {a n x : ℕ}

/-- The bytes that matter: those of the block, and the stack pointers in the descriptors. -/
def Spares (k k' : Kernel) (a n : ℕ) : Prop :=
  ∀ x, (a ≤ x ∧ x < a + n) ∨ (∃ q ∈ k.descriptors, q + esp0Offset ≤ x ∧ x < q + esp0Offset + 4) →
    k'.ram.byte x = k.ram.byte x

/-- A quiet step that spares a block leaves it a kernel block. -/
theorem KernelBlock.quiet {kernelMemory : ℕ} (h : KernelBlock k tables a n)
    (hq : Quiet userIndex kernelMemory bs tables free k k') (hspares : Spares k k' a n) :
    KernelBlock k' tables a n := by
  refine ⟨hq.live ▸ h.live, hq.directories ▸ h.page, hq.descriptors ▸ h.descriptor,
    fun q hmem => ?_⟩
  rw [hq.descriptors] at hmem
  have hread : k'.read32 (q + esp0Offset) = k.read32 (q + esp0Offset) :=
    Mem.read32_congr fun x hx hx' => hspares x (Or.inr ⟨q, hmem, hx, hx'⟩)
  rw [hread]
  exact h.stack q hmem

namespace Image.Sound

/-- The bytes that matter are in the heap. -/
theorem spared_above (h : img.Sound m s bs tables free) (hblock : KernelBlock m.kernel tables a n)
    (hx : (a ≤ x ∧ x < a + n) ∨
      ∃ q ∈ m.kernel.descriptors, q + esp0Offset ≤ x ∧ x < q + esp0Offset + 4) :
    kernelHeap.start < x := by
  rcases hx with ⟨hx, -⟩ | ⟨q, hq, hx, -⟩
  · exact (h.spaces.space.heap.live_bounds hblock.live).1.trans_le hx
  · have hstart := (h.spaces.space.heap.live_bounds (h.spaces.descriptor_not_page hq).1).1
    omega

/-- The context and the state of the current process are not among them. -/
theorem spared_current (h : img.Sound m s bs tables free)
    (hblock : KernelBlock m.kernel tables a n) (hc : m.kernel.currentProcess ≠ 0)
    (hx : (a ≤ x ∧ x < a + n) ∨
      ∃ q ∈ m.kernel.descriptors, q + esp0Offset ≤ x ∧ x < q + esp0Offset + 4) :
    (x < m.kernel.currentProcess ∨ m.kernel.currentProcess + esp0Offset ≤ x) ∧
      x ≠ m.kernel.currentProcess + stateOffset := by
  have hoffset : esp0Offset = 68 ∧ stateOffset = 84 ∧ processDescSize = 85 := ⟨rfl, rfl, rfl⟩
  have hcurrent : m.kernel.currentProcess ∈ m.kernel.descriptors :=
    h.records.current ▸ h.records.mem (h.current_mem hc).2
  have hlive := (h.spaces.descriptor_not_page hcurrent).1
  rcases hx with ⟨hx, hx'⟩ | ⟨q, hq, hx, hx'⟩
  · have hne : a ≠ m.kernel.currentProcess := fun he => hblock.descriptor (he ▸ hcurrent)
    have happart := h.spaces.space.heap.live_apart hblock.live hlive hne
    omega
  · by_cases he : q = m.kernel.currentProcess
    · omega
    · have happart := h.separate.apart q hq _ hcurrent he
      omega

/-- **Every step but `create_process`** spares them. -/
theorem spares {op : MachineOp} (h : img.Sound m s bs tables free)
    (hblock : KernelBlock m.kernel tables a n) (hop : img.Allows m op)
    (hstep : img.step m op = some m') (hnot : ∀ eip, op ≠ .createProcess eip) :
    Spares m.kernel m'.kernel a n := by
  intro x hx
  have habove := h.spared_above hblock hx
  have hbelow := img.tss_below
  have himage : x < img.tss + 4 ∨ img.tss + 8 ≤ x := Or.inr (hbelow.trans habove.le)
  cases op with
  | createProcess eip => exact absurd rfl (hnot eip)
  | enableSwitching =>
      obtain rfl := Option.some.inj hstep
      rfl
  | forceEnterUserland =>
      obtain rfl := Option.some.inj hstep
      exact Mem.write32_of_outside himage
  | timer c =>
      obtain ⟨⟨k', out⟩, hk, rfl⟩ := Option.map_eq_some_iff.mp hstep
      rw [Kernel.timerHandler] at hk
      by_cases hon : m.switching = true
      · rw [if_pos hon] at hk
        obtain ⟨s', -, -, -, hstay, hgo⟩ := h.switchProcess hk
        have hsame : k'.ram.byte x = m.kernel.ram.byte x := by
          by_cases hearly : m.kernel.currentProcess = 0 ∨
              m.kernel.nextOf m.kernel.currentProcess = m.kernel.currentProcess
          · obtain ⟨-, rfl, -⟩ := hstay hearly
            rfl
          · obtain ⟨hc, hmore⟩ := not_or.mp hearly
            exact (hgo hc hmore).2.outside x (h.spared_current hblock hc hx).1 himage
        cases out with
        | none => exact hsame
        | some a => exact hsame
      · rw [if_neg hon] at hk
        obtain ⟨rfl, rfl⟩ := Prod.mk.inj (Option.some.inj hk)
        rfl
  | updateProcess state =>
      obtain rfl := Option.some.inj hstep
      exact Mem.store_of_ne state (h.spared_current hblock hop.1 hx).2
  | userStore addr b =>
      obtain ⟨k', hk, rfl⟩ := Option.map_eq_some_iff.mp hstep
      obtain ⟨y, -, -, -, hspares⟩ := h.sparesProcesses addr.isLt hk
      exact hspares.kernel x (kernelBase_le_heap.trans habove.le)
  | kernelPush addr b =>
      obtain rfl := Option.some.inj hstep
      refine Mem.store_of_ne b ?_
      rcases hx with ⟨hx, hx'⟩ | ⟨q, hq, hx, hx'⟩
      · -- the kernel stack is another block
        obtain ⟨hprocess, hlow, hhigh⟩ := hop
        have hload := h.cpu.resolve_left hprocess
        have hmem := h.faithful.ring.current_mem hload.current
        obtain ⟨e, he⟩ := h.stack _ hmem
        have hesp0 := h.records.esp0 hmem
        have htop : m.kernel.read32 (img.tss + 4) = e + 4092 := hload.stack.trans he.top
        rw [htop] at hlow hhigh
        have hne : a ≠ e := by
          rintro rfl
          exact hblock.stack _ (h.records.mem hmem) (hesp0.symm.trans he.top)
        have happart := h.spaces.space.heap.live_apart hblock.live he.live hne
        omega
      · have hoffset : esp0Offset = 68 ∧ processDescSize = 85 := ⟨rfl, rfl⟩
        exact (h.push_bounds hop).2.2 q hq x (by omega) (by omega)
  | bootPush addr b =>
      obtain rfl := Option.some.inj hstep
      have htop := bootStackTop_below
      obtain ⟨-, hhigh⟩ := hop
      exact Mem.store_of_ne b (by omega)

/-- **One step** leaves the blocks of the kernel alone. -/
theorem kernelBlock {op : MachineOp} (h : img.Sound m s bs tables free)
    (hblock : KernelBlock m.kernel tables a n) (hop : img.Allows m op)
    (hstep : img.step m op = some m') : ∃ s' bs' tables' free',
      img.Sound m' s' bs' tables' free' ∧ KernelBlock m'.kernel tables' a n ∧
        ∀ x, a ≤ x → x < a + n → m'.kernel.ram.byte x = m.kernel.ram.byte x := by
  by_cases hcreate : ∃ eip, op = .createProcess eip
  · obtain ⟨eip, rfl⟩ := hcreate
    obtain ⟨k', hk, rfl⟩ := Option.map_eq_some_iff.mp hstep
    obtain ⟨p, stack, directory, bs', tables', free', -, -, h', htakes⟩ := h.createProcess hop.2 hk
    obtain ⟨hkept, hbytes⟩ := htakes.kept a n hblock
    exact ⟨_, bs', tables', free', h', hkept, hbytes⟩
  · have hnot : ∀ eip, op ≠ .createProcess eip := fun eip he => hcreate ⟨eip, he⟩
    have hspares := h.spares hblock hop hstep hnot
    obtain ⟨-, s', -, -, hstay⟩ := h.quiet_step hop hstep hnot
    exact ⟨s', bs, tables, free, hstay.sound, hblock.quiet hstay.quiet hspares,
      fun x hx hx' => hspares x (Or.inl ⟨hx, hx'⟩)⟩

end Image.Sound

/-- A block that was allocated before `init_paging`. -/
theorem boot_kernelBlock (img : Image) (hboot : Booted k) (ha : (a, n) ∈ k.live) :
    KernelBlock (img.boot k).kernel [] a n := by
  have hdirs : (img.boot k).kernel.directories = [] :=
    congrArg (List.map Prod.snd) hboot.processes
  have hdesc : (img.boot k).kernel.descriptors = [] :=
    congrArg (List.map Prod.fst) hboot.processes
  refine ⟨ha, ?_, ?_, fun q hq => ?_⟩
  · rw [hdirs]
    exact List.not_mem_nil
  · rw [hdesc]
    exact List.not_mem_nil
  · rw [hdesc] at hq
    cases hq

/-- **The blocks of the kernel, in every run**: what was allocated before `init_paging` stays
allocated, and none of its bytes changes. -/
theorem blocks_kept {ops : List MachineOp} (hboot : Booted k) (h : img.Reaches k ops m)
    (ha : (a, n) ∈ k.live) : (a, n) ∈ m.kernel.live ∧
      ∀ x, a ≤ x → x < a + n → m.kernel.ram.byte x = k.ram.byte x := by
  obtain ⟨bs, hheap⟩ := hboot.heap.inv
  have hstart : kernelHeap.start < a := (hheap.live_bounds ha).1
  obtain ⟨-, -, hsame⟩ := @initPaging_spec userIndex k bs [] img.kernelMemory img.place hheap
    (fun i hi => Nat.lt_trans hi (by simp)) (fun _ hd => absurd hd List.not_mem_nil)
    List.nodup_nil (fun _ hd => absurd hd List.not_mem_nil)
  set I : Machine → Prop := fun u =>
    (∃ s bs tables free, img.Sound u s bs tables free ∧ KernelBlock u.kernel tables a n) ∧
      ∀ x, a ≤ x → x < a + n → u.kernel.ram.byte x = k.ram.byte x with hI
  have hinit : I (img.boot k) := by
    refine ⟨⟨_, _, _, _, boot_sound img hboot hheap, boot_kernelBlock img hboot ha⟩,
      fun x hx _ => hsame x (hstart.le.trans hx)⟩
  have hinvariant : ∀ u op u', I u → img.Allows u op → img.step u op = some u' → I u' := by
    rintro u op u' ⟨⟨s, bs, tables, free, hu, hblock⟩, hbytes⟩ hop hstep
    obtain ⟨s', bs', tables', free', hu', hblock', hsame'⟩ := hu.kernelBlock hblock hop hstep
    exact ⟨⟨s', bs', tables', free', hu', hblock'⟩,
      fun x hx hx' => (hsame' x hx hx').trans (hbytes x hx hx')⟩
  obtain ⟨⟨s, bs, tables, free, -, hblock⟩, hbytes⟩ :=
    exec_invariant_of_meets hinvariant hinit h.allowed h.run
  exact ⟨hblock.live, hbytes⟩

/-- **The gates, in every run**: a table that was allocated and filled before `init_paging` is what
it was. -/
theorem gates_kept {ops : List MachineOp} (hboot : Booted k) (h : img.Reaches k ops m)
    (ha : (a, sizeofIdtDesc * idtLimit) ∈ k.live) (v : UInt8) :
    decodeGate m.kernel.ram.byte (a + 8 * v.toNat) = decodeGate k.ram.byte (a + 8 * v.toNat) := by
  have hsize : sizeofIdtDesc * idtLimit = 2048 := rfl
  have hv := v.toNat_lt
  exact decodeGate_congr fun i hi => (blocks_kept hboot h ha).2 _ (by omega) (by omega)

end LoofOS
