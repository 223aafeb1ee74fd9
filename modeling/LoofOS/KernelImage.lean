import LoofOS.Protection
import LoofOS.SegmentDescriptors

/-!
# The Image of the Kernel

Between `KERNEL_BASE` and the stack of `kernel_main`, which ends below the heap, lie the code and
the data of the kernel, among them the segment descriptors and the TSS. In no run does the kernel or
a process change any of it once paging is on, but for the stack pointer in the TSS and the variables
that the state of the machine keeps apart (`page_freelist`, `current_process`, the flag of the
timer). So the processor finds the tables of `init_gdt` whenever it looks (`tables_kept`), up to the
bits that it has set there itself.

## Main results

* `Image.Sound.constant`: one step.
* `image_kept`: every run.
* `tables_kept`: the segments and the TSS, in every run.
-/

namespace LoofOS

open Run X86

variable {img : Image} {m m' : Machine} {k k' : Kernel} {s s' : Scheduler} {bs : List Block}
  {tables free : List ℕ} {x : ℕ}

/-- An address below the stack of `kernel_main` that is not part of `tss.esp0`. -/
structure Image.Constant (img : Image) (x : ℕ) : Prop where
  above : kernelBase ≤ x
  below : x < img.bootStack
  apart : x < img.tss + 4 ∨ img.tss + 8 ≤ x

namespace Image.Sound

/-- The descriptor of the current process is in the heap. -/
theorem current_above (h : img.Sound m s bs tables free) (hc : m.kernel.currentProcess ≠ 0) :
    kernelHeap.start < m.kernel.currentProcess := by
  have hmem := h.records.mem (h.current_mem hc).2
  rw [h.records.current] at hmem
  exact (h.spaces.space.heap.live_bounds (h.spaces.descriptor_not_page hmem).1).1

/-- **One step** leaves the image alone. -/
theorem constant {op : MachineOp} (h : img.Sound m s bs tables free) (hop : img.Allows m op)
    (hstep : img.step m op = some m') (hx : img.Constant x) :
    m'.kernel.ram.byte x = m.kernel.ram.byte x := by
  have hbelow := (hx.below.trans_le img.stack).trans bootStackTop_below
  cases op with
  | createProcess eip =>
      obtain ⟨k', hk, rfl⟩ := Option.map_eq_some_iff.mp hstep
      obtain ⟨blocks, hblocks⟩ := h.spaces.space.heap.allocateAll processSizes_small
      obtain ⟨a, b, free', p, d, stack, bs', tables', rfl, -, -, hadded, -⟩ :=
        h.spaces.createProcess_represents img.place (fun _ hi => hi) userIndex_zero userIndex_top
          hblocks (hop.2 blocks hblocks) h.records h.faithful.ring hk
      obtain ⟨hpage, hlt⟩ := h.spaces.space.frame b (List.mem_cons_of_mem _ List.mem_cons_self)
      have hdvd := hpage.dvd
      have habove := hx.above
      refine hadded.below x hbelow (Or.inr ?_)
      rw [kernelBase_eq] at hlt habove
      omega
  | enableSwitching =>
      obtain rfl := Option.some.inj hstep
      rfl
  | forceEnterUserland =>
      obtain rfl := Option.some.inj hstep
      exact Mem.write32_of_outside hx.apart
  | timer c =>
      obtain ⟨⟨k', out⟩, hk, rfl⟩ := Option.map_eq_some_iff.mp hstep
      rw [Kernel.timerHandler] at hk
      by_cases hon : m.switching = true
      · rw [if_pos hon] at hk
        obtain ⟨s', -, -, -, hstay, hgo⟩ := h.switchProcess hk
        have hsame : k'.ram.byte x = m.kernel.ram.byte x := by
          by_cases hearly : m.kernel.currentProcess = 0 ∨
              m.kernel.nextOf m.kernel.currentProcess = m.kernel.currentProcess
          · obtain ⟨-, rfl, -⟩ := hstay hearly
            rfl
          · obtain ⟨hc, hmore⟩ := not_or.mp hearly
            have hcurrent := h.current_above hc
            exact (hgo hc hmore).2.outside x (Or.inl (by omega)) hx.apart
        cases out with
        | none => exact hsame
        | some a => exact hsame
      · rw [if_neg hon] at hk
        obtain ⟨rfl, rfl⟩ := Prod.mk.inj (Option.some.inj hk)
        rfl
  | updateProcess state =>
      obtain rfl := Option.some.inj hstep
      have hcurrent := h.current_above hop.1
      exact Mem.store_of_ne state (by omega)
  | userStore addr b =>
      obtain ⟨k', hk, rfl⟩ := Option.map_eq_some_iff.mp hstep
      obtain ⟨y, -, -, -, hspares⟩ := h.sparesProcesses addr.isLt hk
      exact hspares.kernel x hx.above
  | kernelPush addr b =>
      obtain rfl := Option.some.inj hstep
      obtain ⟨hstart, -⟩ := h.push_bounds hop
      exact Mem.store_of_ne b (by omega)
  | bootPush addr b =>
      obtain rfl := Option.some.inj hstep
      exact Mem.store_of_ne b (hx.below.trans_le hop.1).ne

end Image.Sound

/-- `init_paging` writes to `kernel_memory` and to the pages below `KERNEL_BASE`. -/
theorem initPaging_constant (hx : kernelBase ≤ x)
    (hout : x < img.kernelMemory ∨ img.kernelMemory + 4096 ≤ x) :
    (initPaging img.kernelMemory k).ram.byte x = k.ram.byte x := by
  have hbase : 4096 * (kernelBase / 4096) = kernelBase := by rw [kernelBase_eq]
  refine (linkFrames_outside (hbase.trans_le hx)).trans ?_
  refine (Ram.writeEntries_outside (by omega)).trans ?_
  refine (Ram.writeEntries_outside (by omega)).trans ?_
  exact Ram.writeEntries_outside (by omega)

/-- **The image, in every run**, outside `kernel_memory`, which `init_paging` fills. -/
theorem image_kept {ops : List MachineOp} (hboot : Booted k) (h : img.Reaches k ops m)
    (hx : img.Constant x) (hout : x < img.kernelMemory ∨ img.kernelMemory + 4096 ≤ x) :
    m.kernel.ram.byte x = k.ram.byte x := by
  obtain ⟨bs, hheap⟩ := hboot.heap.inv
  set I : Machine → Prop := fun u =>
    (∃ s, img.CarriesOut u s) ∧ u.kernel.ram.byte x = k.ram.byte x with hI
  have hstart : I (img.boot k) :=
    ⟨⟨_, _, _, _, boot_sound img hboot hheap⟩, initPaging_constant hx.above hout⟩
  refine (exec_invariant_of_meets (I := I) ?_ hstart h.allowed h.run).2
  rintro u op u' ⟨⟨s, bs, tables, free, hu⟩, hsame⟩ hop hstep
  obtain ⟨-, s', -, -, hu'⟩ := machine_simulates img u s op u' ⟨bs, tables, free, hu⟩ hop hstep
  exact ⟨⟨s', hu'⟩, (hu.constant hop hstep hx).trans hsame⟩

/-! ### The tables of the processor -/

/-- `gdt` and `tss` are in the image, apart from one another and from `kernel_memory`. The entries
of `gdt` behind the sixth one are zero. -/
structure Image.Places (img : Image) (t : GdtState) : Prop where
  tss : t.tss = img.tss
  above : kernelBase ≤ t.gdt
  below : t.gdt + 2048 ≤ img.bootStack
  tssBelow : img.tss + sizeofTss ≤ img.bootStack
  apart : t.gdt + 2048 ≤ t.tss ∨ t.tss + sizeofTss ≤ t.gdt
  memory : t.gdt + 2048 ≤ img.kernelMemory ∨ img.kernelMemory + 4096 ≤ t.gdt
  tssMemory : img.tss + sizeofTss ≤ img.kernelMemory ∨ img.kernelMemory + 4096 ≤ img.tss
  zero : ∀ x, t.gdt + 48 ≤ x → x < t.gdt + 2048 → t.byte x = 0

/-- The kernel's memory holds what `init_gdt` has written. -/
def GdtState.Written (t : GdtState) (k : Kernel) : Prop :=
  ∀ x, (t.gdt ≤ x ∧ x < t.gdt + 2048) ∨ (t.tss ≤ x ∧ x < t.tss + sizeofTss) →
    k.ram.byte x = (initGdt t).byte x

/-- What the processor finds in memory: the segments of the kernel, and a TSS with the kernel's
stack segment and no bitmap within its limit. -/
structure TablesAt (m : Mem) (gdt tss : ℕ) : Prop where
  segments : segmentsAt m gdt 2047 = kernelSegments tss
  ss0 : m.read16 (tss + 8) = 0x10
  iopb : m.read16 (tss + 102) = sizeofTss

/-- **What `init_gdt` writes.** -/
theorem tablesAt_initGdt {t : GdtState} (hplace : img.Places t) :
    TablesAt (initGdt t).byte t.gdt img.tss := by
  have hbelow := hplace.tssBelow.trans img.stack
  have htop : bootStackTop < 2 ^ 32 := by decide
  obtain ⟨-, hss0, hiopb⟩ := tss_initGdt hplace.apart
  refine ⟨?_, ?_, ?_⟩
  · rw [← hplace.tss]
    exact segments_initGdt hplace.zero hplace.apart (by rw [hplace.tss]; omega)
  · rw [← hplace.tss]
    exact hss0
  · rw [← hplace.tss]
    exact hiopb

/-- Only the table and the TSS without `esp0` matter. -/
theorem TablesAt.congr {f g : Mem} {gdt tss : ℕ} (h : TablesAt f gdt tss)
    (hgdt : ∀ x, gdt ≤ x → x < gdt + 2048 → g x = f x)
    (htss : ∀ x, tss + 8 ≤ x → x < tss + sizeofTss → g x = f x) : TablesAt g gdt tss := by
  have hsize : sizeofTss = 108 := rfl
  refine ⟨?_, ?_, ?_⟩
  · rw [← h.segments]
    funext i
    rw [segmentsAt, segmentsAt]
    split
    next hi => exact congrArg some (decodeSegment_congr fun j hj => hgdt _ (by omega) (by omega))
    next hi => rfl
  · rw [← h.ss0, Mem.read16, Mem.read16, htss _ (by omega) (by omega), htss _ (by omega) (by omega)]
  · rw [← h.iopb, Mem.read16, Mem.read16, htss _ (by omega) (by omega),
      htss _ (by omega) (by omega)]

/-- The segment tables stand where they were written, along every run. -/
theorem tablesAt_reached {t : GdtState} {ops : List MachineOp} (hboot : Booted k)
    (hplace : img.Places t) (hwritten : t.Written k) (h : img.Reaches k ops m) :
    TablesAt m.kernel.ram.byte t.gdt img.tss := by
  have htss := hplace.tss
  have habove := img.above
  have happart := hplace.apart
  have hmemory := hplace.memory
  have htssMemory := hplace.tssMemory
  have hgdtAbove := hplace.above
  have hgdtBelow := hplace.below
  have htssBelow := hplace.tssBelow
  have hsize : sizeofTss = 108 := rfl
  refine (tablesAt_initGdt hplace).congr (fun x hx hx' => ?_) fun x hx hx' => ?_
  · rw [← hwritten x (Or.inl ⟨hx, hx'⟩)]
    exact image_kept hboot h ⟨by omega, by omega, by omega⟩ (by omega)
  · rw [← hwritten x (Or.inr ⟨by omega, by omega⟩)]
    exact image_kept hboot h ⟨by omega, by omega, by omega⟩ (by omega)

/-- **What the processor relies on, in every run**: the image is what it was before paging, the
segment descriptors and the TSS are what `init_gdt` has written, and the stack for ring 0 is the
kernel stack of the process that is on the CPU. -/
theorem tables_kept {t : GdtState} {ops : List MachineOp} (hboot : Booted k)
    (hplace : img.Places t) (hwritten : t.Written k) (h : img.Reaches k ops m) :
    (∀ x, img.Constant x → x < img.kernelMemory ∨ img.kernelMemory + 4096 ≤ x →
      m.kernel.ram.byte x = k.ram.byte x) ∧
    TablesAt m.kernel.ram.byte t.gdt img.tss ∧
    (m.kernel.cr3.headD 0 ≠ sub32 img.kernelMemory kernelBase →
      m.kernel.read32 (img.tss + 4) = m.kernel.read32 (m.kernel.currentProcess + esp0Offset)) := by
  refine ⟨fun x hx hout => image_kept hboot h hx hout, tablesAt_reached hboot hplace hwritten h,
    fun hprocess => ?_⟩
  obtain ⟨-, s, -, -, bs, tables, free, h⟩ := machine_carriesOut hboot h
  have hload := h.cpu.resolve_left hprocess
  rw [hload.stack, h.records.current.symm]
  exact h.records.esp0 (h.faithful.ring.current_mem hload.current)

/-! ### Tables at 3 MiB -/

/-- `gdt` at 3 MiB, on memory of zeros. -/
def sampleGdt : GdtState := ⟨fun _ => 0, 0xc0300000, 0xc0200000, 0, 0⟩

/-- The sample image has room for its tables. -/
theorem places_sampleGdt : sampleImage.Places sampleGdt := by
  refine ⟨rfl, ?_, ?_, ?_, ?_, ?_, ?_, fun _ _ _ => rfl⟩
  all_goals decide

/-- `init_kernel_heap` writes one header, in the heap. -/
theorem initKernelHeap_outside {r₀ r : Ram} (hinit : initKernelHeap r₀ = some r)
    (hx : x ≠ kernelHeap.start) : r.byte x = r₀.byte x := by
  obtain ⟨r', hr', hI⟩ := @initMemory_spec r₀ kernelHeap (by decide) (by decide)
  rw [initKernelHeap, hr'] at hinit
  obtain rfl := Option.some.inj hinit
  have hblocks : initBlocks 32 ((kernelHeap.last + 1 - kernelHeap.start) / 8) 3
      = [⟨29, false⟩] := by decide
  rw [hblocks] at hI
  refine hI.byte x fun h hmem => ?_
  simp only [Tiling.layout_cons, Tiling.layout_nil, List.mem_singleton, Prod.mk.injEq] at hmem
  exact hx hmem.1

/-- **The kernel after `init_gdt` and `init_kernel_heap`**, on memory that is zero in the heap. -/
theorem gdt_boots {t : GdtState} {r : Ram} (hplace : img.Places t)
    (hclean : ∀ x, kernelHeap.start ≤ x → t.byte x = 0) :
    ∃ r', initKernelHeap { r with byte := (initGdt t).byte } = some r' ∧
      Booted (bootKernel r') ∧ HeapInv ⟨r', []⟩ [⟨29, false⟩] ∧ Clean [⟨29, false⟩] r'.byte ∧
      t.Written (bootKernel r') := by
  have hheap := img.stack.trans_lt bootStackTop_below
  have hgdt := hplace.below
  have htss := hplace.tssBelow
  have hzero : ∀ x, kernelHeap.start ≤ x → (initGdt t).byte x = 0 := fun x hx => by
    refine (initGdt_outside (Or.inr ?_) (Or.inr ?_)).trans (hclean x hx)
    · omega
    · rw [hplace.tss]
      omega
  set r₀ : Ram := { r with byte := (initGdt t).byte } with hr₀
  have hlast : r₀.byte kernelHeap.last = 0 := hzero _ (by decide)
  obtain ⟨r', hr, -⟩ := @initMemory_spec r₀ kernelHeap (by decide) (by decide)
  have hinit : initKernelHeap r₀ = some r' := hr
  have hheap := initKernelHeap_inv hlast hinit
  refine ⟨r', hinit, booted_bootKernel hlast hinit, hheap, fun x hx => ?_, fun x hx => ?_⟩
  · have hstart := (hheap.freeByte_bounds hx).1
    exact (initKernelHeap_outside hinit hstart.ne').trans (hzero x hstart.le)
  · refine initKernelHeap_outside hinit ?_
    rintro rfl
    rw [hplace.tss] at hx
    omega

/-- The same with tables at 3 MiB. -/
theorem sampleGdt_boots : ∃ r, Booted (bootKernel r) ∧ HeapInv ⟨r, []⟩ [⟨29, false⟩] ∧
    Clean [⟨29, false⟩] r.byte ∧ sampleGdt.Written (bootKernel r) := by
  obtain ⟨r, -, h⟩ := @gdt_boots _ _ zeroRam places_sampleGdt fun _ _ => rfl
  exact ⟨r, h⟩

/-- The tables while the first of two processes is entered. -/
theorem tables_kept_entered : ∃ r m, sampleGdt.Written (bootKernel r) ∧
    sampleImage.Reaches (bootKernel r) kernelMainOps m ∧
    (∀ x, sampleImage.Constant x →
      x < sampleImage.kernelMemory ∨ sampleImage.kernelMemory + 4096 ≤ x →
        m.kernel.ram.byte x = r.byte x) ∧
    TablesAt m.kernel.ram.byte sampleGdt.gdt sampleImage.tss ∧
    (m.kernel.cr3.headD 0 ≠ sub32 sampleImage.kernelMemory kernelBase →
      m.kernel.read32 (sampleImage.tss + 4)
        = m.kernel.read32 (m.kernel.currentProcess + esp0Offset)) := by
  obtain ⟨r, hboot, hheap, hclean, hwritten⟩ := sampleGdt_boots
  obtain ⟨m, s, bs, tables, free, h, -, hop, -⟩ := start_runs hboot hheap hclean
  have hentered := h.concat hop rfl
  exact ⟨r, _, hwritten, hentered, tables_kept hboot places_sampleGdt hwritten hentered⟩

end LoofOS
