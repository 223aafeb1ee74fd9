import LoofOS.Creation
import LoofOS.Run

/-!
# The Shared Kernel Half

Runs of the functions that change address spaces, from a kernel that has just been booted: the heap
is what some run of its operations left, and `init_paging` has set up paging.

The blocks that `create_process` and `allocate_page` get from the heap are not cleared by them. The
runs considered here are those in which the blocks read as entries that are not present
(`FreshBlocks`).

On a clean heap (`Clean`) they are, call after call (`SpacesInv.createProcess_clean`).

## Main results

* `SpacesInv.createProcess_clean`: `create_process` on a clean heap.
* `kernelHalf_shared`: every process translates the addresses of the kernel as `kernel_memory` does.
-/

namespace LoofOS

open Run

/-! ### Runs -/

/-- What is called. -/
inductive PagingOp
  | createProcess (eip : ℕ)
  | allocatePage (pageDir addr : ℕ)
  | freePage (pageDir addr : ℕ)
  deriving DecidableEq, Repr

/-- One call. -/
def pagingStep (kernelMemory : ℕ) (s : Kernel) : PagingOp → Option Kernel
  | .createProcess eip => s.createProcess kernelMemory eip
  | .allocatePage pageDir addr => allocatePage s pageDir addr
  | .freePage pageDir addr => some (freePage s pageDir addr)

/-- A kernel before `init_paging`: there is a heap, but no process. -/
structure Booted (s : Kernel) : Prop where
  heap : HeapReached ⟨s.ram, s.live⟩
  processes : s.processes = []
  currentProcess : s.currentProcess = 0

/-- An index of a directory below the kernel half. -/
def userIndex (i : ℕ) : Prop := i < 768

/-- The index of the first page. -/
theorem userIndex_zero : userIndex 0 := Nat.zero_lt_succ _

/-- The index of the stack. -/
theorem userIndex_top : userIndex 767 := Nat.lt_succ_self _

/-- The calls for which the blocks of the heap are fresh: `create_process` gets blocks that are not
null and in which no entry is present, and so does `allocate_page`, which is called for a directory
that `create_process` made. -/
def FreshBlocks (s : Kernel) : PagingOp → Prop
  | .createProcess _ => ∀ blocks, allocateAll s.ram processSizes = some blocks →
      ProcessClear userIndex s.ram.byte blocks
  | .allocatePage pageDir addr => pageDir ∈ s.directories ∧ TableClear s pageDir addr
  | .freePage _ _ => False

variable {kernelMemory : ℕ} {s s' : Kernel} {bs : List Block} {tables free : List ℕ}

/-- The addresses that a directory is looked up for. -/
theorem userIndex_of_lt {addr : ℕ} (h : addr < kernelBase) : userIndex (addr / 2 ^ 22) := by
  rw [kernelBase_eq] at h
  rw [userIndex]
  omega

/-- **One call keeps the invariant.** -/
theorem SpacesInv.step {op : PagingOp} (h : SpacesInv userIndex kernelMemory s bs tables free)
    (hplace : KernelPlace kernelMemory) (hop : FreshBlocks s op)
    (hstep : pagingStep kernelMemory s op = some s') :
    ∃ bs' tables' free', SpacesInv userIndex kernelMemory s' bs' tables' free' := by
  cases op with
  | createProcess eip =>
      obtain ⟨blocks, hblocks⟩ := h.space.heap.allocateAll processSizes_small
      rcases h.createProcess hplace (fun _ hi => hi) userIndex_zero userIndex_top hblocks
          (hop blocks hblocks) eip with
        ⟨-, hnone⟩ | ⟨a, b, free', p, d, u, bs', tables', -, -, -, hsome, h', -⟩
      · exact absurd (hnone.symm.trans hstep) nofun
      · obtain rfl := Option.some.inj (hsome.symm.trans hstep)
        exact ⟨bs', tables', free', h'⟩
  | allocatePage pageDir addr =>
      obtain ⟨u, bs', tables', free', hsome, hspace, hext, -⟩ :=
        h.space.allocatePage hop.1 userIndex_of_lt hop.2
      obtain rfl := Option.some.inj (hsome.symm.trans hstep)
      exact ⟨bs', tables', free', h.of_extends hplace (fun _ hi => hi) hspace hext⟩
  | freePage pageDir addr => exact hop.elim

/-- **Every run keeps the invariant.** -/
theorem SpacesInv.exec {ops : List PagingOp} (hplace : KernelPlace kernelMemory) (hboot : Booted s)
    (hops : Meets (pagingStep kernelMemory) FreshBlocks (initPaging kernelMemory s) ops)
    (hexec : Run.exec (pagingStep kernelMemory) (initPaging kernelMemory s) ops = some s') :
    ∃ bs tables free, SpacesInv userIndex kernelMemory s' bs tables free := by
  obtain ⟨bs, hheap⟩ := hboot.heap.inv
  refine exec_invariant_of_meets
    (I := fun s => ∃ bs tables free, SpacesInv userIndex kernelMemory s bs tables free)
    (fun s op s' ⟨bs, tables, free, h⟩ hop hstep => h.step hplace hop hstep) ?_ hops hexec
  exact ⟨bs, [], _, SpacesInv.start hplace hheap (fun i hi => Nat.lt_trans hi (by simp))
    hboot.processes hboot.currentProcess⟩

/-! ### A clean heap -/

/-- The allocations of `create_process` succeed. -/
def GrantsBlocks (s : Kernel) : PagingOp → Prop
  | .createProcess _ => ∀ blocks, allocateAll s.ram processSizes = some blocks → 0 ∉ blocks
  | _ => True

/-- The bytes of the blocks that calls of the allocator return were behind unused headers. -/
theorem HeapInv.allocateAll_free {r : Ram} {live : List (ℕ × ℕ)} {sizes blocks : List ℕ}
    (h : HeapInv ⟨r, live⟩ bs) (hsizes : ∀ n ∈ sizes, n + 1 < 2 ^ 31)
    (hblocks : LoofOS.allocateAll r sizes = some blocks) (hgranted : 0 ∉ blocks) :
    ∀ x ∈ blocks.zip sizes, ∀ y, x.1 ≤ y → y < x.1 + x.2 → FreeByte bs y := by
  induction sizes generalizing r live bs blocks with
  | nil =>
      intro x hx
      rw [List.zip_nil_right] at hx
      cases hx
  | cons n sizes ih =>
      obtain ⟨⟨p, r₁⟩, hcall, hrest⟩ := Option.bind_eq_some_iff.mp hblocks
      obtain ⟨blocks, htail, rfl⟩ := Option.map_eq_some_iff.mp hrest
      obtain ⟨hp, hgranted⟩ := not_or.mp (mt List.mem_cons.mpr hgranted)
      obtain ⟨q, r₂, r₃, hcall', -, hgrant⟩ := h.allocate_same h (hsizes n List.mem_cons_self)
      obtain ⟨rfl, rfl⟩ := Prod.mk.inj (Option.some.inj (hcall.symm.trans hcall'))
      obtain ⟨hzero, -⟩ | ⟨-, bs', hgrant, -⟩ := hgrant
      · exact absurd hzero.symm hp
      intro x hx y hxy hyx
      rcases List.mem_cons.mp hx with rfl | hx
      · exact (hgrant.payload y hxy hyx).1
      · refine (hgrant.free y ?_).1
        exact ih hgrant.heap (fun m hm => hsizes m (List.mem_cons_of_mem _ hm)) htail hgranted
          x hx y hxy hyx

/-- The memory that the heap has not handed out is zero. -/
def Clean (bs : List Block) (m : Mem) : Prop := ∀ x, FreeByte bs x → m x = 0

/-- An entry of zeros is not present. -/
theorem entryPresent_zero {m : Mem} {p i : ℕ} (hi : i < 1024)
    (h : ∀ x, p ≤ x → x < p + 4096 → m x = 0) : entryPresent (Mem.entry m p i) = false := by
  have hbyte : ∀ j < 4, m (p + 4 * i + j) = 0 := fun j hj => h _ (by omega) (by omega)
  have hzero : Mem.entry m p i = 0 := by
    rw [Mem.entry, Mem.read32, hbyte 1 (by simp), hbyte 2 (by simp), hbyte 3 (by simp)]
    rw [show m (p + 4 * i) = 0 from hbyte 0 (by simp)]
    rfl
  rw [hzero]
  rfl

/-- **Blocks of a clean heap** are fresh. -/
theorem HeapInv.freshBlocks {eip : ℕ} (h : HeapInv ⟨s.ram, s.live⟩ bs)
    (hclean : Clean bs s.ram.byte) (hgrants : GrantsBlocks s (.createProcess eip)) :
    FreshBlocks s (.createProcess eip) := by
  intro blocks hblocks
  have hgranted := hgrants blocks hblocks
  have hfree := h.allocateAll_free processSizes_small hblocks hgranted
  obtain ⟨p, -, stack, -, d, -, t, -, t', -, -, -, -, -, -, rfl⟩ :=
    allocateAll_processSizes hblocks
  have hpage : ∀ q ∈ [d, t, t'], ∀ j < 1024,
      entryPresent (Mem.entry s.ram.byte q j) = false := by
    intro q hq j hj
    refine entryPresent_zero hj fun x hx hx' => hclean x (hfree (q, 4096) ?_ x hx hx')
    simp only [processSizes, List.zip_cons_cons, List.mem_cons, List.not_mem_nil, or_false,
      Prod.mk.injEq] at hq ⊢
    rcases hq with rfl | rfl | rfl <;> simp
  refine ⟨hgranted, fun q hq i hi => ?_, fun q hq j hj => hpage q (List.mem_cons_of_mem _ hq) j hj⟩
  obtain rfl := Option.some.inj hq
  exact hpage d List.mem_cons_self i (Nat.lt_trans hi (by simp))

/-- The first results of many requests. -/
theorem allocateAll_append {r : Ram} {sizes sizes' blocks : List ℕ}
    (h : allocateAll r (sizes ++ sizes') = some blocks) :
    ∃ first last, allocateAll r sizes = some first ∧ blocks = first ++ last := by
  induction sizes generalizing r blocks with
  | nil => exact ⟨[], blocks, rfl, rfl⟩
  | cons n sizes ih =>
      obtain ⟨x, hcall, hrest⟩ := Option.bind_eq_some_iff.mp h
      obtain ⟨blocks, htail, rfl⟩ := Option.map_eq_some_iff.mp hrest
      obtain ⟨first, last, hfirst, rfl⟩ := ih htail
      refine ⟨x.1 :: first, last, ?_, rfl⟩
      rw [allocateAll, hcall, Option.bind_some, hfirst, Option.map_some]

/-- **A call on a clean heap** that has blocks for more requests behind it: the blocks are fresh,
the heap stays clean, and it grants the other requests. -/
theorem SpacesInv.createProcess_clean {sizes blocks : List ℕ}
    (h : SpacesInv userIndex kernelMemory s bs tables free) (hplace : KernelPlace kernelMemory)
    (hclean : Clean bs s.ram.byte) (hframes : 2 ≤ free.length)
    (hsizes : ∀ n ∈ sizes, n + 1 < 2 ^ 31)
    (hblocks : LoofOS.allocateAll s.ram (processSizes ++ sizes) = some blocks)
    (hgranted : 0 ∉ blocks) (eip : ℕ) :
    ∃ s' bs' tables' free' rest, s.createProcess kernelMemory eip = some s' ∧
      FreshBlocks s (.createProcess eip) ∧
      SpacesInv userIndex kernelMemory s' bs' tables' free' ∧ Clean bs' s'.ram.byte ∧
      free.length = free'.length + 2 ∧ (∃ x, s'.processes = x :: s.processes) ∧
      LoofOS.allocateAll s'.ram sizes = some rest ∧ 0 ∉ rest := by
  obtain ⟨first, last, hfirst, rfl⟩ := allocateAll_append hblocks
  have hfresh : FreshBlocks s (.createProcess eip) := by
    refine h.space.heap.freshBlocks hclean fun b hb => ?_
    obtain rfl := Option.some.inj (hfirst.symm.trans hb)
    exact fun hz => hgranted (List.mem_append_left _ hz)
  rcases h.createProcess hplace (fun _ hi => hi) userIndex_zero userIndex_top hfirst
      (hfresh first hfirst) eip with
    ⟨hshort, -⟩ | ⟨a, b, free', p, d, s', bs', tables', rfl, -, -, hstep, h', hcreated, hhands⟩
  · exact absurd hframes (Nat.not_le.mpr hshort)
  · rw [hhands.later sizes hsizes] at hblocks
    obtain ⟨rest, hrest, he⟩ := Option.map_eq_some_iff.mp hblocks
    exact ⟨s', bs', tables', free', rest, hstep, hfresh, h',
      fun x hx => (hhands.unused x hx).2.trans (hclean x (hhands.unused x hx).1), rfl,
      ⟨_, hcreated.processes⟩, hrest, fun hz => hgranted (he ▸ List.mem_append_right first hz)⟩

/-! ### The first process -/

/-- The kernel after `init_kernel_heap`. -/
def bootKernel (r : Ram) : Kernel where
  ram := r
  pageFreelist := 0
  currentProcess := 0
  live := []
  processes := []
  cr3 := []

/-- The kernel after `init_kernel_heap` has booted. -/
theorem booted_bootKernel {r₀ r : Ram} (hzero : r₀.byte kernelHeap.last = 0)
    (hinit : initKernelHeap r₀ = some r) : Booted (bootKernel r) :=
  ⟨⟨r₀, r, [], hzero, hinit, trivial, rfl⟩, rfl, rfl⟩

/-- `init_kernel_heap` writes one header. -/
theorem initKernelHeap_byte {r₀ r : Ram} (hinit : initKernelHeap r₀ = some r) {x : ℕ}
    (hx : kernelHeap.start < x) : r.byte x = r₀.byte x := by
  obtain ⟨r', hr', hI⟩ := @initMemory_spec r₀ kernelHeap (by decide) (by decide)
  rw [initKernelHeap, hr'] at hinit
  obtain rfl := Option.some.inj hinit
  have hblocks : initBlocks 32 ((kernelHeap.last + 1 - kernelHeap.start) / 8) 3
      = [⟨29, false⟩] := by decide
  rw [hblocks] at hI
  refine hI.byte x ?_
  simp only [Tiling.layout_cons, Tiling.layout_nil, List.mem_singleton, Prod.mk.injEq]
  rintro h ⟨he, -⟩
  exact absurd he hx.ne'

/-- The blocks of the first process. -/
def firstBlocks : List ℕ := [0xd0000000, 0xd0002000, 0xd0004000, 0xd0006000, 0xd0008000]

/-- The first process gets the heap's first blocks. -/
theorem allocateAll_boot {r₀ r : Ram} (hzero : r₀.byte kernelHeap.last = 0)
    (hinit : initKernelHeap r₀ = some r) : allocateAll r processSizes = some firstBlocks := by
  rw [(initKernelHeap_inv hzero hinit).allocateAll_eq
    (@initKernelHeap_inv zeroRam _ rfl initKernelHeap_zeroRam) (by decide)]
  decide +kernel

/-- **The first process** is created, when the memory of its blocks was clear at boot. -/
theorem createProcess_boot {U : ℕ → Prop} {r₀ r : Ram} (hplace : KernelPlace kernelMemory)
    (hU : ∀ i, U i → i < 768) (hfirst : U 0) (htop : U 767) (hzero : r₀.byte kernelHeap.last = 0)
    (hinit : initKernelHeap r₀ = some r) (hclear : ProcessClear U r₀.byte firstBlocks) (eip : ℕ) :
    allocateAll (initPaging kernelMemory (bootKernel r)).ram processSizes = some firstBlocks ∧
      ProcessClear U (initPaging kernelMemory (bootKernel r)).ram.byte firstBlocks ∧
      ∃ s' bs tables free,
        (initPaging kernelMemory (bootKernel r)).createProcess kernelMemory eip = some s' ∧
        SpacesInv U kernelMemory s' bs tables free ∧
        Created U kernelMemory (initPaging kernelMemory (bootKernel r)) s' 0xd0000000 0xd0004000
          0 4096 := by
  have hindex : ∀ i, U i → i < 1024 := fun i hi => Nat.lt_trans (hU i hi) (by simp)
  have hinv := initKernelHeap_inv hzero hinit
  obtain ⟨hspace, -, hsame⟩ :=
    @initPaging_spec U (bootKernel r) _ [] kernelMemory hplace hinv hindex
    (fun _ hd => absurd hd List.not_mem_nil) List.nodup_nil (fun _ hd => absurd hd List.not_mem_nil)
  have hstart := SpacesInv.start (s := bootKernel r) hplace hinv hindex rfl rfl
  set s := initPaging kernelMemory (bootKernel r) with hs
  have hentry : ∀ p i, kernelHeap.start < p → i < 1024 →
      Mem.entry s.ram.byte p i = Mem.entry r₀.byte p i := fun p i hp hi =>
    Mem.entry_congr hi fun x hx _ => (hsame x (hp.le.trans hx)).trans
      (initKernelHeap_byte hinit (hp.trans_le hx))
  have hclear' : ProcessClear U s.ram.byte firstBlocks := by
    refine ⟨hclear.granted, fun d hd i hi => ?_, fun t ht j hj => ?_⟩
    · obtain rfl := Option.some.inj hd
      rw [hentry _ i (by decide) (hindex i hi)]
      exact hclear.directory _ rfl i hi
    · have habove : ∀ t ∈ firstBlocks.drop 3, kernelHeap.start < t := by decide
      rw [hentry t j (habove t ht) hj]
      exact hclear.table t ht j hj
  have hblocks : allocateAll s.ram processSizes = some firstBlocks := by
    rw [hspace.heap.allocateAll_eq (show HeapInv ⟨r, s.live⟩ _ from hinv) (by decide)]
    exact allocateAll_boot hzero hinit
  refine ⟨hblocks, hclear', ?_⟩
  have hframes : frames 0 (kernelBase / 4096) = 0 :: 4096 :: frames 2 786430 := by
    rw [show kernelBase / 4096 = 786430 + 1 + 1 from rfl, frames_succ, frames_succ]
  rw [hframes] at hstart
  rcases hstart.createProcess hplace hU hfirst htop hblocks hclear' eip with
    ⟨hshort, -⟩ | ⟨a, b, free, p, d, s', bs', tables', hfree, hp, hd, hstep, h', hcreated, -⟩
  · rw [List.length_cons, List.length_cons] at hshort
    omega
  · simp only [List.cons.injEq] at hfree
    obtain ⟨rfl, rfl, rfl⟩ := hfree
    obtain rfl := Option.some.inj hp
    obtain rfl := Option.some.inj hd
    exact ⟨s', bs', tables', _, hstep, h', hcreated⟩

/-- In cleared memory the first blocks hold no entry. -/
theorem processClear_zeroRam : ProcessClear userIndex zeroRam.byte firstBlocks :=
  ⟨by decide, fun _ _ _ _ => rfl, fun _ _ _ _ => rfl⟩

/-- The place the image is loaded at is one the kernel can have. -/
theorem kernelPlace_image : KernelPlace 0xc0100000 := ⟨by omega, by decide, by decide⟩

/-! ### Two processes -/

/-- The requests of `n` calls of `create_process`. -/
def requests (n : ℕ) : List ℕ := (List.replicate n processSizes).flatten

/-- The requests of one more process come first. -/
theorem requests_succ (n : ℕ) : requests (n + 1) = processSizes ++ requests n := by
  rw [requests, List.replicate_succ, List.flatten_cons, requests]

/-- Every request of a run of `create_process` is far below the heap's bound. -/
theorem requests_small (n : ℕ) : ∀ x ∈ requests n, x + 1 < 2 ^ 31 := by
  intro x hx
  obtain ⟨l, hl, hx⟩ := List.mem_flatten.mp hx
  rw [List.eq_of_mem_replicate hl] at hx
  exact processSizes_small x hx

/-- The kernel has booted in cleared memory. -/
theorem booted_zeroRam : Booted (bootKernel bootRam) :=
  @booted_bootKernel zeroRam _ rfl initKernelHeap_zeroRam

/-- The boot heap is one unused block. -/
theorem heapInv_bootRam : HeapInv ⟨bootRam, []⟩ [⟨29, false⟩] := by
  have hinv := @initKernelHeap_inv zeroRam _ rfl initKernelHeap_zeroRam
  exact hinv

/-- The unused block of the boot heap is clean. -/
theorem clean_bootRam : Clean [⟨29, false⟩] bootRam.byte := fun _ hx =>
  initKernelHeap_byte initKernelHeap_zeroRam (heapInv_bootRam.freeByte_bounds hx).1

/-- The blocks of two processes. -/
theorem allocateAll_requests_two : ∃ blocks, allocateAll bootRam (requests 2) = some blocks ∧
    0 ∉ blocks := by
  refine ⟨_, rfl, ?_⟩
  decide +kernel

/-- **Two processes** are created on memory of zeros, in fresh blocks. -/
theorem createProcess_two : ∃ s,
    Meets (pagingStep 0xc0100000) FreshBlocks (initPaging 0xc0100000 (bootKernel bootRam))
      ([0, 0].map .createProcess) ∧
    Run.exec (pagingStep 0xc0100000) (initPaging 0xc0100000 (bootKernel bootRam))
      ([0, 0].map .createProcess) = some s ∧ s.processes.length = 2 := by
  have hindex : ∀ i, userIndex i → i < 1024 := fun i hi => Nat.lt_trans hi (by simp)
  have hinv : HeapInv ⟨bootRam, (bootKernel bootRam).live⟩ [⟨29, false⟩] := heapInv_bootRam
  obtain ⟨-, -, hsame⟩ := @initPaging_spec userIndex (bootKernel bootRam) _ [] 0xc0100000
    kernelPlace_image hinv hindex (fun _ hd => absurd hd List.not_mem_nil) List.nodup_nil
    (fun _ hd => absurd hd List.not_mem_nil)
  have hstart := SpacesInv.start (s := bootKernel bootRam) kernelPlace_image hinv hindex rfl rfl
  have hclean : Clean [⟨29, false⟩] (initPaging 0xc0100000 (bootKernel bootRam)).ram.byte :=
    fun x hx => (hsame x (hinv.freeByte_bounds hx).1.le).trans (clean_bootRam x hx)
  have hframes : (frames 0 (kernelBase / 4096)).length = kernelBase / 4096 := by
    rw [frames, List.length_map, List.length_range']
  have hmany : 4 ≤ kernelBase / 4096 := by decide
  obtain ⟨blocks, hblocks, hgranted⟩ := allocateAll_requests_two
  have hheap : HeapInv ⟨bootRam, (initPaging 0xc0100000 (bootKernel bootRam)).live⟩ [⟨29, false⟩] :=
    hinv
  rw [hheap.allocateAll_eq hstart.space.heap (requests_small 2), requests_succ] at hblocks
  obtain ⟨s₁, bs₁, tables₁, free₁, rest, hstep₁, hfresh₁, h₁, hclean₁, hlen₁, ⟨x, hx⟩, hrest,
    hgranted₁⟩ := hstart.createProcess_clean kernelPlace_image hclean (by omega) (requests_small 1)
      hblocks hgranted 0
  rw [requests_succ] at hrest
  obtain ⟨s₂, -, -, -, -, hstep₂, hfresh₂, -, -, -, ⟨y, hy⟩, -⟩ :=
    h₁.createProcess_clean kernelPlace_image hclean₁ (by omega) (requests_small 0) hrest
      hgranted₁ 0
  refine ⟨s₂, ⟨hfresh₁, fun u hu => ⟨?_, fun _ _ => trivial⟩⟩, ?_, ?_⟩
  · obtain rfl := Option.some.inj (hstep₁.symm.trans hu)
    exact hfresh₂
  · have hfirst : pagingStep 0xc0100000 _ (.createProcess 0) = some s₁ := hstep₁
    have hsecond : pagingStep 0xc0100000 s₁ (.createProcess 0) = some s₂ := hstep₂
    exact (exec_cons hfirst _).trans ((exec_cons hsecond _).trans (exec_nil s₂))
  · rw [hy, hx]
    rfl

/-! ### The kernel half -/

/-- **Every address space has the same kernel half**: in every run, a process translates every
address from `KERNEL_BASE` on as `kernel_memory` does, to the memory of the kernel, without access
for users. -/
theorem kernelHalf_shared {ops : List PagingOp} (hplace : KernelPlace kernelMemory)
    (hboot : Booted s)
    (hops : Meets (pagingStep kernelMemory) FreshBlocks (initPaging kernelMemory s) ops)
    (hexec : Run.exec (pagingStep kernelMemory) (initPaging kernelMemory s) ops = some s') :
    ∀ x ∈ s'.processes, s'.read32 (x.1 + pageDirectoryOffset) = x.2 ∧
      ∀ addr, kernelBase ≤ addr → addr < 2 ^ 32 →
        translate s'.ram.byte (sub32 x.2 kernelBase) addr
            = translate s'.ram.byte (sub32 kernelMemory kernelBase) addr ∧
          translate s'.ram.byte (sub32 x.2 kernelBase) addr
            = some ⟨addr - kernelBase, true, false⟩ := by
  obtain ⟨bs, tables, free, h⟩ := SpacesInv.exec hplace hboot hops hexec
  intro x hx
  refine ⟨h.directory x hx, fun addr hlow hhigh => ?_⟩
  have hmem : x.2 ∈ s'.directories := List.mem_map.mpr ⟨x, hx, rfl⟩
  have hprocess := translate_kernel (h.space.mapped.dir_page hmem) (h.half x.2 hmem) hlow hhigh
  have hkernel := translate_kernel hplace.isPage h.kernel.kernel hlow hhigh
  exact ⟨hprocess.trans hkernel.symm, hprocess⟩

/-- Two processes, on memory of zeros. -/
theorem kernelHalf_shared_two :
    ∃ s', Run.exec (pagingStep 0xc0100000) (initPaging 0xc0100000 (bootKernel bootRam))
        ([0, 0].map .createProcess) = some s' ∧ s'.processes.length = 2 ∧
      ∀ x ∈ s'.processes, s'.read32 (x.1 + pageDirectoryOffset) = x.2 ∧
        ∀ addr, kernelBase ≤ addr → addr < 2 ^ 32 →
          translate s'.ram.byte (sub32 x.2 kernelBase) addr
              = translate s'.ram.byte (sub32 0xc0100000 kernelBase) addr ∧
            translate s'.ram.byte (sub32 x.2 kernelBase) addr
              = some ⟨addr - kernelBase, true, false⟩ := by
  obtain ⟨s', hops, hexec, hlen⟩ := createProcess_two
  exact ⟨s', hexec, hlen, kernelHalf_shared kernelPlace_image booted_zeroRam hops hexec⟩

end LoofOS
