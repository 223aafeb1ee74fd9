import LoofOS.Spaces

/-!
# Address Spaces of Processes

`SpacesInv` is the invariant of the kernel while it creates processes and allocates pages for them:
the page directories of the processes are in order, their kernel halves are that of `kernel_memory`,
and the descriptors are linked to one another and name their directories. `init_paging` sets it up
(`SpacesInv.start`), `allocate_page` keeps it, and `create_process` adds a process with two pages.

## Main results

* `SpacesInv.of_extends`: what the page allocator does keeps the invariant.
* `SpacesInv.createProcess`: what `create_process` does to memory.
-/

namespace LoofOS

open LinkedChain

/-! ### The invariant -/

/-- The page directories of the processes. -/
def Kernel.directories (s : Kernel) : List ℕ := s.processes.map Prod.snd

/-- The descriptors of the processes. -/
def Kernel.descriptors (s : Kernel) : List ℕ := s.processes.map Prod.fst

/-- The kernel and the address spaces of its processes. -/
structure SpacesInv (U : ℕ → Prop) (kernelMemory : ℕ) (s : Kernel) (bs : List Block)
    (tables free : List ℕ) : Prop where
  space : SpaceInv U s bs s.directories tables free
  kernel : KernelMapped kernelMemory s.ram.byte
  half : ∀ d ∈ s.directories, ∀ i < 256, Mem.entry s.ram.byte d (i + 768) = pde4mib 1 i
  descriptor : ∀ x ∈ s.processes, (x.1, processDescSize) ∈ s.live
  directory : ∀ x ∈ s.processes, s.read32 (x.1 + pageDirectoryOffset) = x.2
  queue : Queue s s.descriptors

variable {U : ℕ → Prop} {s s' s'' : Kernel} {bs bs' : List Block}
  {dirs tables tables' free free' : List ℕ} {r r' : Ram} {kernelMemory eip p d n q : ℕ}

/-- The queue is read from the links, and from nothing else. -/
theorem Queue.congr {descriptors : List ℕ} (h : Queue s descriptors)
    (hcurrent : s'.currentProcess = s.currentProcess)
    (heq : ∀ q ∈ descriptors, s'.read32 (q + prevOffset) = s.read32 (q + prevOffset)) :
    Queue s' descriptors :=
  ⟨h.apart, h.lt, fun q hq => (heq q hq).symm ▸ h.prev q hq, hcurrent.symm ▸ h.current⟩

/-- A block of another size is neither a directory nor a table. -/
theorem SpaceInv.not_page (h : SpaceInv U s bs dirs tables free) (hq : (q, n) ∈ s.live)
    (hn : n ≠ 4096) : q ∉ dirs ++ tables := fun hmem =>
  hn (h.heap.live_unique hq (h.live q hmem))

/-- The page allocator does not write to other blocks. -/
theorem Extends.read32 (h : Extends U dirs tables tables' s s' bs bs') (hq : (q, n) ∈ s.live)
    (hnot : q ∉ dirs ++ tables) {k : ℕ} (hk : k + 4 ≤ n) :
    s'.read32 (q + k) = s.read32 (q + k) :=
  Mem.read32_congr fun x _ _ => h.block q n hq (fun hd => hnot (List.mem_append_left _ hd))
    (fun ht => hnot (List.mem_append_right _ ht)) x (by omega) (by omega)

namespace SpacesInv

/-- **`init_paging`** sets up the invariant. -/
theorem start (hplace : KernelPlace kernelMemory) (hheap : HeapInv ⟨s.ram, s.live⟩ bs)
    (hindex : ∀ i, U i → i < 1024) (hnone : s.processes = []) (hcurrent : s.currentProcess = 0) :
    SpacesInv U kernelMemory (initPaging kernelMemory s) bs [] (frames 0 (kernelBase / 4096)) := by
  have hdirs : (initPaging kernelMemory s).directories = [] := congrArg (List.map Prod.snd) hnone
  have hdesc : (initPaging kernelMemory s).descriptors = [] := congrArg (List.map Prod.fst) hnone
  have hprocesses : (initPaging kernelMemory s).processes = [] := hnone
  obtain ⟨hspace, hmapped, -⟩ := @initPaging_spec U s bs [] kernelMemory hplace hheap hindex
    (fun _ hd => absurd hd List.not_mem_nil) List.nodup_nil (fun _ hd => absurd hd List.not_mem_nil)
  refine ⟨hdirs ▸ hspace, hmapped, fun d hd => ?_, fun x hx => ?_, fun x hx => ?_, ?_⟩
  · rw [hdirs] at hd
    exact absurd hd List.not_mem_nil
  · rw [hprocesses] at hx
    exact absurd hx List.not_mem_nil
  · rw [hprocesses] at hx
    exact absurd hx List.not_mem_nil
  · rw [hdesc]
    exact ⟨fun _ hq => absurd hq List.not_mem_nil, fun _ hq => absurd hq List.not_mem_nil,
      fun _ hq => absurd hq List.not_mem_nil, Or.inl ⟨hcurrent, rfl⟩⟩

/-- A descriptor is a live block that is neither a directory nor a table. -/
theorem descriptor_not_page (h : SpacesInv U kernelMemory s bs tables free)
    (hq : q ∈ s.descriptors) : (q, processDescSize) ∈ s.live ∧ q ∉ s.directories ++ tables := by
  obtain ⟨x, hx, rfl⟩ := List.mem_map.mp hq
  have hlive := h.descriptor x hx
  exact ⟨hlive, h.space.not_page hlive (by decide)⟩

/-- **The page allocator keeps the invariant.** -/
theorem of_extends (h : SpacesInv U kernelMemory s bs tables free)
    (hplace : KernelPlace kernelMemory)
    (hU : ∀ i, U i → i < 768) (hspace : SpaceInv U s' bs' s.directories tables' free')
    (hext : Extends U s.directories tables tables' s s' bs bs') :
    SpacesInv U kernelMemory s' bs' tables' free' := by
  have hdirs : s'.directories = s.directories := congrArg (List.map Prod.snd) hext.processes
  have hdesc : s'.descriptors = s.descriptors := congrArg (List.map Prod.fst) hext.processes
  refine ⟨hdirs.symm ▸ hspace, h.kernel.congr hplace fun x _ hx => hext.image x hx,
    fun d hd i hi => ?_, fun x hx => ?_, fun x hx => ?_, ?_⟩
  · rw [hdirs] at hd
    have hnot : ¬ U (i + 768) := fun hi => absurd (hU _ hi) (by omega)
    exact (hext.dir d hd _ (by omega) hnot).trans (h.half d hd i hi)
  · rw [hext.processes] at hx
    exact hext.live _ (h.descriptor x hx)
  · rw [hext.processes] at hx
    obtain ⟨hlive, hnot⟩ := h.descriptor_not_page (List.mem_map.mpr ⟨x, hx, rfl⟩)
    exact (hext.read32 hlive hnot (by decide)).trans (h.directory x hx)
  · rw [hdesc]
    refine h.queue.congr hext.currentProcess fun q hq => ?_
    obtain ⟨hlive, hnot⟩ := h.descriptor_not_page hq
    exact hext.read32 hlive hnot (by decide)

end SpacesInv

/-! ### The last part of `create_process` -/

/-- The state of the page allocator is in memory and in `page_freelist`. -/
theorem SpaceInv.of_same (h : SpaceInv U s bs dirs tables free) (hram : s'.ram = s.ram)
    (hlive : s'.live = s.live) (hlist : s'.pageFreelist = s.pageFreelist) :
    SpaceInv U s' bs dirs tables free := by
  have hread : s'.read32 = s.read32 := congrArg (fun r : Ram => r.byte.read32) hram
  refine ⟨?_, ?_, hlive.symm ▸ h.live, ?_, h.frame, ?_⟩
  · rw [hram, hlive]
    exact h.heap
  · rw [hram]
    exact h.mapped
  · rw [hread, hlist]
    exact h.chain
  · rw [hram]
    exact h.apart

/-- A descriptor is in the kernel half. -/
theorem SpaceInv.desc_bounds (h : SpaceInv U s bs dirs tables free)
    (hq : (q, processDescSize) ∈ s.live) : kernelBase ≤ q ∧ q < 2 ^ 32 ∧ q ≠ 0 := by
  obtain ⟨hstart, hend⟩ := h.heap.live_bounds hq
  have hlast := kernelHeap_last
  have habove := kernelBase_le_heap
  exact ⟨habove.trans hstart.le, by omega, by omega⟩

/-- **A descriptor becomes ready**: the state of `p` and the links of descriptors are written. -/
theorem SpaceInv.ready {descriptors : List ℕ} (h : SpaceInv U s bs dirs tables free)
    (hqueue : Queue s descriptors) (hlive : ∀ q ∈ p :: descriptors, (q, processDescSize) ∈ s.live)
    (hp : p ∉ descriptors)
    (heq : queueProcess { s with ram := s.ram.store (p + stateOffset) 0 } p = s') :
    SpaceInv U s' bs dirs tables free ∧ Queue s' (p :: descriptors) ∧
      s' = { s with ram := s'.ram, currentProcess := s'.currentProcess } ∧
      (∀ q ∈ dirs ++ tables, ∀ i < 1024, Mem.entry s'.ram.byte q i = Mem.entry s.ram.byte q i) ∧
      ∀ x, (∀ q ∈ p :: descriptors, x < q + prevOffset ∨ q + processDescSize ≤ x) →
        s'.ram.byte x = s.ram.byte x := by
  have hdescSize : processDescSize = 85 := rfl
  have hprevOffset : prevOffset = 76 := rfl
  have hstateOffset : stateOffset = 84 := rfl
  have hpmem : p ∈ p :: descriptors := List.mem_cons_self
  have happart : ∀ q ∈ descriptors, p + 85 ≤ q ∨ q + 85 ≤ p := fun q hq =>
    h.heap.live_apart (hlive p hpmem) (hlive q (List.mem_cons_of_mem _ hq))
      fun he => hp (he ▸ hq)
  have hqueue' : Queue { s with ram := s.ram.store (p + stateOffset) 0 } descriptors := by
    refine hqueue.congr rfl fun q hq => Mem.read32_congr fun x hx hx' => Mem.store_of_ne 0 ?_
    have := happart q hq
    omega
  obtain ⟨hqueued, honly, houtside⟩ := queueProcess_spec hqueue'
    (h.desc_bounds (hlive p hpmem)).2.1
    (fun hz => (h.desc_bounds (hlive 0 (List.mem_cons_of_mem _ hz))).2.2 rfl) hp happart
  rw [heq] at hqueued honly houtside
  have hbytes : ∀ x, (∀ q ∈ p :: descriptors, x < q + prevOffset ∨ q + processDescSize ≤ x) →
      s'.ram.byte x = s.ram.byte x := by
    intro x hx
    have hxp := hx p hpmem
    refine (houtside x fun q hq => ?_).trans (Mem.store_of_ne 0 (by omega))
    have hxq := hx q hq
    omega
  obtain ⟨hspace, hentry, -⟩ := h.harmless (r := s'.ram) fun x hx => by
    refine hbytes x fun q hq => ?_
    by_contra hin
    have hq := hlive q hq
    exact hx (Or.inl ⟨q, processDescSize, hq, h.not_page hq (by omega), by omega, by omega⟩)
  refine ⟨hspace.of_same rfl ?_ ?_, hqueued, honly, hentry, hbytes⟩
  · rw [honly]
  · rw [honly]

/-- **The last part of `create_process`**: the program is written to the frame `b` of the first
page, and the state and the links of descriptors are written. -/
theorem finishProcess_spec {b : ℕ} {descriptors : List ℕ} (h : SpaceInv U s bs dirs tables free)
    (hd : d ∈ dirs) (hindex : U 0) (hpage : pageOf s.ram.byte d 0 = some (b + pageOffset))
    (hb : IsPage b) (hlt : b < kernelBase) (hfree : b ∉ free) (hqueue : Queue s descriptors)
    (hlive : ∀ q ∈ p :: descriptors, (q, processDescSize) ∈ s.live) (hp : p ∉ descriptors) :
    ∃ s', finishProcess kernelMemory p d s = some s' ∧ SpaceInv U s' bs dirs tables free ∧
      Queue s' (p :: descriptors) ∧ s'.processes = (p, d) :: s.processes ∧ s'.live = s.live ∧
      s'.cr3 = sub32 kernelMemory kernelBase :: sub32 d kernelBase :: s.cr3 ∧
      (∀ q ∈ dirs ++ tables, ∀ i < 1024, Mem.entry s'.ram.byte q i = Mem.entry s.ram.byte q i) ∧
      ∀ x, kernelBase ≤ x →
        (∀ q ∈ p :: descriptors, x < q + prevOffset ∨ q + processDescSize ≤ x) →
        s'.ram.byte x = s.ram.byte x := by
  have hbdvd := hb.dvd
  have hbelow : b + 4096 ≤ kernelBase := by
    rw [kernelBase_eq] at hlt ⊢
    omega
  have hfirst : FirstPage U (s.enablePaging (sub32 d kernelBase)) bs dirs tables free d b :=
    ⟨h.enablePaging _, hd, hindex, List.headD_cons, hpage, hb, hlt, hfree⟩
  obtain ⟨s₁, hprogram, halters⟩ := hfirst.writeProgram
  obtain ⟨hspace₁, hentry₁⟩ := hfirst.harmless halters
  have honly := halters.only
  set s₂ := s₁.enablePaging (sub32 kernelMemory kernelBase) with hs₂
  have hlive₂ : s₂.live = s.live := by
    rw [hs₂, honly]
    rfl
  have hqueue₂ : Queue s₂ descriptors := by
    refine hqueue.congr ?_ fun q hq => Mem.read32_congr fun x hx _ =>
      halters.outside x (Or.inr ?_)
    · rw [hs₂, honly]
      rfl
    · have hq := (h.desc_bounds (hlive q (List.mem_cons_of_mem _ hq))).1
      omega
  set s₃ := queueProcess { s₂ with ram := s₂.ram.store (p + stateOffset) 0 } p with hs₃
  obtain ⟨hspace₃, hqueue₃, honly₃, hentry₃, hbytes₃⟩ :=
    (hspace₁.enablePaging (sub32 kernelMemory kernelBase)).ready hqueue₂
      (fun q hq => hlive₂.symm ▸ hlive q hq) hp hs₃.symm
  refine ⟨{ s₃ with processes := (p, d) :: s₃.processes }, ?_, hspace₃.of_same rfl rfl rfl,
    hqueue₃.congr rfl fun _ _ => rfl, ?_, ?_, ?_,
    fun q hq i hi => (hentry₃ q hq i hi).trans (hentry₁ q hq i hi),
    fun x hx hxq => (hbytes₃ x hxq).trans (halters.outside x (Or.inr (hbelow.trans hx)))⟩
  · rw [finishProcess]
    simp only [hprogram, Option.bind_eq_bind, Option.bind_some, Option.pure_def]
    rfl
  · change (p, d) :: s₃.processes = _
    rw [honly₃, honly]
    rfl
  · change s₃.live = _
    rw [honly₃]
    exact hlive₂
  · change s₃.cr3 = _
    rw [honly₃, honly]
    rfl

/-- Without a first page there is a page fault. -/
theorem finishProcess_eq_none (h : SpaceInv U s bs dirs tables free) (hd : d ∈ dirs)
    (hindex : U 0) (hpage : pageOf s.ram.byte d 0 = none) :
    finishProcess kernelMemory p d s = none := by
  have htranslate : translate s.ram.byte (sub32 d kernelBase) 0 = none := by
    rw [h.mapped.translate_eq hd (show U (0 / 2 ^ 22) from hindex)]
    exact congrArg _ hpage
  have hprogram : writeProgram (s.enablePaging (sub32 d kernelBase)) = none := by
    refine writeProgram_eq_none ?_
    rw [Kernel.enablePaging, List.headD_cons]
    exact htranslate
  rw [finishProcess, hprogram]
  rfl

/-! ### The two pages -/

/-- **A new directory** in which no entry is present. -/
theorem SpaceInv.addDirectory (h : SpaceInv U s bs dirs tables free) (hd : (d, 4096) ∈ s.live)
    (hnot : d ∉ dirs ++ tables)
    (hclear : ∀ i, U i → entryPresent (Mem.entry s.ram.byte d i) = false) :
    SpaceInv U s bs (d :: dirs) tables free ∧
      ∀ n, U (n / 1024) → pageOf s.ram.byte d n = none := by
  have hlt := (h.heap.live_bounds hd).2
  have hlast := kernelHeap_last
  have hpage : IsPage d := ⟨h.heap.page_aligned hd (by simp), by omega⟩
  obtain ⟨hmapped, hnone⟩ := h.mapped.addDirectory hpage hnot hclear
  refine ⟨⟨h.heap, hmapped, fun q hq => ?_, h.chain, h.frame, h.apart.congr fun x f => ?_⟩, hnone⟩
  · rcases List.mem_cons.mp hq with rfl | hq
    · exact hd
    · exact h.live q hq
  · constructor
    · rintro ⟨hx, hn, hf⟩
      refine ⟨(List.mem_cons.mp hx).resolve_left fun he => ?_, hn, hf⟩
      rw [he, hnone x.2 hn] at hf
      cases hf
    · exact fun ⟨hx, hn, hf⟩ => ⟨List.mem_cons_of_mem _ hx, hn, hf⟩

/-- A page for which a table has to be made, with the memory `r` that the calls of `kernel_allocate`
alone would have led to, and the bytes `m` of its free blocks. -/
theorem SpaceInv.allocatePage_plain {addr a t : ℕ} {m : Mem}
    (h : SpaceInv U s bs dirs tables (a :: free)) (hplain : HeapInv ⟨r, s.live⟩ bs)
    (hbytes : ∀ x, FreeByte bs x → s.ram.byte x = m x) (hd : d ∈ dirs) (haddr : addr < kernelBase)
    (hi : U (addr / 2 ^ 22))
    (hnot : entryPresent (Mem.entry s.ram.byte d (addr / 2 ^ 22)) = false)
    (hcall : kernelAllocate r 4096 = some (t, r')) (ht : t ≠ 0)
    (hclear : ∀ j < 1024, entryPresent (Mem.entry m t j) = false) :
    ∃ s' bs', LoofOS.allocatePage s d addr = some s' ∧ HeapInv ⟨r', s'.live⟩ bs' ∧
      SpaceInv U s' bs' dirs (t :: tables) free ∧
      Extends U dirs tables (t :: tables) s s' bs bs' ∧
      MapsAnew U dirs s s' d (addr / 2 ^ 12) (a + pageOffset) ∧
      ∀ d' ∈ dirs, ∀ k < 1024, ¬ (d' = d ∧ k = addr / 2 ^ 22) →
        Mem.entry s'.ram.byte d' k = Mem.entry s.ram.byte d' k := by
  obtain ⟨t', r₁, r₁', hactual, hcall', hgrant⟩ :=
    h.heap.allocate_same hplain (n := 4096) (by simp)
  rw [hcall] at hcall'
  obtain ⟨rfl, rfl⟩ := Prod.mk.inj (Option.some.inj hcall')
  obtain ⟨hzero, -⟩ | ⟨-, bs', hgrant, hgrant'⟩ := hgrant
  · exact absurd hzero ht
  · have hclear' : ∀ j < 1024, entryPresent (Mem.entry s.ram.byte t j) = false := by
      intro j hj
      rw [← hclear j hj, Mem.entry_congr hj fun x hx hx' => hbytes x (hgrant.payload x hx hx').1]
    obtain ⟨s', hstep, hlive, h', hext, hanew, hdir⟩ :=
      h.allocatePage_new hd haddr hi hnot hactual ht hgrant hclear'
    exact ⟨s', bs', hstep, hlive.symm ▸ hgrant'.heap, h', hext, hanew, hdir⟩

/-- Without free frames `allocate_page` returns at once. -/
theorem SpaceInv.allocatePage_nil (h : SpaceInv U s bs dirs tables []) (addr : ℕ) :
    LoofOS.allocatePage s d addr = some s :=
  if_pos (Or.inl (show s.pageFreelist = kernelBase from h.chain).ge)

/-! ### `create_process` -/

/-- What a call of `create_process` leaves that made the directory `d` and took the frames `a` and
`b`. -/
structure Created (U : ℕ → Prop) (kernelMemory : ℕ) (s s' : Kernel) (p d a b : ℕ) : Prop where
  processes : s'.processes = (p, d) :: s.processes
  cr3 : s'.cr3 = sub32 kernelMemory kernelBase :: sub32 d kernelBase :: s.cr3
  live : ∀ x ∈ s.live, x ∈ s'.live
  stack : pageOf s'.ram.byte d (kernelBase / 4096 - 1) = some (a + pageOffset)
  first : pageOf s'.ram.byte d 0 = some (b + pageOffset)
  none : ∀ n, U (n / 1024) → n ≠ 0 → n ≠ kernelBase / 4096 - 1 → pageOf s'.ram.byte d n = none
  other : ∀ d' ∈ s.directories, ∀ n, U (n / 1024) → pageOf s'.ram.byte d' n = pageOf s.ram.byte d' n
  stale : ∀ i < 768, ¬ U i → Mem.entry s'.ram.byte d i = Mem.entry s.ram.byte d i

/-- What such a call, which got the blocks `blocks`, leaves of the heap: memory that was not handed
out before either and has not changed, and later calls of the allocator return what they would
return after the calls that it makes. -/
structure HandsOut (s s' : Kernel) (bs bs' : List Block) (blocks : List ℕ) : Prop where
  unused : ∀ x, FreeByte bs' x → FreeByte bs x ∧ s'.ram.byte x = s.ram.byte x
  later : ∀ sizes, (∀ n ∈ sizes, n + 1 < 2 ^ 31) →
    allocateAll s.ram (processSizes ++ sizes) = (allocateAll s'.ram sizes).map (blocks ++ ·)

/-- The calls of the allocator, one by one. -/
theorem allocateAll_processSizes {r : Ram} {blocks : List ℕ}
    (h : allocateAll r processSizes = some blocks) :
    ∃ p r₁ stack r₂ d r₃ t r₄ t' r₅, kernelAllocate r processDescSize = some (p, r₁) ∧
      kernelAllocate r₁ 4096 = some (stack, r₂) ∧ kernelAllocate r₂ 4096 = some (d, r₃) ∧
      kernelAllocate r₃ 4096 = some (t, r₄) ∧ kernelAllocate r₄ 4096 = some (t', r₅) ∧
      blocks = [p, stack, d, t, t'] := by
  simp only [processSizes, allocateAll, Option.bind_eq_some_iff, Option.map_eq_some_iff,
    Option.some.injEq] at h
  obtain ⟨⟨p, r₁⟩, h₁, -, ⟨⟨stack, r₂⟩, h₂, -, ⟨⟨d, r₃⟩, h₃, -, ⟨⟨t, r₄⟩, h₄, -,
    ⟨⟨t', r₅⟩, h₅, -, rfl, rfl⟩, rfl⟩, rfl⟩, rfl⟩, rfl⟩ := h
  exact ⟨p, r₁, stack, r₂, d, r₃, t, r₄, t', r₅, h₁, h₂, h₃, h₄, h₅, rfl⟩

/-- The allocator always returns. -/
theorem HeapInv.allocateAll {r : Ram} {live : List (ℕ × ℕ)} {bs : List Block} {sizes : List ℕ}
    (h : HeapInv ⟨r, live⟩ bs) (hsizes : ∀ n ∈ sizes, n + 1 < 2 ^ 31) :
    ∃ blocks, LoofOS.allocateAll r sizes = some blocks := by
  induction sizes generalizing r live bs with
  | nil => exact ⟨[], rfl⟩
  | cons n sizes ih =>
      have hrest : ∀ n ∈ sizes, n + 1 < 2 ^ 31 := fun m hm => hsizes m (List.mem_cons_of_mem _ hm)
      obtain ⟨p, r₁, _, hcall, -, hgrant⟩ := h.allocate_same h (hsizes n List.mem_cons_self)
      have hnext : ∃ live' bs', HeapInv ⟨r₁, live'⟩ bs' := by
        obtain ⟨-, rfl, -⟩ | ⟨-, bs', hgrant, -⟩ := hgrant
        · exact ⟨live, bs, h⟩
        · exact ⟨_, bs', hgrant.heap⟩
      obtain ⟨live', bs', h'⟩ := hnext
      obtain ⟨blocks, hblocks⟩ := ih h' hrest
      refine ⟨p :: blocks, ?_⟩
      rw [LoofOS.allocateAll, hcall, Option.bind_some, hblocks, Option.map_some]

/-- The result depends on the headers only. -/
theorem HeapInv.allocateAll_eq {r r' : Ram} {live : List (ℕ × ℕ)} {bs : List Block} {sizes : List ℕ}
    (h : HeapInv ⟨r, live⟩ bs) (h' : HeapInv ⟨r', live⟩ bs) (hsizes : ∀ n ∈ sizes, n + 1 < 2 ^ 31) :
    LoofOS.allocateAll r sizes = LoofOS.allocateAll r' sizes := by
  induction sizes generalizing r r' live bs with
  | nil => rfl
  | cons n sizes ih =>
      have hrest : ∀ n ∈ sizes, n + 1 < 2 ^ 31 := fun m hm => hsizes m (List.mem_cons_of_mem _ hm)
      obtain ⟨p, r₁, r₁', hcall, hcall', hgrant⟩ := h.allocate_same h' (hsizes n List.mem_cons_self)
      have hnext : LoofOS.allocateAll r₁ sizes = LoofOS.allocateAll r₁' sizes := by
        obtain ⟨-, rfl, rfl⟩ | ⟨-, bs', hgrant, hgrant'⟩ := hgrant
        · exact ih h h' hrest
        · exact ih hgrant.heap hgrant'.heap hrest
      rw [LoofOS.allocateAll, LoofOS.allocateAll, hcall, hcall', Option.bind_some, Option.bind_some,
        hnext]

/-- A state in which `create_process` allocates pages: the directory `d` of the new descriptor `p`
maps the pages of `f`, and the calls of `kernel_allocate` alone would have led to the memory `r`. -/
structure Filling (U : ℕ → Prop) (s : Kernel) (bs : List Block) (tables : List ℕ) (s' : Kernel)
    (bs' : List Block) (tables' free : List ℕ) (r : Ram) (p d : ℕ) (f : ℕ → Option ℕ) : Prop where
  space : SpaceInv U s' bs' (d :: s.directories) tables' free
  ext : Extends U s.directories tables tables' s s' bs bs'
  plain : HeapInv ⟨r, s'.live⟩ bs'
  live : (p, processDescSize) ∈ s'.live
  desc : p ∉ s.descriptors
  fresh : d ∉ s.directories ∧ ∀ n, (d, n) ∉ s.live
  field : s'.read32 (p + pageDirectoryOffset) = d
  half : ∀ i < 256, Mem.entry s'.ram.byte d (i + 768) = pde4mib 1 i
  stale : ∀ i < 768, ¬ U i → Mem.entry s'.ram.byte d i = Mem.entry s.ram.byte d i
  same : SameMaps U s.directories s s'
  pages : ∀ n, U (n / 1024) → pageOf s'.ram.byte d n = f n
  absent : ∀ i, U i → (∀ n, n / 1024 = i → f n = none) →
    entryPresent (Mem.entry s'.ram.byte d i) = false

/-- **The first part of `create_process`** makes a directory without pages. -/
theorem SpacesInv.begin {stack : ℕ} {r₁ r₂ r₃ : Ram}
    (h : SpacesInv U kernelMemory s bs tables free) (hplace : KernelPlace kernelMemory)
    (hU : ∀ i, U i → i < 768)
    (hp : kernelAllocate s.ram processDescSize = some (p, r₁)) (hp₀ : p ≠ 0)
    (hstack : kernelAllocate r₁ 4096 = some (stack, r₂)) (hstack₀ : stack ≠ 0)
    (hd : kernelAllocate r₂ 4096 = some (d, r₃)) (hd₀ : d ≠ 0)
    (hclear : ∀ i, U i → entryPresent (Mem.entry s.ram.byte d i) = false) :
    ∃ s' bs', beginProcess kernelMemory s eip = some (p, d, s') ∧
      Filling U s bs tables s' bs' tables free r₃ p d fun _ => none := by
  obtain ⟨s', bs', hbegin, hstage, hlive, hdnot, hlow, hhigh, hfield⟩ :=
    @beginProcess_spec U s bs s.directories tables free kernelMemory eip p d stack r₁ r₂ r₃ hplace
      h.kernel h.space hp hp₀ hstack hstack₀ hd hd₀
  have hdlive : (d, 4096) ∈ s'.live := hlive.symm ▸ List.mem_cons_self
  have hplive : (p, processDescSize) ∈ s'.live := by
    rw [hlive]
    exact List.mem_cons_of_mem _ (List.mem_cons_of_mem _ List.mem_cons_self)
  have hclear' : ∀ i, U i → entryPresent (Mem.entry s'.ram.byte d i) = false := by
    intro i hi
    rw [hlow i (hU i hi)]
    exact hclear i hi
  -- nobody had the new blocks before
  have honce :
      (((d, 4096) :: (stack, 4096) :: (p, processDescSize) :: s.live).map Prod.fst).Nodup :=
    hlive ▸ hstage.space.heap.once
  simp only [List.map_cons, List.nodup_cons, List.mem_cons, not_or] at honce
  have hdnew : ∀ m, (d, m) ∉ s.live := fun m hm =>
    honce.1.2.2 (List.mem_map.mpr ⟨_, hm, rfl⟩)
  have hpnew : ∀ m, (p, m) ∉ s.live := fun m hm =>
    honce.2.2.1 (List.mem_map.mpr ⟨_, hm, rfl⟩)
  obtain ⟨hspace, hnone⟩ := hstage.space.addDirectory hdlive hdnot hclear'
  exact ⟨s', bs', hbegin, hspace, hstage.ext, hstage.plain, hplive,
    fun hp => hpnew _ (h.descriptor_not_page hp).1,
    ⟨fun hd => hdnot (List.mem_append_left _ hd), hdnew⟩, hfield, hhigh, fun i hi _ => hlow i hi,
    hstage.same, hnone, fun i hi _ => hclear' i hi⟩

namespace Filling

variable {a t addr : ℕ} {tables₀ free₀ : List ℕ} {f : ℕ → Option ℕ}

/-- The directory of a created process is among the directories. -/
theorem mem_directories : d ∈ d :: s.directories := List.mem_cons_self

/-- **A page** in a table that has to be made. -/
theorem page (h : Filling U s bs tables s' bs' tables' (a :: free) r p d f)
    (hU : ∀ i, U i → i < 768) (haddr : addr < kernelBase) (hi : U (addr / 2 ^ 22))
    (hf : ∀ n, n / 1024 = addr / 2 ^ 22 → f n = none) (hcall : kernelAllocate r 4096 = some (t, r'))
    (ht : t ≠ 0) (hclear : ∀ j < 1024, entryPresent (Mem.entry s.ram.byte t j) = false) :
    ∃ s'' bs'', allocatePage s' d addr = some s'' ∧
      Filling U s bs tables s'' bs'' (t :: tables') free r' p d
        (Function.update f (addr / 2 ^ 12) (some (a + pageOffset))) := by
  obtain ⟨s'', bs'', hstep, hplain, hspace, hext, hanew, hdir⟩ :=
    h.space.allocatePage_plain h.plain (fun x hx => (h.ext.unused x hx).2) mem_directories haddr hi
      (h.absent _ hi hf) hcall ht hclear
  have hother : ∀ n, U (n / 1024) → n ≠ addr / 2 ^ 12 →
      pageOf s''.ram.byte d n = pageOf s'.ram.byte d n :=
    fun n hn hne => hanew.other d mem_directories n hn fun hand => hne hand.2
  refine ⟨s'', bs'', hstep, hspace, ?_, hplain, hext.live _ h.live, h.desc, h.fresh, ?_,
    fun i hi => ?_, fun i hi hnot => ?_, fun d' hd' n hn => ?_, fun n hn => ?_,
    fun i hi hnone => ?_⟩
  · refine h.ext.trans hext (fun _ hd => List.mem_cons_of_mem _ hd) fun q hq hnot => ?_
    obtain rfl := (List.mem_cons.mp hq).resolve_right hnot
    exact h.fresh.2
  · rw [hext.read32 h.live (h.space.not_page h.live (by decide)) (by decide)]
    exact h.field
  · have hnot : ¬ U (i + 768) := fun hi => absurd (hU _ hi) (by omega)
    exact (hext.dir d mem_directories (i + 768) (by omega) hnot).trans (h.half i hi)
  · exact (hext.dir d mem_directories i (by omega) hnot).trans (h.stale i hi hnot)
  · have hne : d' ≠ d := fun he => h.fresh.1 (he ▸ hd')
    rw [hanew.other d' (List.mem_cons_of_mem _ hd') n hn fun hand => hne hand.1]
    exact h.same d' hd' n hn
  · by_cases he : n = addr / 2 ^ 12
    · rw [he, Function.update_self]
      exact hanew.after
    · rw [Function.update_of_ne he, hother n hn he]
      exact h.pages n hn
  · have hne : i ≠ addr / 2 ^ 22 := by
      rintro rfl
      have hsome := hnone (addr / 2 ^ 12) (by omega)
      rw [Function.update_self] at hsome
      cases hsome
    rw [hdir d mem_directories i ((hU i hi).trans (by simp)) fun hand => hne hand.2]
    refine h.absent i hi fun n hn => ?_
    have hn' : n ≠ addr / 2 ^ 12 := by omega
    rw [← hnone n hn, Function.update_of_ne hn']

/-- Without free frames no page is allocated. -/
theorem page_nil (h : Filling U s bs tables s' bs' tables' [] r p d f) (addr : ℕ) :
    allocatePage s' d addr = some s' := h.space.allocatePage_nil addr

/-- **A page fault** when the first page is missing. -/
theorem fault (h : Filling U s bs tables s' bs' tables' free r p d f) (hzero : U 0)
    (hf : f 0 = none) : finishProcess kernelMemory p d s' = none :=
  finishProcess_eq_none h.space mem_directories hzero ((h.pages 0 hzero).trans hf)

/-- No process is added yet. -/
theorem descriptors_eq (hfill : Filling U s bs tables₀ s' bs' tables free r p d f) :
    s'.descriptors = s.descriptors := congrArg (List.map Prod.fst) hfill.ext.processes

/-- The descriptors of the processes, and the new one, are blocks in use. -/
theorem descriptors_live (hfill : Filling U s bs tables₀ s' bs' tables free r p d f)
    (h : SpacesInv U kernelMemory s bs tables₀ free₀) :
    ∀ q ∈ p :: s.descriptors, (q, processDescSize) ∈ s'.live := by
  intro q hq
  rcases List.mem_cons.mp hq with rfl | hq
  · exact hfill.live
  · exact hfill.ext.live _ (h.descriptor_not_page hq).1

/-- The queue has not changed. -/
theorem queue (hfill : Filling U s bs tables₀ s' bs' tables free r p d f)
    (h : SpacesInv U kernelMemory s bs tables₀ free₀) : Queue s' s.descriptors := by
  refine h.queue.congr hfill.ext.currentProcess fun q hq => ?_
  obtain ⟨hlive, hnot⟩ := h.descriptor_not_page hq
  exact hfill.ext.read32 hlive hnot (by decide)

/-- **The last part of `create_process`** makes `p` a process. -/
theorem finish {b : ℕ} (h : SpacesInv U kernelMemory s bs tables₀ free₀)
    (hfill : Filling U s bs tables₀ s' bs' tables free r p d f) (hplace : KernelPlace kernelMemory)
    (hU : ∀ i, U i → i < 768) (hzero : U 0) (hf : f 0 = some (b + pageOffset))
    (hframe : IsPage b ∧ b < kernelBase) (hfree : b ∉ free) :
    ∃ s'', finishProcess kernelMemory p d s' = some s'' ∧
      SpacesInv U kernelMemory s'' bs' tables free ∧ s''.processes = (p, d) :: s.processes ∧
      s''.cr3 = sub32 kernelMemory kernelBase :: sub32 d kernelBase :: s.cr3 ∧
      s''.live = s'.live ∧ SameMaps U (d :: s.directories) s' s'' ∧
      (∀ i < 1024, Mem.entry s''.ram.byte d i = Mem.entry s'.ram.byte d i) ∧
      ∀ x, FreeByte bs' x → s''.ram.byte x = s'.ram.byte x := by
  have hlive := hfill.descriptors_live h
  obtain ⟨s'', hfinish, hspace, hqueue', hprocesses, hlive', hcr3, hentry, hbytes⟩ :=
    @finishProcess_spec U s' bs' (d :: s.directories) tables free kernelMemory p d b s.descriptors
      hfill.space mem_directories hzero ((hfill.pages 0 hzero).trans hf) hframe.1 hframe.2 hfree
      (hfill.queue h) hlive hfill.desc
  rw [hfill.ext.processes] at hprocesses
  rw [hfill.ext.cr3] at hcr3
  have hdirs : s''.directories = d :: s.directories := congrArg (List.map Prod.snd) hprocesses
  have hdescs : s''.descriptors = p :: s.descriptors := congrArg (List.map Prod.fst) hprocesses
  -- the word at offset 72 of a descriptor is no link
  have hread : ∀ q ∈ p :: s.descriptors,
      s''.read32 (q + pageDirectoryOffset) = s'.read32 (q + pageDirectoryOffset) := by
    intro q hq
    have hoffset : pageDirectoryOffset + 4 = prevOffset := rfl
    have hsize : prevOffset ≤ processDescSize := by decide
    have hstart := (hfill.space.heap.live_bounds (hlive q hq)).1
    have habove := kernelBase_le_heap
    refine Mem.read32_congr fun x hx hx' => hbytes x
      (habove.trans <| hstart.le.trans <| (Nat.le_add_right q _).trans hx) fun q' hq' => ?_
    by_cases he : q = q'
    · omega
    · have := hfill.space.heap.live_apart (hlive q hq) (hlive q' hq') he
      omega
  refine ⟨s'', hfinish, ⟨hdirs.symm ▸ hspace, ?_, fun d' hd' i hi => ?_, fun x hx => ?_,
    fun x hx => ?_, hdescs.symm ▸ hqueue'⟩, hprocesses, hcr3, hlive',
    fun d' hd' n hn => hfill.space.mapped.pageOf_congr hentry hd' hn,
    fun i hi => hentry d (List.mem_append_left _ mem_directories) i hi, fun x hx => ?_⟩
  · refine h.kernel.congr hplace fun x hx hx' => (hbytes x hx fun q hq => Or.inl ?_).trans
      (hfill.ext.image x hx')
    have hstart := (hfill.space.heap.live_bounds (hlive q hq)).1
    omega
  · have hnot : ¬ U (i + 768) := fun hi => absurd (hU _ hi) (by omega)
    rw [hdirs] at hd'
    rw [hentry d' (List.mem_append_left _ hd') (i + 768) (by omega)]
    rcases List.mem_cons.mp hd' with rfl | hold
    · exact hfill.half i hi
    · exact (hfill.ext.dir d' hold (i + 768) (by omega) hnot).trans (h.half d' hold i hi)
  · rw [hprocesses] at hx
    rw [hlive']
    exact hlive x.1 ((List.mem_cons.mp hx).elim (fun he => he ▸ List.mem_cons_self)
      fun hx => List.mem_cons_of_mem _ (List.mem_map.mpr ⟨x, hx, rfl⟩))
  · rw [hprocesses] at hx
    rcases List.mem_cons.mp hx with rfl | hx
    · exact (hread p List.mem_cons_self).trans hfill.field
    · have hmem : x.1 ∈ s.descriptors := List.mem_map.mpr ⟨x, hx, rfl⟩
      obtain ⟨hold, hnot⟩ := h.descriptor_not_page hmem
      rw [hread x.1 (List.mem_cons_of_mem _ hmem), hfill.ext.read32 hold hnot (by decide)]
      exact h.directory x hx
  · have habove := kernelBase_le_heap.trans (hfill.space.heap.freeByte_bounds hx).1.le
    refine hbytes x habove fun q hq => ?_
    have hsize : prevOffset ≤ processDescSize := by decide
    by_contra hin
    exact hfill.space.heap.not_freeByte (hlive q hq) (by omega) (by omega) hx

/-- The page at the top is not one that the first page shares a table with. -/
theorem update_top {v : Option ℕ} {n : ℕ} (hn : n / 1024 = 0 / 2 ^ 22) :
    Function.update (fun _ => none) (kernelBase / 4096 - 1) v n = none := by
  have hne : n ≠ kernelBase / 4096 - 1 := by
    rw [kernelBase_eq]
    omega
  exact Function.update_of_ne hne _ _

/-- **What is created**, once the two pages are allocated and the last part changed no mapping. -/
theorem created {b : ℕ} (hfill : Filling U s bs tables₀ s' bs' tables free r p d
      (Function.update (Function.update (fun _ => none) (kernelBase / 4096 - 1)
        (some (a + pageOffset))) 0 (some (b + pageOffset))))
    (hzero : U 0) (htop : U 767) (hprocesses : s''.processes = (p, d) :: s.processes)
    (hcr3 : s''.cr3 = sub32 kernelMemory kernelBase :: sub32 d kernelBase :: s.cr3)
    (hlive : s''.live = s'.live) (hsame : SameMaps U (d :: s.directories) s' s'')
    (hentry : ∀ i < 1024, Mem.entry s''.ram.byte d i = Mem.entry s'.ram.byte d i) :
    Created U kernelMemory s s'' p d a b where
  processes := hprocesses
  cr3 := hcr3
  live x hx := hlive.symm ▸ hfill.ext.live x hx
  stack := by
    rw [hsame d List.mem_cons_self _ htop, hfill.pages _ htop]
    rfl
  first := by
    rw [hsame d List.mem_cons_self 0 hzero, hfill.pages 0 hzero]
    rfl
  none n hn hne hne' := by
    rw [hsame d List.mem_cons_self n hn, hfill.pages n hn, Function.update_of_ne hne,
      Function.update_of_ne hne']
  other d' hd' n hn := (hsame d' (List.mem_cons_of_mem _ hd') n hn).trans (hfill.same d' hd' n hn)
  stale i hi hnot := (hentry i (by omega)).trans (hfill.stale i hi hnot)

end Filling

/-- **`create_process`** takes two frames from the free list, or runs into a page fault when there
are no two. -/
theorem SpacesInv.createProcess {blocks : List ℕ}
    (h : SpacesInv U kernelMemory s bs tables free) (hplace : KernelPlace kernelMemory)
    (hU : ∀ i, U i → i < 768) (hzero : U 0) (htop : U 767)
    (hblocks : allocateAll s.ram processSizes = some blocks)
    (hclear : ProcessClear U s.ram.byte blocks) (eip : ℕ) :
    (free.length < 2 ∧ s.createProcess kernelMemory eip = none) ∨
      ∃ a b free' p d s' bs' tables', free = a :: b :: free' ∧ blocks[0]? = some p ∧
        blocks[2]? = some d ∧ s.createProcess kernelMemory eip = some s' ∧
        SpacesInv U kernelMemory s' bs' tables' free' ∧ Created U kernelMemory s s' p d a b ∧
        HandsOut s s' bs bs' blocks := by
  obtain ⟨p, r₁, stack, r₂, d, r₃, t, r₄, t', r₅, h₁, h₂, h₃, h₄, h₅, rfl⟩ :=
    allocateAll_processSizes hblocks
  have hgranted := hclear.granted
  simp only [List.mem_cons, List.not_mem_nil, or_false, not_or] at hgranted
  obtain ⟨hp₀, hstack₀, hd₀, ht₀, ht'₀⟩ := hgranted
  have htable : ∀ u ∈ [t, t'], ∀ j < 1024, entryPresent (Mem.entry s.ram.byte u j) = false :=
    hclear.table
  have htop' : (kernelBase - 4096) / 2 ^ 22 = 767 := rfl
  have hpage : (kernelBase - 4096) / 2 ^ 12 = kernelBase / 4096 - 1 := rfl
  obtain ⟨s₁, bs₁, hbegin, hfill₁⟩ := @SpacesInv.begin U s bs tables free kernelMemory eip p d stack
    r₁ r₂ r₃ h hplace hU h₁ (Ne.symm hp₀) h₂ (Ne.symm hstack₀) h₃ (Ne.symm hd₀)
    (hclear.directory d rfl)
  have heq : s.createProcess kernelMemory eip =
      (allocatePage s₁ d (kernelBase - 4096)).bind fun u =>
        (allocatePage u d 0).bind (finishProcess kernelMemory p d) := by
    rw [createProcess_eq, hbegin, Option.bind_some]
  cases free with
  | nil =>
      refine Or.inl ⟨Nat.zero_lt_two, ?_⟩
      rw [heq, hfill₁.page_nil, Option.bind_some, hfill₁.page_nil, Option.bind_some]
      exact hfill₁.fault hzero rfl
  | cons a free =>
  obtain ⟨s₂, bs₂, hstep₂, hfill₂⟩ := hfill₁.page hU (by omega) (htop'.symm ▸ htop)
    (fun _ _ => rfl) h₄ (Ne.symm ht₀) (htable t List.mem_cons_self)
  rw [hpage] at hfill₂
  cases free with
  | nil =>
      refine Or.inl ⟨Nat.one_lt_two, ?_⟩
      rw [heq, hstep₂, Option.bind_some, hfill₂.page_nil, Option.bind_some]
      exact hfill₂.fault hzero (Function.update_of_ne (by omega) _ _)
  | cons b free =>
  obtain ⟨s₃, bs₃, hstep₃, hfill₃⟩ := hfill₂.page hU (show 0 < kernelBase by omega) hzero
    (fun _ => Filling.update_top) h₅ (Ne.symm ht'₀)
    (htable t' (List.mem_cons_of_mem _ List.mem_cons_self))
  rw [Nat.zero_div] at hfill₃
  obtain ⟨s₄, hfinish, hinv, hprocesses, hcr3, hlive, hsame, hentry, hbytes⟩ :=
    hfill₃.finish h hplace hU hzero
    (Function.update_self _ _ _) (hfill₂.space.frame b List.mem_cons_self) fun hb =>
      (List.nodup_cons.mp hfill₂.space.apart.nodup).1 (List.mem_map.mpr ⟨b, hb, rfl⟩)
  refine Or.inr ⟨a, b, free, p, d, s₄, bs₃, t' :: t :: tables, rfl, rfl, rfl, ?_, hinv,
    hfill₃.created hzero htop hprocesses hcr3 hlive hsame hentry,
    fun x hx => ⟨(hfill₃.ext.unused x hx).1, (hbytes x hx).trans (hfill₃.ext.unused x hx).2⟩,
    fun sizes hsizes => ?_⟩
  · rw [heq, hstep₂, Option.bind_some, hstep₃, Option.bind_some, hfinish]
  · have hplain := hfill₃.plain
    rw [← hlive] at hplain
    rw [hinv.space.heap.allocateAll_eq hplain hsizes]
    simp only [processSizes, List.cons_append, List.nil_append, allocateAll, h₁, h₂, h₃, h₄, h₅,
      Option.bind_some, Option.map_map]
    rfl

end LoofOS
