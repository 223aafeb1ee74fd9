import LoofOS.KernelHalf

/-!
# Conservation of Page Frames

Every page frame of the memory behind the kernel is on the free list, or mapped by one page of one
directory. `init_paging` puts all of them on the list, and `allocate_page` moves them from there.
`free_page` is meant to move them back. It looks for the page table at `addr - KERNEL_BASE`, where
`allocate_page` has it at `addr + KERNEL_BASE`, so the word that it takes for the entry is another
one (`strayEntry`). When this word does not look present, the call changes nothing.

## Main results

* `framesConserved_of_unmapped`: frames are conserved when `free_page` is only called where it has
  nothing to do.
* `freePage_keeps_mapping`: after `allocate_page` and `free_page` a page is still mapped.
-/

namespace LoofOS

open Run LinkedChain

/-! ### Where the frames are -/

/-- A page frame of the memory behind the kernel. -/
structure IsFrame (f : ℕ) : Prop where
  dvd : 4096 ∣ f
  le : pageOffset ≤ f
  lt : f < 2 ^ 32

/-- A page of an address space below `KERNEL_BASE` that a directory maps to a frame. -/
def MapsFrame (s : Kernel) (dirs : List ℕ) (f : ℕ) (x : ℕ × ℕ) : Prop :=
  x.1 ∈ dirs ∧ x.2 < kernelBase / 4096 ∧ pageOf s.ram.byte x.1 x.2 = some f

/-- Every frame is on the free list once and not mapped, or not on the free list and mapped by
exactly one page. -/
def FramesConserved (dirs : List ℕ) (s : Kernel) : Prop :=
  ∃ free, Chain s.read32 s.pageFreelist free kernelBase ∧ ∀ f, IsFrame f →
    (free.count (f - pageOffset) = 1 ∧ ∀ x, ¬ MapsFrame s dirs f x) ∨
      (free.count (f - pageOffset) = 0 ∧ ∃! x, MapsFrame s dirs f x)

/-- A call of `free_page` for a page that is mapped unmaps this page and no other, and puts its
frame on the free list. -/
def ReturnsFrame (dirs : List ℕ) (s : Kernel) : PagingOp → Prop
  | .freePage pageDir addr => ∀ f free, pageOf s.ram.byte pageDir (addr / 4096) = some f →
      Chain s.read32 s.pageFreelist free kernelBase →
      pageOf (freePage s pageDir addr).ram.byte pageDir (addr / 4096) = none ∧
        (∀ d ∈ dirs, ∀ n < kernelBase / 4096, ¬ (d = pageDir ∧ n = addr / 4096) →
          pageOf (freePage s pageDir addr).ram.byte d n = pageOf s.ram.byte d n) ∧
        Chain (freePage s pageDir addr).read32 (freePage s pageDir addr).pageFreelist
          ((f - pageOffset) :: free) kernelBase
  | _ => True

/-- The calls for the directories `dirs` below `KERNEL_BASE`; new page tables are clear. -/
def UserCalls (dirs : List ℕ) (s : Kernel) : PagingOp → Prop
  | .createProcess _ => False
  | .allocatePage pageDir addr => pageDir ∈ dirs ∧ addr < kernelBase ∧ TableClear s pageDir addr
  | .freePage pageDir addr => pageDir ∈ dirs ∧ addr < kernelBase

/-! ### `free_page` -/

/-- The address of the word that `free_page` takes for the entry of the page table. -/
def strayEntry (s : Kernel) (pageDir addr : ℕ) : ℕ :=
  sub32 (entryAddr (s.read32 (pageDir + 4 * (addr / 2 ^ 22))) * 2 ^ 12) kernelBase
    + 4 * (addr / 2 ^ 12 % 2 ^ 10)

/-- `free_page` has nothing to do, and finds nothing to do. -/
def FreesNothing (s : Kernel) : PagingOp → Prop
  | .freePage pageDir addr => pageOf s.ram.byte pageDir (addr / 4096) = none ∧
      (entryPresent (s.read32 (pageDir + 4 * (addr / 2 ^ 22))) = true →
        entryPresent (s.read32 (strayEntry s pageDir addr)) = false)
  | _ => True

/-- `free_page` changes nothing when the word it looks at is not present. -/
theorem freePage_eq_self {s : Kernel} {pageDir addr : ℕ}
    (h : entryPresent (s.read32 (pageDir + 4 * (addr / 2 ^ 22))) = true →
      entryPresent (s.read32 (strayEntry s pageDir addr)) = false) :
    freePage s pageDir addr = s := by
  rw [freePage]
  by_cases hpresent : entryPresent (s.read32 (pageDir + 4 * (addr / 2 ^ 22))) = true
  · have hstray := h hpresent
    rw [strayEntry] at hstray
    rw [if_pos hpresent, if_neg]
    rw [hstray]
    exact Bool.false_ne_true
  · exact if_neg hpresent

/-- What `free_page` does when the word it looks at is present. -/
theorem freePage_of_present {s : Kernel} {pageDir addr : ℕ}
    (hpde : entryPresent (s.read32 (pageDir + 4 * (addr / 2 ^ 22))) = true)
    (hpte : entryPresent (s.read32 (strayEntry s pageDir addr)) = true) :
    freePage s pageDir addr =
      let freed := sub32 (entryAddr (s.read32 (strayEntry s pageDir addr)) * 2 ^ 12) pageOffset
      Kernel.write32 { s.write32 freed s.pageFreelist with pageFreelist := freed }
        (strayEntry s pageDir addr) 0 := by
  rw [freePage]
  exact (if_pos hpde).trans (if_pos hpte)

/-! ### The accounts -/

variable {kernelMemory : ℕ} {s s' : Kernel} {bs : List Block} {dirs tables free : List ℕ}

theorem userIndex_page_iff {n : ℕ} : userIndex (n / 1024) ↔ n < kernelBase / 4096 := by
  rw [kernelBase_eq, userIndex]
  omega

theorem mem_framesOf {f : ℕ} (hf : pageOffset ≤ f) (free : List ℕ) :
    (framesOf free).count f = free.count (f - pageOffset) := by
  have hsub : f = (f - pageOffset) + pageOffset := (Nat.sub_add_cancel hf).symm
  rw [framesOf]
  nth_rewrite 1 [hsub]
  exact List.count_map_of_injective free (· + pageOffset) (add_left_injective pageOffset) _

/-- **What the accounts say.** -/
theorem SpaceInv.framesConserved (h : SpaceInv userIndex s bs dirs tables free)
    (haccounts : Pool.Accounts IsFrame (framesOf free) (Maps userIndex s.ram.byte dirs)) :
    FramesConserved dirs s := by
  have hiff : ∀ f x, MapsFrame s dirs f x ↔ Maps userIndex s.ram.byte dirs x f := fun f x => by
    rw [MapsFrame, Maps, userIndex_page_iff]
  refine ⟨free, h.chain, fun f hf => ?_⟩
  rw [← mem_framesOf hf.le free]
  simp only [hiff]
  exact h.apart.exactly_one haccounts hf

/-- After `init_paging` every frame is on the free list. -/
theorem accounts_frames {holds : ℕ × ℕ → ℕ → Prop} (hnone : ∀ x f, ¬ holds x f) :
    Pool.Accounts IsFrame (framesOf (frames 0 (kernelBase / 4096))) holds := by
  refine ⟨fun f hf => Or.inl ?_, fun f hf => ?_, fun x f hx => absurd hx (hnone x f)⟩
  · obtain ⟨⟨i, rfl⟩, hle, hlt⟩ := hf
    rw [pageOffset] at hle
    refine List.mem_map.mpr ⟨4096 * i - pageOffset, mem_frames.mpr ⟨i - 0x40000, ?_⟩, ?_⟩
    · rw [kernelBase_eq, pageOffset]
      omega
    · rw [pageOffset]
      omega
  · obtain ⟨a, ha, rfl⟩ := List.mem_map.mp hf
    obtain ⟨i, -, hi, rfl⟩ := mem_frames.mp ha
    rw [kernelBase_eq] at hi
    refine ⟨?_, Nat.le_add_left _ _, ?_⟩
    · rw [pageOffset]
      omega
    · rw [pageOffset]
      omega

/-- **One call keeps the accounts.** -/
theorem SpaceInv.accounts_step {op : PagingOp} (h : SpaceInv userIndex s bs dirs tables free)
    (haccounts : Pool.Accounts IsFrame (framesOf free) (Maps userIndex s.ram.byte dirs))
    (hop : UserCalls dirs s op) (hnothing : FreesNothing s op)
    (hstep : pagingStep kernelMemory s op = some s') :
    ∃ bs' tables' free', SpaceInv userIndex s' bs' dirs tables' free' ∧
      Pool.Accounts IsFrame (framesOf free') (Maps userIndex s'.ram.byte dirs) := by
  cases op with
  | createProcess eip => exact hop.elim
  | allocatePage pageDir addr =>
      obtain ⟨hd, haddr, hclear⟩ := hop
      obtain ⟨u, bs', tables', free', hsome, hspace, -, hcases⟩ :=
        h.allocatePage hd userIndex_of_lt hclear
      obtain rfl := Option.some.inj (hsome.symm.trans hstep)
      refine ⟨bs', tables', free', hspace, ?_⟩
      rcases hcases with ⟨rfl, hsame, -⟩ | ⟨-, a, rfl, hanew⟩
      · exact haccounts.congr hsame.maps_iff
      · have hn : addr / 2 ^ 12 / 1024 = addr / 2 ^ 22 := by omega
        exact haccounts.take (hanew.maps_iff hd (hn.symm ▸ userIndex_of_lt haddr))
  | freePage pageDir addr =>
      obtain rfl := Option.some.inj hstep
      rw [freePage_eq_self hnothing.2]
      exact ⟨bs, tables, free, h, haccounts⟩

/-- **Frames are conserved** in every run in which `free_page` is only called for pages that are not
mapped, and the word that it looks at is not present. -/
theorem framesConserved_of_unmapped {ops : List PagingOp} (hplace : KernelPlace kernelMemory)
    (hboot : Booted s) (hnodup : dirs.Nodup) (hlive : ∀ d ∈ dirs, (d, 4096) ∈ s.live)
    (hclear : ∀ d ∈ dirs, ∀ i < 768, entryPresent (Mem.entry s.ram.byte d i) = false)
    (hops : Meets (pagingStep kernelMemory) (UserCalls dirs) (initPaging kernelMemory s) ops)
    (hfree : Meets (pagingStep kernelMemory) FreesNothing (initPaging kernelMemory s) ops) :
    Meets (pagingStep kernelMemory) (ReturnsFrame dirs) (initPaging kernelMemory s) ops ∧
      ∀ s', exec (pagingStep kernelMemory) (initPaging kernelMemory s) ops = some s' →
        FramesConserved dirs s' := by
  set I : Kernel → Prop := fun s => ∃ bs tables free, SpaceInv userIndex s bs dirs tables free ∧
    Pool.Accounts IsFrame (framesOf free) (Maps userIndex s.ram.byte dirs) with hI
  have hkeep : ∀ s op s', I s → UserCalls dirs s op ∧ FreesNothing s op →
      pagingStep kernelMemory s op = some s' → I s' := by
    rintro s op s' ⟨bs, tables, free, h, haccounts⟩ hop hstep
    exact h.accounts_step haccounts hop.1 hop.2 hstep
  obtain ⟨bs, hheap⟩ := hboot.heap.inv
  obtain ⟨hspace, -, -⟩ := initPaging_spec (U := userIndex) hplace hheap
    (fun i hi => Nat.lt_trans hi (by simp)) hlive hnodup hclear
  have hstart : I (initPaging kernelMemory s) := by
    refine ⟨bs, [], _, hspace, accounts_frames ?_⟩
    rintro x f ⟨hd, hn, hf⟩
    by_cases hpresent :
        entryPresent (Mem.entry (initPaging kernelMemory s).ram.byte x.1 (x.2 / 1024)) = true
    · obtain ⟨t, ht, -⟩ := hspace.mapped.pde x.1 hd _ hn hpresent
      exact absurd ht List.not_mem_nil
    · rw [Bool.not_eq_true] at hpresent
      rw [pageOf_of_not_present hpresent] at hf
      cases hf
  refine ⟨Meets.imp_of_invariant (I := I) hkeep ?_ hstart (hops.and hfree), fun s' hexec => ?_⟩
  · rintro s op - ⟨hop, hnothing⟩
    cases op with
    | createProcess eip => exact hop.elim
    | allocatePage pageDir addr => trivial
    | freePage pageDir addr =>
        intro f free hmapped
        rw [hnothing.1] at hmapped
        cases hmapped
  · obtain ⟨bs', tables', free', h', haccounts⟩ :=
      exec_invariant_of_meets hkeep hstart (hops.and hfree) hexec
    exact h'.framesConserved haccounts

/-! ### Pages that are mapped -/

/-- A page that is mapped has an entry in a table, and the word that `free_page` takes for it lies
below `KERNEL_BASE`. -/
theorem SpaceInv.stray_lt {pageDir addr f : ℕ} (h : SpaceInv userIndex s bs dirs tables free)
    (hd : pageDir ∈ dirs) (haddr : addr < kernelBase)
    (hf : pageOf s.ram.byte pageDir (addr / 4096) = some f) :
    entryPresent (s.read32 (pageDir + 4 * (addr / 2 ^ 22))) = true ∧
      strayEntry s pageDir addr + 4 ≤ kernelBase := by
  have hdiv : addr / 4096 / 1024 = addr / 2 ^ 22 := by omega
  by_cases hpresent : entryPresent (s.read32 (pageDir + 4 * (addr / 2 ^ 22))) = true
  · refine ⟨hpresent, ?_⟩
    obtain ⟨t, ht, he⟩ := h.mapped.pde pageDir hd _ (userIndex_of_lt haddr) hpresent
    have he' : s.read32 (pageDir + 4 * (addr / 2 ^ 22)) = pageEntry t := he
    have hbounds := h.heap.live_bounds (h.live t (List.mem_append_right _ ht))
    have hstart := kernelHeap_start
    have hlast := kernelHeap_last
    have hindex := tableIndex_lt addr
    rw [strayEntry, he', entryAddr_pageEntry, (h.mapped.table_page ht).physical, sub32, sub32,
      kernelBase_eq]
    omega
  · rw [Bool.not_eq_true] at hpresent
    have hnone : pageOf s.ram.byte pageDir (addr / 4096) = none :=
      pageOf_of_not_present (hdiv.symm ▸ hpresent)
    rw [hnone] at hf
    cases hf

/-- Writes below `KERNEL_BASE` change no directory and no table. -/
theorem SpaceInv.pageOf_eq_of_image {m : Mem} {d n : ℕ}
    (h : SpaceInv userIndex s bs dirs tables free)
    (hd : d ∈ dirs) (hn : userIndex (n / 1024)) (hm : ∀ x, kernelBase ≤ x → m x = s.ram.byte x) :
    pageOf m d n = pageOf s.ram.byte d n := by
  have habove := kernelBase_le_heap
  refine h.mapped.pageOf_congr (fun p hp i hi => Mem.entry_congr hi fun x hx _ => hm x ?_) hd hn
  exact habove.trans ((h.heap.live_bounds (h.live p hp)).1.le.trans hx)

/-- **`free_page` never returns a frame**: it does what it is meant to do exactly when the page is
not mapped. -/
theorem SpaceInv.returnsFrame_iff {pageDir addr : ℕ}
    (h : SpaceInv userIndex s bs dirs tables free) (hd : pageDir ∈ dirs)
    (haddr : addr < kernelBase) : ReturnsFrame dirs s (.freePage pageDir addr)
      ↔ pageOf s.ram.byte pageDir (addr / 4096) = none := by
  constructor
  · intro hreturns
    cases hf : pageOf s.ram.byte pageDir (addr / 4096) with
    | none => rfl
    | some f =>
        obtain ⟨hnone, -, hchain⟩ := hreturns f free hf h.chain
        have hn : userIndex (addr / 4096 / 1024) := by
          rw [show addr / 4096 / 1024 = addr / 2 ^ 22 by omega]
          exact userIndex_of_lt haddr
        obtain ⟨hpresent, hstray⟩ := h.stray_lt hd haddr hf
        have hbounds := h.mapped.pageOf_bounds hd hn hf
        have hsame : ∀ x, kernelBase ≤ x →
            (freePage s pageDir addr).ram.byte x = s.ram.byte x := by
          intro x hx
          by_cases hpte : entryPresent (s.read32 (strayEntry s pageDir addr)) = true
          · have hhead := hchain.1
            rw [freePage_of_present hpresent hpte] at hhead ⊢
            have hfreed : sub32 (entryAddr (s.read32 (strayEntry s pageDir addr)) * 2 ^ 12)
                pageOffset = f - pageOffset := hhead
            have hlt : f - pageOffset + 4 ≤ kernelBase := by
              rw [pageOffset] at hbounds ⊢
              rw [kernelBase_eq]
              omega
            refine (Mem.write32_of_outside (Or.inr (hstray.trans hx))).trans ?_
            rw [hfreed]
            exact Mem.write32_of_outside (Or.inr (hlt.trans hx))
          · rw [Bool.not_eq_true] at hpte
            rw [freePage_eq_self fun _ => hpte]
        rw [h.pageOf_eq_of_image hd hn hsame, hf] at hnone
        cases hnone
  · intro hnone f free hf
    rw [hnone] at hf
    cases hf

/-! ### One directory -/

/-- A kernel with one directory on memory of zeros; the next page table is clear. -/
theorem booted_directory :
    ∃ s, Booted s ∧ (0xd0000000, 4096) ∈ s.live ∧
      (∀ i < 768, entryPresent (Mem.entry s.ram.byte 0xd0000000 i) = false) ∧
      ∀ addr, TableClear (initPaging 0xc0100000 s) 0xd0000000 addr := by
  have hinv := @initKernelHeap_inv zeroRam _ rfl initKernelHeap_zeroRam
  have hblocks : allocateAll bootRam [4096, 4096] = some [0xd0000000, 0xd0002000] := by
    decide +kernel
  simp only [allocateAll, Option.bind_eq_some_iff, Option.map_eq_some_iff, Option.some.injEq,
    List.cons.injEq] at hblocks
  obtain ⟨⟨d, r⟩, hd, -, ⟨⟨t, r₂⟩, ht, -, rfl, rfl⟩, rfl, htail⟩ := hblocks
  obtain rfl : t = 0xd0002000 := (List.cons.inj htail).1
  obtain ⟨d, r', _, hcall, -, hgrant⟩ := hinv.allocate_same hinv (n := 4096) (by simp)
  obtain ⟨rfl, rfl⟩ := Prod.mk.inj (Option.some.inj (hd.symm.trans hcall))
  obtain ⟨hzero, -⟩ | ⟨-, bs, hgrant, -⟩ := hgrant
  · exact absurd hzero (by simp)
  have hbytes : ∀ x, FreeByte [⟨29, false⟩] x → r.byte x = bootRam.byte x → r.byte x = 0 :=
    fun x hx he => he.trans (initKernelHeap_byte initKernelHeap_zeroRam (hinv.freeByte_bounds hx).1)
  have hpayload : ∀ x, 0xd0000000 ≤ x → x < 0xd0000000 + 4096 → r.byte x = 0 := fun x hx hx' =>
    hbytes x (hgrant.payload x hx hx').1 (hgrant.payload x hx hx').2
  have hfree : ∀ x, FreeByte bs x → r.byte x = 0 := fun x hx =>
    hbytes x (hgrant.free x hx).1 (hgrant.free x hx).2
  have hzero : ∀ (m : Mem) p, (∀ x, p ≤ x → x < p + 4096 → m x = 0) →
      ∀ i < 1024, entryPresent (Mem.entry m p i) = false := by
    intro m p hm i hi
    rw [@Mem.entry_congr zeroRam.byte m p i hi fun x hx hx' => hm x hx hx']
    rfl
  set s : Kernel := { bootKernel r with live := [(0xd0000000, 4096)] } with hs
  have hexec : exec heapStep ⟨bootRam, []⟩ [.allocate 4096] = some ⟨r, [(0xd0000000, 4096)]⟩ := by
    rw [exec, heapStep, hd]
    rfl
  refine ⟨s,
    ⟨⟨zeroRam, bootRam, [.allocate 4096], rfl, initKernelHeap_zeroRam, ?_, hexec⟩, rfl, rfl⟩,
    List.mem_cons_self, fun i hi => hzero _ _ hpayload i (by omega), ?_⟩
  · exact ⟨show 4096 + 1 < 2 ^ 32 by simp, fun _ _ => trivial⟩
  · intro addr hlist haddr hnot t r₃ hcall₃
    obtain ⟨hspace, -, hsame⟩ := @initPaging_spec userIndex s bs [] 0xc0100000 kernelPlace_image
      hgrant.heap (fun i hi => Nat.lt_trans hi (by simp)) (fun _ hd => absurd hd List.not_mem_nil)
      List.nodup_nil (fun _ hd => absurd hd List.not_mem_nil)
    obtain ⟨t', r₄, r₄', hplain, hactual, hgrant'⟩ :=
      hgrant.heap.allocate_same (show HeapInv ⟨_, [(0xd0000000, 4096)]⟩ bs from hspace.heap)
        (n := 4096) (by simp)
    obtain ⟨rfl, rfl⟩ := Prod.mk.inj (Option.some.inj (hcall₃.symm.trans hactual))
    obtain ⟨rfl, rfl⟩ := Prod.mk.inj (Option.some.inj (ht.symm.trans hplain))
    obtain ⟨hnull, -⟩ | ⟨-, bs', -, hgrant'⟩ := hgrant'
    · exact absurd hnull (by simp)
    · refine ⟨by simp, hzero _ _ fun x hx hx' => ?_⟩
      have hbyte := (hgrant'.payload x hx hx').1
      exact (hsame x (hspace.heap.freeByte_bounds hbyte).1.le).trans (hfree x hbyte)

/-- `free_page` for an address of one directory that is not mapped, and then a page for it. -/
theorem framesConserved_one_page :
    ∃ s s', Booted s ∧
      exec (pagingStep 0xc0100000) (initPaging 0xc0100000 s)
        [.freePage 0xd0000000 0, .allocatePage 0xd0000000 0] = some s' ∧
      Meets (pagingStep 0xc0100000) (ReturnsFrame [0xd0000000]) (initPaging 0xc0100000 s)
        [.freePage 0xd0000000 0, .allocatePage 0xd0000000 0] ∧
      FramesConserved [0xd0000000] s' := by
  obtain ⟨s, hboot, hlive, hclear, htable⟩ := booted_directory
  have hmem : 0xd0000000 ∈ [0xd0000000] := List.mem_cons_self
  have hlive' : ∀ d ∈ [0xd0000000], (d, 4096) ∈ s.live := fun d hd =>
    List.mem_singleton.mp hd ▸ hlive
  have hclear' : ∀ d ∈ [0xd0000000], ∀ i < 768,
      entryPresent (Mem.entry s.ram.byte d i) = false := fun d hd =>
    List.mem_singleton.mp hd ▸ hclear
  obtain ⟨bs, hheap⟩ := hboot.heap.inv
  obtain ⟨hspace, -, hsame⟩ := initPaging_spec (U := userIndex) kernelPlace_image hheap
    (fun i hi => Nat.lt_trans hi (by simp)) hlive' (List.nodup_singleton _) hclear'
  have habsent : entryPresent
      (Mem.entry (initPaging 0xc0100000 s).ram.byte 0xd0000000 (0 / 4096 / 1024)) = false := by
    rw [Mem.entry_congr (by simp) fun x hx _ => hsame x (le_trans (by decide) hx)]
    exact hclear _ (by simp)
  have hread : entryPresent ((initPaging 0xc0100000 s).read32 (0xd0000000 + 4 * (0 / 2 ^ 22)))
      = false := habsent
  have hkept : freePage (initPaging 0xc0100000 s) 0xd0000000 0 = initPaging 0xc0100000 s :=
    freePage_eq_self fun hpresent => absurd (hread.symm.trans hpresent) Bool.false_ne_true
  have hfree : pagingStep 0xc0100000 (initPaging 0xc0100000 s) (.freePage 0xd0000000 0)
      = some (initPaging 0xc0100000 s) := congrArg some hkept
  obtain ⟨s', -, -, -, hstep, -⟩ := hspace.allocatePage hmem userIndex_of_lt (htable 0)
  have halloc : pagingStep 0xc0100000 (initPaging 0xc0100000 s) (.allocatePage 0xd0000000 0)
      = some s' := hstep
  have hexec := (exec_cons hfree [.allocatePage 0xd0000000 0]).trans
    ((exec_cons halloc []).trans (exec_nil s'))
  have hcalls : UserCalls [0xd0000000] (initPaging 0xc0100000 s) (.allocatePage 0xd0000000 0) :=
    ⟨hmem, by decide, htable 0⟩
  have hops : Meets (pagingStep 0xc0100000) (UserCalls [0xd0000000]) (initPaging 0xc0100000 s)
      [.freePage 0xd0000000 0, .allocatePage 0xd0000000 0] :=
    ⟨⟨hmem, by decide⟩, fun u hu => ⟨Option.some.inj (hfree.symm.trans hu) ▸ hcalls,
      fun _ _ => trivial⟩⟩
  have hnothing : Meets (pagingStep 0xc0100000) FreesNothing (initPaging 0xc0100000 s)
      [.freePage 0xd0000000 0, .allocatePage 0xd0000000 0] :=
    ⟨⟨pageOf_of_not_present habsent,
      fun hpresent => absurd (hread.symm.trans hpresent) Bool.false_ne_true⟩,
      fun _ _ => ⟨trivial, fun _ _ => trivial⟩⟩
  obtain ⟨hreturns, hconserved⟩ := framesConserved_of_unmapped kernelPlace_image hboot
    (List.nodup_singleton _) hlive' hclear' hops hnothing
  exact ⟨s, s', hboot, hexec, hreturns, hconserved s' hexec⟩

/-- **A page stays mapped**: `free_page` does not unmap the page that `allocate_page` has mapped. -/
theorem freePage_keeps_mapping :
    ¬ ∀ (kernelMemory : ℕ) (s : Kernel) (dirs : List ℕ) (ops : List PagingOp),
      KernelPlace kernelMemory → Booted s → dirs.Nodup → (∀ d ∈ dirs, (d, 4096) ∈ s.live) →
      (∀ d ∈ dirs, ∀ i < 768, entryPresent (Mem.entry s.ram.byte d i) = false) →
      Meets (pagingStep kernelMemory) (UserCalls dirs) (initPaging kernelMemory s) ops →
      Meets (pagingStep kernelMemory) (ReturnsFrame dirs) (initPaging kernelMemory s) ops ∧
        ∀ s', exec (pagingStep kernelMemory) (initPaging kernelMemory s) ops = some s' →
          FramesConserved dirs s' := by
  intro hall
  obtain ⟨s, hboot, hlive, hclear, htable⟩ := booted_directory
  have hlive' : ∀ d ∈ [0xd0000000], (d, 4096) ∈ s.live := fun d hd =>
    List.mem_singleton.mp hd ▸ hlive
  have hclear' : ∀ d ∈ [0xd0000000], ∀ i < 768,
      entryPresent (Mem.entry s.ram.byte d i) = false := fun d hd =>
    List.mem_singleton.mp hd ▸ hclear
  obtain ⟨bs, hheap⟩ := hboot.heap.inv
  obtain ⟨hspace, -, -⟩ := initPaging_spec (U := userIndex) kernelPlace_image hheap
    (fun i hi => Nat.lt_trans hi (by simp)) hlive' (List.nodup_singleton _) hclear'
  have hmem : 0xd0000000 ∈ [0xd0000000] := List.mem_cons_self
  obtain ⟨s', bs', tables', free', hstep, hspace', -, hcases⟩ :=
    hspace.allocatePage hmem userIndex_of_lt (htable 0)
  have hmapped : pageOf s'.ram.byte 0xd0000000 (0 / 4096) ≠ none := by
    rcases hcases with ⟨-, hsame, hnil | hdeny | hpage⟩ | ⟨-, a, -, hanew⟩
    · rw [show kernelBase / 4096 = 786431 + 1 from rfl, frames_succ] at hnil
      cases hnil
    · exact absurd hdeny (by decide)
    · rw [hsame _ hmem (0 / 4096) (show 0 / 4096 / 1024 < 768 by simp)]
      exact hpage
    · exact Option.ne_none_iff_exists'.mpr ⟨_, hanew.after⟩
  have hstep' : pagingStep 0xc0100000 (initPaging 0xc0100000 s) (.allocatePage 0xd0000000 0)
      = some s' := hstep
  have hops : Meets (pagingStep 0xc0100000) (UserCalls [0xd0000000]) (initPaging 0xc0100000 s)
      [.allocatePage 0xd0000000 0, .freePage 0xd0000000 0] :=
    ⟨⟨hmem, by decide, htable 0⟩, fun _ _ => ⟨⟨hmem, by decide⟩, fun _ _ => trivial⟩⟩
  have hmeets := (hall 0xc0100000 s _ _ kernelPlace_image hboot (List.nodup_singleton _) hlive'
    hclear' hops).1
  exact hmapped ((hspace'.returnsFrame_iff hmem (by decide)).mp (hmeets.2 s' hstep').1)

end LoofOS
