import LoofOS.KernelHalf

/-!
# Isolation of Address Spaces
What the address spaces of processes give access to. `create_process` means to map two pages, each
to a frame from the free list, and nothing else below `KERNEL_BASE`. It does not clear the blocks
that it takes for the page directory and the page tables, so this depends on what the heap contains:
an entry that is left over from an earlier use of the block is an entry of the new process.

## Main results

* `isolated_of_freshBlocks`: processes are isolated in runs in which the blocks have no entry that
  is present.
* `not_isolated_stale`: an entry that was in the heap at boot gives a process access to the memory
  of the kernel.
-/

namespace LoofOS

open Run

/-! ### Isolation -/

/-- Users reach an address of the address space of a directory. -/
def UserAccess (m : Mem) (directory addr : ℕ) (acc : Access) : Prop :=
  addr < 2 ^ 32 ∧ translate m (sub32 directory kernelBase) addr = some acc ∧ acc.us = true

/-- Every process has exactly two pages below `KERNEL_BASE`; users reach no memory of the kernel and
no page of another process. -/
structure Isolated (s : Kernel) : Prop where
  pages : ∀ x ∈ s.processes, ∀ addr < kernelBase,
    translate s.ram.byte (sub32 x.2 kernelBase) addr ≠ none ↔
      addr / 4096 = 0 ∨ addr / 4096 = kernelBase / 4096 - 1
  above : ∀ x ∈ s.processes, ∀ addr acc, UserAccess s.ram.byte x.2 addr acc →
    pageOffset ≤ acc.physical
  apart : ∀ x ∈ s.processes, ∀ y ∈ s.processes, ∀ addr addr' acc acc',
    UserAccess s.ram.byte x.2 addr acc → UserAccess s.ram.byte y.2 addr' acc' →
    acc.physical / 4096 = acc'.physical / 4096 → x = y ∧ addr / 4096 = addr' / 4096

/-- A call of `create_process` takes two frames from the free list, the first for the stack and the
second for page 0 of the new process. -/
def TakesTwoFrames (kernelMemory : ℕ) (s : Kernel) : PagingOp → Prop
  | .createProcess eip => ∀ s', s.createProcess kernelMemory eip = some s' →
      ∃ x, s'.processes = x :: s.processes ∧
        translate s'.ram.byte (sub32 x.2 kernelBase) (kernelBase - 4096)
          = some ⟨s.pageFreelist + pageOffset, true, true⟩ ∧
        translate s'.ram.byte (sub32 x.2 kernelBase) 0
          = some ⟨s.read32 s.pageFreelist + pageOffset, true, true⟩ ∧
        s'.pageFreelist = s.read32 (s.read32 s.pageFreelist)
  | _ => True

variable {kernelMemory : ℕ} {s s' : Kernel} {bs : List Block} {dirs tables free : List ℕ}

/-- Where the free list starts. -/
theorem SpaceInv.freelist_eq {U : ℕ → Prop} {next : ℕ → ℕ} {x : ℕ}
    (h : SpaceInv U s bs dirs tables free) (hchain : LinkedChain.Chain next x free kernelBase) :
    s.pageFreelist = x := by
  have hown := h.chain
  cases free with
  | nil => exact Eq.trans hown (Eq.symm hchain)
  | cons a free => exact hown.1.trans hchain.1.symm

/-- The processes have their two pages and no others. -/
def TwoPages (s : Kernel) : Prop :=
  ∀ d ∈ s.directories, ∀ n, userIndex (n / 1024) →
    (pageOf s.ram.byte d n ≠ none ↔ n = 0 ∨ n = kernelBase / 4096 - 1)

/-- A created process keeps every process at two pages. -/
theorem Created.twoPages {p d a b : ℕ} (hs : TwoPages s)
    (h : Created userIndex kernelMemory s s' p d a b) : TwoPages s' := by
  have hdirs : s'.directories = d :: s.directories := congrArg (List.map Prod.snd) h.processes
  intro d' hd' n hn
  rw [hdirs] at hd'
  rcases List.mem_cons.mp hd' with rfl | hold
  · constructor
    · intro hne
      by_contra hnot
      rw [not_or] at hnot
      exact hne (h.none n hn hnot.1 hnot.2)
    · rintro (rfl | rfl)
      · rw [h.first]
        exact Option.some_ne_none _
      · rw [h.stack]
        exact Option.some_ne_none _
  · rw [h.other d' hold n hn]
    exact hs d' hold n hn

/-- What a user reaches is on a page of the address space. -/
theorem SpacesInv.userAccess {d addr : ℕ} {acc : Access}
    (h : SpacesInv userIndex kernelMemory s bs tables free) (hd : d ∈ s.directories)
    (hacc : UserAccess s.ram.byte d addr acc) :
    ∃ f, Maps userIndex s.ram.byte s.directories (d, addr / 4096) f ∧
      acc.physical / 4096 = f / 4096 ∧ f ≤ acc.physical ∧ 4096 ∣ f ∧ pageOffset ≤ f := by
  obtain ⟨hlt, htranslate, hus⟩ := hacc
  have hpage := h.space.mapped.dir_page hd
  by_cases haddr : addr < kernelBase
  · have hindex := userIndex_of_lt haddr
    have hdiv : addr / 2 ^ 12 / 1024 = addr / 2 ^ 22 := by omega
    rw [h.space.mapped.translate_eq hd hindex] at htranslate
    obtain ⟨f, hf, rfl⟩ := Option.map_eq_some_iff.mp htranslate
    obtain ⟨hdvd, hoffset, -⟩ := h.space.mapped.pageOf_bounds hd (hdiv.symm ▸ hindex) hf
    refine ⟨f, ⟨hd, hdiv.symm ▸ hindex, hf⟩, ?_, Nat.le_add_right _ _, hdvd, hoffset⟩
    change (f + addr % 2 ^ 12) / 4096 = f / 4096
    omega
  · rw [translate_kernel hpage (h.half d hd) (Nat.le_of_not_lt haddr) hlt] at htranslate
    obtain rfl := Option.some.inj htranslate
    cases hus

/-- **The invariant isolates processes.** -/
theorem SpacesInv.isolated (h : SpacesInv userIndex kernelMemory s bs tables free)
    (hpages : TwoPages s) : Isolated s := by
  have hmem : ∀ x ∈ s.processes, x.2 ∈ s.directories := fun x hx => List.mem_map.mpr ⟨x, hx, rfl⟩
  refine ⟨fun x hx addr haddr => ?_, fun x hx addr acc hacc => ?_,
    fun x hx y hy addr addr' acc acc' hacc hacc' heq => ?_⟩
  · have hindex := userIndex_of_lt haddr
    have hdiv : addr / 4096 / 1024 = addr / 2 ^ 22 := by omega
    rw [h.space.mapped.translate_eq (hmem x hx) hindex, Ne, Option.map_eq_none_iff]
    exact hpages x.2 (hmem x hx) (addr / 4096) (hdiv.symm ▸ hindex)
  · obtain ⟨f, -, -, hle, -, hoffset⟩ := h.userAccess (hmem x hx) hacc
    exact hoffset.trans hle
  · obtain ⟨f, hf, hdiv, -, hdvd, -⟩ := h.userAccess (hmem x hx) hacc
    obtain ⟨g, hg, hdiv', -, hdvd', -⟩ := h.userAccess (hmem y hy) hacc'
    obtain rfl : f = g := by omega
    have hsame := h.space.apart.inj _ _ _ hf hg
    have hnodup : s.directories.Nodup := (List.nodup_append.mp h.space.mapped.nodup).1
    exact ⟨List.inj_on_of_nodup_map hnodup hx hy (congrArg Prod.fst hsame),
      congrArg Prod.snd hsame⟩

/-- **Processes are isolated** in every run in which the blocks that `create_process` gets have no
entry that is present, and every process gets two frames of its own. -/
theorem isolated_of_freshBlocks {eips : List ℕ} (hplace : KernelPlace kernelMemory)
    (hboot : Booted s)
    (hops : Meets (pagingStep kernelMemory) FreshBlocks (initPaging kernelMemory s)
      (eips.map .createProcess)) :
    Meets (pagingStep kernelMemory) (TakesTwoFrames kernelMemory) (initPaging kernelMemory s)
        (eips.map .createProcess) ∧
      ∀ s', exec (pagingStep kernelMemory) (initPaging kernelMemory s) (eips.map .createProcess)
        = some s' → Isolated s' := by
  set I : Kernel → Prop := fun s =>
    (∃ bs tables free, SpacesInv userIndex kernelMemory s bs tables free) ∧ TwoPages s with hI
  set P : Kernel → PagingOp → Prop := fun s op =>
    FreshBlocks s op ∧ ∃ eip, op = .createProcess eip with hP
  have hcall : ∀ s op s', I s → P s op → pagingStep kernelMemory s op = some s' →
      ∃ bs tables free a b p d, SpacesInv userIndex kernelMemory s bs tables (a :: b :: free) ∧
        (∃ bs' tables', SpacesInv userIndex kernelMemory s' bs' tables' free) ∧
        Created userIndex kernelMemory s s' p d a b := by
    rintro s op s' ⟨⟨bs, tables, free, h⟩, -⟩ ⟨hop, eip, rfl⟩ hstep
    obtain ⟨blocks, hblocks⟩ := h.space.heap.allocateAll processSizes_small
    rcases h.createProcess hplace (fun _ hi => hi) userIndex_zero userIndex_top hblocks
        (hop blocks hblocks) eip with
      ⟨-, hnone⟩ | ⟨a, b, free', p, d, u, bs', tables', rfl, -, -, hsome, h', hcreated, -⟩
    · exact absurd (hnone.symm.trans hstep) nofun
    · obtain rfl := Option.some.inj (hsome.symm.trans hstep)
      exact ⟨bs, tables, free', a, b, p, d, h, ⟨bs', tables', h'⟩, hcreated⟩
  have hkeep : ∀ s op s', I s → P s op → pagingStep kernelMemory s op = some s' → I s' := by
    intro s op s' hs hop hstep
    obtain ⟨-, -, free, a, b, p, d, -, ⟨bs', tables', h'⟩, hcreated⟩ :=
      hcall s op s' hs hop hstep
    exact ⟨⟨bs', tables', free, h'⟩, hcreated.twoPages hs.2⟩
  have hops' : Meets (pagingStep kernelMemory) P (initPaging kernelMemory s)
      (eips.map .createProcess) := by
    refine hops.and (Meets.of_forall_mem (fun op hop _ => ?_) _)
    obtain ⟨eip, -, rfl⟩ := List.mem_map.mp hop
    exact ⟨eip, rfl⟩
  obtain ⟨bs, hheap⟩ := hboot.heap.inv
  have hstart : I (initPaging kernelMemory s) := by
    refine ⟨⟨bs, [], _, SpacesInv.start hplace hheap (fun i hi => Nat.lt_trans hi (by simp))
      hboot.processes hboot.currentProcess⟩, fun d hd => ?_⟩
    have hdirs : (initPaging kernelMemory s).directories = [] :=
      congrArg (List.map Prod.snd) hboot.processes
    rw [hdirs] at hd
    exact absurd hd List.not_mem_nil
  refine ⟨?_, fun s' hexec => ?_⟩
  · refine Meets.imp_of_invariant (I := I) hkeep ?_ hstart hops'
    rintro s op hs hop
    obtain ⟨-, eip, rfl⟩ := id hop
    intro s' hstep
    obtain ⟨bs, tables, free, a, b, p, d, h, ⟨bs', tables', h'⟩, hcreated⟩ :=
      hcall s _ s' hs hop hstep
    have hmem : d ∈ s'.directories := by
      rw [Kernel.directories, hcreated.processes]
      exact List.mem_cons_self
    have ha : s.pageFreelist = a := h.space.chain.1
    have hb : s.read32 a = b := h.space.chain.2.1
    refine ⟨(p, d), hcreated.processes, ?_, ?_, ?_⟩
    · rw [h'.space.mapped.translate_eq hmem
          (show userIndex ((kernelBase - 4096) / 2 ^ 22) from userIndex_top),
        show (kernelBase - 4096) / 2 ^ 12 = kernelBase / 4096 - 1 from rfl,
        hcreated.stack, ha]
      rfl
    · rw [h'.space.mapped.translate_eq hmem
          (show userIndex (0 / 2 ^ 22) from userIndex_zero), Nat.zero_div, hcreated.first, ha, hb]
      rfl
    · rw [ha, hb]
      exact h'.space.freelist_eq h.space.chain.2.2
  · obtain ⟨⟨bs', tables', free', h'⟩, hpages⟩ := exec_invariant_of_meets hkeep hstart hops' hexec
    exact h'.isolated hpages

/-- Two processes on memory of zeros are isolated. -/
theorem isolated_two : ∃ s',
    exec (pagingStep 0xc0100000) (initPaging 0xc0100000 (bootKernel bootRam))
      ([0, 0].map .createProcess) = some s' ∧ s'.processes.length = 2 ∧ Isolated s' ∧
    Meets (pagingStep 0xc0100000) (TakesTwoFrames 0xc0100000)
      (initPaging 0xc0100000 (bootKernel bootRam)) ([0, 0].map .createProcess) := by
  obtain ⟨s', hops, hexec, hlen⟩ := createProcess_two
  obtain ⟨hframes, hisolated⟩ := isolated_of_freshBlocks kernelPlace_image booted_zeroRam hops
  exact ⟨s', hexec, hlen, hisolated s' hexec, hframes⟩

/-! ### A stale entry -/

/-- Memory of zeros, but for entry 1 of the block that becomes the first page directory: the entry
of a 4 MiB page at physical address 0, for users. -/
def staleRam : Ram := ⟨fun x => if x = 0xd0004004 then 0x87 else 0, []⟩

/-- The stale memory differs from cleared memory in one byte. -/
theorem staleRam_byte {x : ℕ} (h : x ≠ 0xd0004004) : staleRam.byte x = zeroRam.byte x := if_neg h

/-- The entries of the directory that `create_process` uses are clear. -/
theorem processClear_staleRam :
    ProcessClear (fun i => i = 0 ∨ i = 767) staleRam.byte firstBlocks := by
  refine ⟨by decide, fun d hd i hi => ?_, fun t ht j hj => ?_⟩
  · obtain rfl := Option.some.inj hd
    have hentry : Mem.entry staleRam.byte 0xd0004000 i = Mem.entry zeroRam.byte 0xd0004000 i :=
      Mem.read32_congr fun x _ _ => staleRam_byte (by omega)
    rw [hentry]
    rfl
  · have habove : ∀ t ∈ firstBlocks.drop 3, 0xd0006000 ≤ t := by decide
    have hle := habove t ht
    have hentry : Mem.entry staleRam.byte t j = Mem.entry zeroRam.byte t j :=
      Mem.read32_congr fun x _ _ => staleRam_byte (by omega)
    rw [hentry]
    rfl

/-- **A stale entry gives access to the kernel**: the first process reaches physical address 0. -/
theorem not_isolated_stale :
    ¬ ∀ (kernelMemory : ℕ) (s : Kernel) (eips : List ℕ), KernelPlace kernelMemory → Booted s →
      Meets (pagingStep kernelMemory) GrantsBlocks (initPaging kernelMemory s)
        (eips.map .createProcess) →
      ∀ s', exec (pagingStep kernelMemory) (initPaging kernelMemory s) (eips.map .createProcess)
        = some s' → Isolated s' := by
  intro hall
  obtain ⟨r, hinit, -⟩ := @initMemory_spec staleRam kernelHeap (by decide) (by decide)
  have hU : ∀ i, i = 0 ∨ i = 767 → i < 768 := fun i hi => by omega
  obtain ⟨hblocks, hclear, s', bs, tables, free, hstep, h', hcreated⟩ :=
    createProcess_boot kernelPlace_image hU (Or.inl rfl) (Or.inr rfl)
      (show staleRam.byte kernelHeap.last = 0 by decide) hinit processClear_staleRam 0
  obtain ⟨-, -, hsame⟩ :=
    @initPaging_spec userIndex (bootKernel r) _ [] 0xc0100000 kernelPlace_image
    (initKernelHeap_inv (by decide) hinit) (fun i hi => Nat.lt_trans hi (by simp))
    (fun _ hd => absurd hd List.not_mem_nil) List.nodup_nil (fun _ hd => absurd hd List.not_mem_nil)
  have hentry : Mem.entry s'.ram.byte 0xd0004000 1 = 0x87 := by
    rw [hcreated.stale 1 (by simp) (by simp)]
    have hstale : Mem.entry staleRam.byte 0xd0004000 1 = 0x87 := by decide +kernel
    rw [← hstale]
    exact Mem.read32_congr fun x hx _ => (hsame x (le_trans (by decide) hx)).trans
      (initKernelHeap_byte hinit (lt_of_lt_of_le (by decide) hx))
  have hexec : exec (pagingStep 0xc0100000) (initPaging 0xc0100000 (bootKernel r))
      ([0].map .createProcess) = some s' := by
    rw [List.map_singleton,
      exec_cons (show pagingStep 0xc0100000 _ (.createProcess 0) = some s' from hstep)]
    rfl
  have hgrants : Meets (pagingStep 0xc0100000) GrantsBlocks (initPaging 0xc0100000 (bootKernel r))
      ([0].map .createProcess) := by
    refine ⟨fun blocks he => ?_, fun _ _ => trivial⟩
    obtain rfl := Option.some.inj (hblocks.symm.trans he)
    exact hclear.granted
  have hisolated := hall 0xc0100000 (bootKernel r) [0] kernelPlace_image
    (booted_bootKernel (by decide) hinit) hgrants s' hexec
  have hread : readPhysical s'.ram.byte
      (sub32 0xd0004000 kernelBase / 2 ^ 12 * 2 ^ 12 + 4 * (0x400000 / 2 ^ 22)) = 0x87 := hentry
  have htranslate : translate s'.ram.byte (sub32 0xd0004000 kernelBase) 0x400000
      = some ⟨0, true, true⟩ := by
    rw [translate]
    simp only [hread]
    rfl
  have hmem : (0xd0000000, 0xd0004000) ∈ s'.processes := hcreated.processes ▸ List.mem_cons_self
  have habove := hisolated.above _ hmem 0x400000 ⟨0, true, true⟩ ⟨by simp, htranslate, rfl⟩
  exact absurd habove (by decide)

end LoofOS
