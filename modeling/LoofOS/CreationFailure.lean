import LoofOS.PagingErrors

/-!
# Creating a Process Without Resources
`create_process` looks neither at the results of `kernel_allocate` nor at whether `allocate_page`
has mapped a page. What is in memory when it begins is described by `KernelInv`, which holds in
every run (`kernelInv_exec`).
The descriptor is always put into the queue. If there are processes, a link of one of them changes.
If there are none, `current_process` changes, unless the descriptor is the null pointer; but then
the new page directory is the null pointer, too, and the link of the free frame there is overwritten
with an entry that is present, or writing the program is a page fault.

## Main results

* `createProcess_unclean`: `create_process` does not fail cleanly.
-/

namespace LoofOS

open LinkedChain Run

/-! ### What is required -/

/-- What `create_process` finds in memory: the heap, the queue, the free list, and, when there is no
process, the first frame on it. -/
structure KernelInv (s : Kernel) (bs : List Block) (free : List ℕ) : Prop where
  heap : HeapInv ⟨s.ram, s.live⟩ bs
  queue : Queue s s.descriptors
  descriptor : ∀ q ∈ s.descriptors, (q, processDescSize) ∈ s.live
  chain : Chain s.read32 s.pageFreelist free kernelBase
  frame : ∀ a ∈ free, 4096 ∣ a ∧ a < kernelBase
  idle : s.currentProcess = 0 → 0 ∈ free

/-- A resource is missing: one of the three calls of `kernel_allocate` returns null, or the free
list is empty when `allocate_page` is called for the stack, or for the first page. -/
def LacksResource (kernelMemory : ℕ) (s : Kernel) (eip : ℕ) : Prop :=
  (∃ blocks, allocateAll s.ram [processDescSize, 4096, 4096] = some blocks ∧ 0 ∈ blocks) ∨
    ∃ p d s₁, beginProcess kernelMemory s eip = some (p, d, s₁) ∧
      (kernelBase ≤ s₁.pageFreelist ∨
        ∃ s₂, allocatePage s₁ d (kernelBase - 4096) = some s₂ ∧ kernelBase ≤ s₂.pageFreelist)

/-- `current_process` is the same, and so is what others own: the blocks of the heap, with the
descriptors in them, and the links of the free frames. -/
structure LeavesAlone (s : Kernel) (free : List ℕ) (s' : Kernel) : Prop where
  currentProcess : s'.currentProcess = s.currentProcess
  block : ∀ q n, (q, n) ∈ s.live → ∀ x, q ≤ x → x < q + n → s'.ram.byte x = s.ram.byte x
  link : ∀ a ∈ free, s'.read32 a = s.read32 a

/-- `create_process` fails cleanly: if a resource is missing, it returns and has changed nothing
that others own. -/
def FailsCleanly (kernelMemory : ℕ) (s : Kernel) (free : List ℕ) (eip : ℕ) : Prop :=
  LacksResource kernelMemory s eip →
    ∃ s', s.createProcess kernelMemory eip = some s' ∧ LeavesAlone s free s'

variable {s s' s'' : Kernel} {bs : List Block} {tables free : List ℕ}
  {kernelMemory eip p d n addr : ℕ} {v : UInt8}

/-! ### What the steps leave -/

/-- Neither `current_process` nor the list of processes has changed. -/
structure KeepsProcesses (s s' : Kernel) : Prop where
  currentProcess : s'.currentProcess = s.currentProcess
  processes : s'.processes = s.processes

namespace KeepsProcesses

/-- A state keeps its own processes. -/
theorem refl (s : Kernel) : KeepsProcesses s s := ⟨rfl, rfl⟩

/-- Two steps that keep the processes make one. -/
theorem trans (h : KeepsProcesses s s') (h' : KeepsProcesses s' s'') : KeepsProcesses s s'' :=
  ⟨h'.currentProcess.trans h.currentProcess, h'.processes.trans h.processes⟩

/-- A heap allocation keeps the processes. -/
theorem allocate (h : s.allocate n = some (p, s')) : KeepsProcesses s s' := by
  rw [Kernel.allocate, Option.map_eq_some_iff] at h
  obtain ⟨x, -, hx⟩ := h
  obtain ⟨-, rfl⟩ := Prod.mk.inj hx
  exact ⟨rfl, rfl⟩

/-- Writing an entry keeps the processes. -/
theorem setPage (s : Kernel) (pageTable tableIndex : ℕ) :
    KeepsProcesses s (setPage s pageTable tableIndex) := by
  rw [LoofOS.setPage]
  split
  · exact refl s
  · exact ⟨rfl, rfl⟩

/-- Mapping a page keeps the processes. -/
theorem allocatePage (h : allocatePage s d addr = some s') : KeepsProcesses s s' := by
  rw [LoofOS.allocatePage] at h
  split at h
  · exact Option.some.inj h ▸ refl s
  · simp only at h
    split at h
    · split at h
      · exact Option.some.inj h ▸ refl s
      · exact Option.some.inj h ▸ setPage s _ _
    · obtain ⟨⟨t, u⟩, hcall, rfl⟩ := Option.map_eq_some_iff.mp h
      have hwrite : KeepsProcesses s (u.write32 (d + 4 * (addr / 2 ^ 22))
          (pde4kib (sub32 t kernelBase / 2 ^ 12))) := (allocate hcall).trans ⟨rfl, rfl⟩
      exact hwrite.trans (setPage _ _ _)

/-- A change of memory keeps the processes. -/
theorem alters {lo hi : ℕ} (h : Alters lo hi s s') : KeepsProcesses s s' := by
  rw [h.only]
  exact ⟨rfl, rfl⟩

end KeepsProcesses

/-- The loop writes to the last quarter of the directory. -/
theorem copyKernelHalf_alters (hn : n ≤ 256) :
    Alters (d + 3072) (d + 4096) s (copyKernelHalf s kernelMemory d n) := by
  induction n with
  | zero => exact Alters.refl s
  | succ n ih =>
      have hlo : d + 3072 ≤ d + 4 * (n + 768) := by omega
      have hhi : d + (4 * (n + 768) + 4) ≤ d + 4096 :=
        Nat.add_le_add_left (entry_offset_le (Nat.add_lt_add_right hn 768)) d
      exact (ih (by omega)).trans (Alters.write32 hlo hhi)

/-- The descriptor is the first block. -/
theorem beginProcess_eq_some {s₁ : Kernel} (h : beginProcess kernelMemory s eip = some (p, d, s₁)) :
    KeepsProcesses s s₁ ∧ ∃ r, kernelAllocate s.ram processDescSize = some (p, r) := by
  simp only [beginProcess, Option.bind_eq_bind, Option.bind_eq_some_iff, Option.pure_def,
    Option.some.injEq, Prod.mk.injEq] at h
  obtain ⟨⟨p, u⟩, hp, ⟨stack, u'⟩, hstack, ⟨d, u''⟩, hd, rfl, rfl, rfl⟩ := h
  constructor
  · have hdesc : KeepsProcesses s (writeFields u p (initialFields eip)) :=
      (KeepsProcesses.allocate hp).trans (.alters (Alters.writeFields (initialFields_offset eip)))
    have hesp : KeepsProcesses s (u'.write32 (p + esp0Offset) (wrap32 (stack + 4092))) :=
      (hdesc.trans (.allocate hstack)).trans ⟨rfl, rfl⟩
    have hdirectory : KeepsProcesses s (u''.write32 (p + pageDirectoryOffset) d) :=
      (hesp.trans (.allocate hd)).trans ⟨rfl, rfl⟩
    exact hdirectory.trans (.alters (copyKernelHalf_alters (le_refl 256)))
  · rw [Kernel.allocate, Option.map_eq_some_iff] at hp
    obtain ⟨⟨q, r⟩, hcall, he⟩ := hp
    obtain ⟨rfl, -⟩ := Prod.mk.inj he
    exact ⟨r, hcall⟩

/-- A write through the tables changes one byte of memory. -/
theorem writeLinear_eq_some (h : writeLinear s addr v = some s') :
    ∃ a, s' = { s with ram := s.ram.store a v } := by
  obtain ⟨t, -, rfl⟩ := Option.map_eq_some_iff.mp h
  exact ⟨_, rfl⟩

/-- The program is five bytes, each stored somewhere. -/
theorem writeProgram_eq_some (h : writeProgram s = some s') : ∃ a₀ a₁ a₂ a₃ a₄, s' = { s with
      ram := ((((s.ram.store a₀ 0xe9).store a₁ 0xfb).store a₂ 0xff).store a₃ 0xff).store a₄ 0xff
    } := by
  simp only [writeProgram, Option.bind_eq_bind, Option.bind_eq_some_iff] at h
  obtain ⟨u₀, h₀, u₁, h₁, u₂, h₂, u₃, h₃, h₄⟩ := h
  obtain ⟨a₀, rfl⟩ := writeLinear_eq_some h₀
  obtain ⟨a₁, rfl⟩ := writeLinear_eq_some h₁
  obtain ⟨a₂, rfl⟩ := writeLinear_eq_some h₂
  obtain ⟨a₃, rfl⟩ := writeLinear_eq_some h₃
  obtain ⟨a₄, rfl⟩ := writeLinear_eq_some h₄
  exact ⟨a₀, a₁, a₂, a₃, a₄, rfl⟩

/-- The state in which the descriptor is put into the queue. -/
def beforeQueue (kernelMemory p : ℕ) (s : Kernel) : Kernel :=
  { s.enablePaging (sub32 kernelMemory kernelBase) with ram := s.ram.store (p + stateOffset) 0 }

/-- **`create_process` ends with the queue**, and `current_process` has not changed until then. -/
theorem createProcess_eq_some (h : s.createProcess kernelMemory eip = some s') :
    ∃ (p d : ℕ) (s₁ s₃ s₄ : Kernel) (r : Ram),
      kernelAllocate s.ram processDescSize = some (p, r) ∧
      beginProcess kernelMemory s eip = some (p, d, s₁) ∧
      writeProgram (s₃.enablePaging (sub32 d kernelBase)) = some s₄ ∧ KeepsProcesses s s₄ ∧
      s' = { queueProcess (beforeQueue kernelMemory p s₄) p with
        processes := (p, d) :: (queueProcess (beforeQueue kernelMemory p s₄) p).processes } := by
  rw [createProcess_eq, Option.bind_eq_some_iff] at h
  obtain ⟨⟨p, d, s₁⟩, hbegin, h⟩ := h
  obtain ⟨s₂, hstack, h⟩ := Option.bind_eq_some_iff.mp h
  obtain ⟨s₃, hfirst, h⟩ := Option.bind_eq_some_iff.mp h
  simp only [finishProcess, Option.bind_eq_bind, Option.bind_eq_some_iff, Option.pure_def,
    Option.some.injEq] at h
  obtain ⟨s₄, hprogram, rfl⟩ := h
  obtain ⟨hkeeps, r, hp⟩ := beginProcess_eq_some hbegin
  obtain ⟨a₀, a₁, a₂, a₃, a₄, rfl⟩ := writeProgram_eq_some hprogram
  have hkeeps₃ := (hkeeps.trans (.allocatePage hstack)).trans (.allocatePage hfirst)
  exact ⟨p, d, s₁, s₃, _, r, hp, hbegin, hprogram, hkeeps₃.trans ⟨rfl, rfl⟩, rfl⟩

/-! ### A null descriptor -/

/-- A larger request is not served either. -/
theorem HeapInv.allocate_larger {r r' u : Ram} {live : List (ℕ × ℕ)} {m : ℕ}
    (h : HeapInv ⟨r, live⟩ bs) (h' : HeapInv ⟨r', live⟩ bs) (hm : m + 1 < 2 ^ 31) (hnm : n ≤ m)
    (hnull : kernelAllocate r n = some (0, u)) : kernelAllocate r' m = some (0, r') := by
  obtain ⟨k, hk, -, -, -, hlow⟩ := @roundBlockSize_spec (n + 1) (by omega)
  obtain ⟨l, hl, hl3, -, hhigh, -⟩ := @roundBlockSize_spec (m + 1) hm
  have hkl : k ≤ l := by
    by_contra hlt
    have hpow : 2 ^ l ≤ 2 ^ (k - 1) := Nat.pow_le_pow_right Nat.two_pos (by omega)
    have := hlow (by omega)
    omega
  rw [← wrap32_of_lt (show n + 1 < 2 ^ 32 by omega)] at hk
  rw [← wrap32_of_lt (show m + 1 < 2 ^ 32 by omega)] at hl
  have hno : ∀ b ∈ bs, b.fits k = false := by
    rcases h.allocate_eq hk (by omega) with ⟨htake, -⟩ | ⟨o, bs', r₁, -, hcall, -⟩
    · rcases takeFirst_cases k bs with ⟨-, hno⟩ | ⟨pre, blk, post, -, -, -, htake'⟩
      · exact hno
      · exact absurd (htake'.symm.trans htake) (Option.some_ne_none _)
    · have hzero := congrArg Prod.fst (Option.some.inj (hnull.symm.trans hcall))
      exact absurd hzero.symm (Nat.succ_ne_zero _)
  have hno' : ∀ b ∈ bs, b.fits l = false := fun b hb => by
    rw [← Bool.not_eq_true, fits_iff]
    rintro ⟨hunused, hle⟩
    exact absurd (fits_iff.mpr ⟨hunused, hkl.trans hle⟩) (Bool.eq_false_iff.mp (hno b hb))
  rcases h'.allocate_eq hl (by omega) with ⟨-, hcall⟩ | ⟨o, bs', r₁, htake, -⟩
  · exact hcall
  · rw [takeFirst_of_forall hno'] at htake
    cases htake

/-- A refused request leaves the kernel as it was. -/
theorem Kernel.allocate_null {r : Ram} (h : kernelAllocate s.ram n = some (0, r)) (hr : r = s.ram) :
    s.allocate n = some (0, s) := by
  rw [Kernel.allocate, h, hr]
  rfl

/-- **Without memory for the descriptor there is none for the directory**: both are null. -/
theorem beginProcess_null {r : Ram} (h : HeapInv ⟨s.ram, s.live⟩ bs)
    (hnull : kernelAllocate s.ram processDescSize = some (0, r)) :
    ∃ s₁, beginProcess kernelMemory s eip = some (0, 0, s₁) := by
  have hlow : 72 ≤ kernelHeap.start := by decide
  have hspared : ∀ {u : Kernel}, Alters 0 72 s u → HeapInv ⟨u.ram, s.live⟩ bs := fun halters =>
    (h.spared (a := 0) (b := 72) (Or.inr (Or.inl hlow)) halters.outside).1
  have hfirst := h.allocate_larger h (show processDescSize + 1 < 2 ^ 31 by decide) (le_refl _) hnull
  have hpage : ∀ {u : Kernel}, Alters 0 72 s u → u.allocate 4096 = some (0, u) := fun halters =>
    Kernel.allocate_null (h.allocate_larger (hspared halters) (by simp) (by decide) hnull) rfl
  set s₁ := writeFields s 0 (initialFields eip) with hs₁
  have halters₁ : Alters 0 72 s s₁ :=
    (Alters.writeFields (p := 0) (initialFields_offset eip)).mono (le_refl 0) (by simp)
  set s₂ := s₁.write32 (0 + esp0Offset) (wrap32 (0 + 4092)) with hs₂
  have halters₂ : Alters 0 72 s s₂ := halters₁.trans (Alters.write32 (Nat.zero_le _) (by decide))
  refine ⟨copyKernelHalf (s₂.write32 (0 + pageDirectoryOffset) 0) kernelMemory 0 256, ?_⟩
  simp only [beginProcess, Option.bind_eq_bind, Kernel.allocate_null hfirst rfl, Option.bind_some,
    ← hs₁, hpage halters₁, ← hs₂, hpage halters₂, Option.pure_def]

/-- A byte that is odd stays so when odd bytes are stored. -/
theorem odd_store {m : Mem} {a x : ℕ} (hv : v.toNat % 2 = 1) (hx : (m x).toNat % 2 = 1) :
    (m.store a v x).toNat % 2 = 1 := by
  by_cases he : x = a
  · rw [he, Mem.store_self]
    exact hv
  · rw [Mem.store_of_ne v he]
    exact hx

/-- **A null directory**: when the program can be written, the first entry there is present, and
writing the program leaves it so. -/
theorem writeProgram_null (h : writeProgram (s.enablePaging (sub32 0 kernelBase)) = some s') :
    (s'.ram.byte 0).toNat % 2 = 1 := by
  have haddr :
      wrap32 (sub32 0 kernelBase / 2 ^ 12 * 2 ^ 12 + 4 * (0 / 2 ^ 22) + kernelBase) = 0 := by
    decide
  have hword : readPhysical s.ram.byte (sub32 0 kernelBase / 2 ^ 12 * 2 ^ 12 + 4 * (0 / 2 ^ 22))
      = s.ram.byte.read32 0 := by
    rw [readPhysical, haddr]
  have hodd : (s.ram.byte 0).toNat % 2 = 1 := by
    by_contra heven
    have htranslate : translate s.ram.byte (sub32 0 kernelBase) 0 = none := by
      simp only [translate, hword, entryPresent_read32, decide_eq_true_eq, heven, if_false]
    have hnone : writeProgram (s.enablePaging (sub32 0 kernelBase)) = none := by
      refine writeProgram_eq_none ?_
      rw [Kernel.enablePaging, List.headD_cons]
      exact htranslate
    exact absurd (h.symm.trans hnone) (Option.some_ne_none s')
  obtain ⟨a₀, a₁, a₂, a₃, a₄, rfl⟩ := writeProgram_eq_some h
  exact odd_store rfl (odd_store rfl (odd_store rfl (odd_store rfl (odd_store rfl hodd))))

/-! ### `create_process` -/

/-- The links of free frames are even. -/
theorem KernelInv.link_even (h : KernelInv s bs free) {a : ℕ} (ha : a ∈ free) :
    (s.ram.byte a).toNat % 2 = 0 := by
  have hdvd : 4096 ∣ s.read32 a := by
    rcases h.chain.mem_of_next ha with he | hmem
    · rw [he]
      decide
    · exact (h.frame _ (List.mem_of_mem_tail hmem)).1
  rw [Kernel.read32, Mem.read32] at hdvd
  omega

/-- The queue, when there was no process. -/
theorem queueProcess_idle (h : s.currentProcess = 0) :
    (queueProcess s p).currentProcess = p ∧
      ∀ x, x < p + prevOffset → (queueProcess s p).ram.byte x = s.ram.byte x := by
  have hnext : nextOffset = prevOffset + 4 := rfl
  rw [queueProcess, if_pos h]
  exact ⟨rfl, fun x hx => (Mem.write32_of_outside (Or.inl hx)).trans
    (Mem.write32_of_outside (Or.inl (show x < p + nextOffset by omega)))⟩

/-- The queue, when there was a process: the last write is to its link. -/
theorem queueProcess_busy (h : s.currentProcess ≠ 0) :
    (queueProcess s p).read32 (s.currentProcess + prevOffset) = p % 2 ^ 32 := by
  rw [queueProcess, if_neg h]
  exact Mem.read32_write32_self _ _ _

/-- A descriptor that was allocated is none of those that there were. -/
theorem KernelInv.fresh {r : Ram} (h : KernelInv s bs free)
    (hp : kernelAllocate s.ram processDescSize = some (p, r)) :
    p < 2 ^ 32 ∧ p ∉ s.descriptors := by
  have hlast := kernelHeap_last
  obtain ⟨q, r₁, _, hcall, -, hgrant⟩ :=
    h.heap.allocate_same h.heap (show processDescSize + 1 < 2 ^ 31 by decide)
  obtain ⟨rfl, rfl⟩ := Prod.mk.inj (Option.some.inj (hp.symm.trans hcall))
  obtain ⟨rfl, -⟩ | ⟨-, bs', hgrant, -⟩ := hgrant
  · refine ⟨by simp, fun hmem => ?_⟩
    exact absurd (h.heap.live_bounds (h.descriptor 0 hmem)).1 (Nat.not_lt_zero _)
  · have hhigh := (hgrant.heap.live_bounds List.mem_cons_self).2
    exact ⟨by omega, fun hmem => hgrant.fresh _ (h.descriptor p hmem)⟩

/-- **`create_process` changes what others own**, or `current_process`. -/
theorem KernelInv.changes (h : KernelInv s bs free)
    (hstep : s.createProcess kernelMemory eip = some s') : ¬ LeavesAlone s free s' := by
  intro hsame
  have hdescSize : processDescSize = 85 := rfl
  have hprevOffset : prevOffset = 76 := rfl
  obtain ⟨p, d, s₁, s₃, s₄, r, hp, hbegin, hprogram, hkeeps, rfl⟩ := createProcess_eq_some hstep
  set u := beforeQueue kernelMemory p s₄ with hu
  have hcurrentu : u.currentProcess = s.currentProcess := hkeeps.currentProcess
  by_cases hcurrent : s.currentProcess = 0
  · obtain ⟨hqueued, hbytes⟩ := queueProcess_idle (p := p) (hcurrentu.trans hcurrent)
    obtain rfl : p = 0 := hqueued.symm.trans (hsame.currentProcess.trans hcurrent)
    obtain ⟨s₁', hbegin'⟩ : ∃ s₁', beginProcess kernelMemory s eip = some (0, 0, s₁') :=
      beginProcess_null h.heap hp
    obtain rfl : d = 0 :=
      congrArg (fun x : ℕ × ℕ × Kernel => x.2.1) (Option.some.inj (hbegin.symm.trans hbegin'))
    -- the link of the frame was even, and is odd now
    have hodd := writeProgram_null hprogram
    have hstored : u.ram.byte 0 = s₄.ram.byte 0 :=
      @Mem.store_of_ne s₄.ram.byte (0 + stateOffset) 0 0 (by decide)
    have hkept := (hbytes 0 (by omega)).trans hstored
    have hlink := hsame.link 0 (h.idle hcurrent)
    have heven := h.link_even (h.idle hcurrent)
    rw [Kernel.read32, Kernel.read32, Mem.read32, Mem.read32, hkept] at hlink
    omega
  · obtain ⟨hlt, hfresh⟩ := h.fresh hp
    have hcmem : s.currentProcess ∈ s.descriptors :=
      h.queue.current.resolve_left fun hand => hcurrent hand.1
    have hlast := queueProcess_busy (p := p) (hcurrentu.trans_ne hcurrent)
    rw [hcurrentu, Nat.mod_eq_of_lt hlt] at hlast
    have hkept : (queueProcess u p).read32 (s.currentProcess + prevOffset)
        = s.read32 (s.currentProcess + prevOffset) :=
      Mem.read32_congr fun x hx hx' =>
        hsame.block _ _ (h.descriptor _ hcmem) x (by omega) (by omega)
    refine hfresh ?_
    rw [← hlast, hkept]
    exact h.queue.prev _ hcmem

/-- **`create_process` does not fail cleanly**, whichever resource is missing. -/
theorem createProcess_unclean (h : KernelInv s bs free) (hlack : LacksResource kernelMemory s eip) :
    ¬ FailsCleanly kernelMemory s free eip := by
  intro hclean
  obtain ⟨s', hstep, hsame⟩ := hclean hlack
  exact h.changes hstep hsame

/-! ### Runs -/

/-- **In every run** memory is what `create_process` requires. -/
theorem kernelInv_exec {ops : List PagingOp} (hplace : KernelPlace kernelMemory) (hboot : Booted s)
    (hops : Meets (pagingStep kernelMemory) FreshBlocks (initPaging kernelMemory s) ops)
    (hexec : exec (pagingStep kernelMemory) (initPaging kernelMemory s) ops = some s') :
    ∃ bs free, KernelInv s' bs free := by
  -- the first frame stays on the free list until there is a process
  have hrun : ∃ bs tables free, SpacesInv userIndex kernelMemory s' bs tables free ∧
      (s'.processes = [] → 0 ∈ free) := by
    refine exec_invariant_of_meets (I := fun s => ∃ bs tables free,
      SpacesInv userIndex kernelMemory s bs tables free ∧ (s.processes = [] → 0 ∈ free)) ?_ ?_
      hops hexec
    · rintro s op s' ⟨bs, tables, free, h, hfree⟩ hop hstep
      obtain ⟨bs', tables', free', h'⟩ := h.step hplace hop hstep
      refine ⟨bs', tables', free', h', fun hnone => ?_⟩
      cases op with
      | createProcess eip =>
          obtain ⟨p, d, s₁, s₃, s₄, r, -, -, -, -, rfl⟩ := createProcess_eq_some hstep
          cases hnone
      | allocatePage pageDir addr =>
          rw [(KeepsProcesses.allocatePage hstep).processes] at hnone
          have hmem : pageDir ∈ s.processes.map Prod.snd := hop.1
          rw [hnone] at hmem
          cases hmem
      | freePage pageDir addr => exact hop.elim
    · obtain ⟨bs, hheap⟩ := hboot.heap.inv
      refine ⟨bs, [], _, SpacesInv.start hplace hheap (fun i hi => Nat.lt_trans hi (by simp))
        hboot.processes hboot.currentProcess, fun _ => ?_⟩
      rw [show kernelBase / 4096 = 786431 + 1 from rfl, frames_succ]
      exact List.mem_cons_self
  obtain ⟨bs, tables, free, h, hfree⟩ := hrun
  refine ⟨bs, free, h.space.heap, h.queue, fun q hq => (h.descriptor_not_page hq).1, h.space.chain,
    fun a ha => ⟨(h.space.frame a ha).1.dvd, (h.space.frame a ha).2⟩, fun hcurrent => hfree ?_⟩
  have hnone : s'.descriptors = [] := by
    refine (h.queue.current.resolve_right fun hmem => ?_).2
    obtain ⟨hlive, -⟩ := h.descriptor_not_page hmem
    rw [hcurrent] at hlive
    exact absurd (h.space.heap.live_bounds hlive).1 (Nat.not_lt_zero _)
  exact List.map_eq_nil_iff.mp hnone

/-- A kernel whose heap is one block that is in use. -/
theorem booted_exhausted : ∃ s, Booted s ∧
    (∃ bs free, KernelInv (initPaging 0xc0100000 s) bs free) ∧
    ∀ eip, LacksResource 0xc0100000 (initPaging 0xc0100000 s) eip := by
  have hinv := @initKernelHeap_inv zeroRam _ rfl initKernelHeap_zeroRam
  have htake : takeFirst 29 [⟨29, false⟩] = some (0, [⟨29, true⟩]) := by decide
  have hround : roundBlockSize (wrap32 (0x10000000 + 1)) = some 29 := by decide +kernel
  obtain ⟨hnone, -⟩ | ⟨o, bs, r, htake', hcall, hgrant⟩ := hinv.allocate_eq hround (by simp)
  · exact absurd (htake.symm.trans hnone) (Option.some_ne_none _)
  obtain ⟨rfl, rfl⟩ := Prod.mk.inj (Option.some.inj (htake.symm.trans htake'))
  set s : Kernel := { bootKernel r with live := [(kernelHeap.start + 0 + 1, 0x10000000)] } with hs
  have hexec : exec heapStep ⟨bootRam, []⟩ [.allocate 0x10000000] = some ⟨r, s.live⟩ := by
    rw [exec, heapStep, hcall]
    rfl
  have hboot : Booted s := ⟨⟨zeroRam, bootRam, [.allocate 0x10000000], rfl, initKernelHeap_zeroRam,
    ⟨show 0x10000000 + 1 < 2 ^ 32 by simp, fun _ _ => trivial⟩, hexec⟩, rfl, rfl⟩
  have hstart := SpacesInv.start (U := userIndex) kernelPlace_image hgrant.heap
    (fun i hi => Nat.lt_trans hi (by simp)) hboot.processes hboot.currentProcess
  refine ⟨s, hboot, @kernelInv_exec s _ _ [] kernelPlace_image hboot trivial rfl, fun eip => ?_⟩
  have hheap := hstart.space.heap
  have hnull : kernelAllocate (initPaging 0xc0100000 s).ram processDescSize
      = some (0, (initPaging 0xc0100000 s).ram) := by
    have hdesc : roundBlockSize (wrap32 (processDescSize + 1)) = some 7 := by decide
    rcases hheap.allocate_eq hdesc (by decide) with ⟨-, hnull⟩ | ⟨o, bs', r', htake₇, -⟩
    · exact hnull
    · have hnone : takeFirst 7 [⟨29, true⟩] = none := by decide
      exact absurd (htake₇.symm.trans hnone) (Option.some_ne_none _)
  obtain ⟨blocks, hblocks⟩ := hheap.allocateAll (show ∀ n ∈ [4096, 4096], n + 1 < 2 ^ 31 by simp)
  refine Or.inl ⟨0 :: blocks, ?_, List.mem_cons_self⟩
  rw [allocateAll, hnull, Option.bind_some, hblocks, Option.map_some]

/-- On a kernel without a heap. -/
theorem createProcess_unclean_exhausted : ∃ s, Booted s ∧ ∃ free,
    ¬ FailsCleanly 0xc0100000 (initPaging 0xc0100000 s) free 0 := by
  obtain ⟨s, hboot, ⟨bs, free, h⟩, hlack⟩ := booted_exhausted
  exact ⟨s, hboot, free, createProcess_unclean h (hlack 0)⟩

/-- **A half-built process**: with an exhausted heap, a kernel that has just been booted does not
survive `create_process` unharmed. -/
theorem not_failsCleanly : ¬ ∀ (s : Kernel) (bs : List Block) (free : List ℕ) (eip : ℕ), Booted s →
    KernelInv (initPaging 0xc0100000 s) bs free →
    FailsCleanly 0xc0100000 (initPaging 0xc0100000 s) free eip := by
  intro hall
  obtain ⟨s, hboot, ⟨bs, free, h⟩, hlack⟩ := booted_exhausted
  obtain ⟨s', hstep, hsame⟩ := hall s bs free 0 hboot h (hlack 0)
  exact h.changes hstep hsame

end LoofOS
