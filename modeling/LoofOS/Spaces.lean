import LoofOS.InitPaging

/-!
# Creating Address Spaces

What `create_process` does to memory. It calls `kernel_allocate` five times: for the descriptor, the
kernel stack, the page directory, and the tables that `allocate_page` makes for the two pages of the
process. The results are known beforehand (`allocateAll`), since the allocator looks at the headers
of its blocks only, and so are the bytes in the blocks, which are those that were there before.

## Main results

* `beginProcess_spec`: the descriptor and the directory, before pages are allocated.
* `queueProcess_spec`: the descriptor is put into the queue.
-/

namespace LoofOS

open LinkedChain

/-! ### The blocks of a process -/

/-- The results of calls of `kernel_allocate` for the given sizes, one after the other. -/
def allocateAll (r : Ram) : List ℕ → Option (List ℕ)
  | [] => some []
  | n :: sizes =>
      (kernelAllocate r n).bind fun x => (allocateAll x.2 sizes).map (x.1 :: ·)

/-- The sizes that `create_process` requests: the descriptor, the kernel stack, the page directory,
and two page tables. -/
def processSizes : List ℕ := [processDescSize, 4096, 4096, 4096, 4096]

/-- The requests of `create_process` are far below the heap's bound. -/
theorem processSizes_small : ∀ n ∈ processSizes, n + 1 < 2 ^ 31 := by decide

/-- What `create_process` relies on: the blocks that it gets are not null, and no entry of the
directory with an index in `U`, and no entry of the tables, is present. -/
structure ProcessClear (U : ℕ → Prop) (m : Mem) (blocks : List ℕ) : Prop where
  granted : 0 ∉ blocks
  directory : ∀ d ∈ blocks[2]?, ∀ i, U i → entryPresent (Mem.entry m d i) = false
  table : ∀ t ∈ blocks.drop 3, ∀ j < 1024, entryPresent (Mem.entry m t j) = false

/-! ### Changes of memory -/

/-- Nothing but the bytes of a range of addresses changes. -/
structure Alters (lo hi : ℕ) (s s' : Kernel) : Prop where
  only : s' = { s with ram := s'.ram }
  outside : ∀ x, x < lo ∨ hi ≤ x → s'.ram.byte x = s.ram.byte x

namespace Alters

variable {s s' s'' : Kernel} {lo hi a w p : ℕ}

/-- A state alters nothing of itself. -/
theorem refl (s : Kernel) : Alters lo hi s s := ⟨rfl, fun _ _ => rfl⟩

/-- Two changes within one range make one change within it. -/
theorem trans (h : Alters lo hi s s') (h' : Alters lo hi s' s'') : Alters lo hi s s'' := by
  refine ⟨?_, fun x hx => (h'.outside x hx).trans (h.outside x hx)⟩
  rw [h'.only, h.only]

/-- A change within a range is a change within a larger one. -/
theorem mono {lo' hi' : ℕ} (h : Alters lo hi s s') (hlo : lo' ≤ lo) (hhi : hi ≤ hi') :
    Alters lo' hi' s s' := ⟨h.only, fun x hx => h.outside x (by omega)⟩

/-- A 32-bit write alters its four bytes only. -/
theorem write32 (hlo : lo ≤ a) (hhi : a + 4 ≤ hi) : Alters lo hi s (s.write32 a w) :=
  ⟨rfl, fun _ hx => Mem.write32_of_outside (by omega)⟩

/-- A stored byte alters that byte only. -/
theorem store {b : UInt8} (hlo : lo ≤ a) (hhi : a < hi) :
    Alters lo hi s { s with ram := s.ram.store a b } :=
  ⟨rfl, fun _ hx => Mem.store_of_ne b (by omega)⟩

/-- A word outside the range reads as before. -/
theorem read32 (h : Alters lo hi s s') (ha : a + 4 ≤ lo ∨ hi ≤ a) : s'.read32 a = s.read32 a :=
  Mem.read32_congr fun x hx hx' => h.outside x (by omega)

/-- Writing fields of a record alters the record only. -/
theorem writeFields {fields : List (ℕ × ℕ)} (h : ∀ f ∈ fields, f.1 + 4 ≤ hi) :
    Alters p (p + hi) s (writeFields s p fields) := by
  induction fields generalizing s with
  | nil => exact refl s
  | cons f fields ih =>
      have hf := h f List.mem_cons_self
      exact (write32 (by omega) (by omega)).trans (ih fun g hg => h g (List.mem_cons_of_mem _ hg))

end Alters

/-- Every initial field lies in the first 68 bytes of the descriptor. -/
theorem initialFields_offset (eip : ℕ) : ∀ f ∈ initialFields eip, f.1 + 4 ≤ 68 := by
  simp [initialFields]

/-- A directory entry lies in the directory's page. -/
theorem entry_offset_le {i : ℕ} (h : i < 1024) : 4 * i + 4 ≤ 4096 := by omega

/-- An entry below the kernel's half lies in the first three quarters of the page. -/
theorem entry_low_le {i : ℕ} (h : i < 768) : 4 * i + 4 ≤ 3072 := by omega

/-- The loop that copies the kernel half. -/
theorem copyKernelHalf_spec {s : Kernel} {kernelMemory directory n : ℕ} (hn : n ≤ 256)
    (happart : kernelMemory + 4096 ≤ directory) :
    Alters (directory + 3072) (directory + 4096) s (copyKernelHalf s kernelMemory directory n) ∧
      ∀ i < n, Mem.entry (copyKernelHalf s kernelMemory directory n).ram.byte directory (i + 768)
        = Mem.entry s.ram.byte kernelMemory (i + 768) := by
  induction n with
  | zero => exact ⟨Alters.refl s, fun i hi => absurd hi (Nat.not_lt_zero i)⟩
  | succ n ih =>
      obtain ⟨halters, hentry⟩ := ih (by omega)
      have hlo : directory + 3072 ≤ directory + 4 * (n + 768) := by omega
      have hhi : directory + (4 * (n + 768) + 4) ≤ directory + 4096 :=
        Nat.add_le_add_left (entry_offset_le (Nat.add_lt_add_right hn 768)) directory
      refine ⟨halters.trans (Alters.write32 hlo hhi), fun i hi => ?_⟩
      rcases Nat.lt_succ_iff_lt_or_eq.mp hi with hlt | rfl
      · rw [← hentry i hlt]
        exact Mem.read32_write32_of_disjoint (by omega)
      · have hread := halters.read32 (a := kernelMemory + 4 * (i + 768)) (by omega)
        refine (Mem.read32_write32_self _ _ _).trans ?_
        rw [hread]
        exact Nat.mod_eq_of_lt (Mem.read32_lt _ _)

/-! ### Stages -/

variable {U : ℕ → Prop} {s s' s'' : Kernel} {bs bs' : List Block}
  {dirs tables tables' free : List ℕ} {r r' : Ram} {kernelMemory eip p d n q : ℕ}

/-- A state that `create_process` has reached from `s`, with the memory `r` that its calls of
`kernel_allocate` alone would have led to. -/
structure Stage (U : ℕ → Prop) (s : Kernel) (bs : List Block) (dirs tables : List ℕ) (s' : Kernel)
    (bs' : List Block) (tables' free : List ℕ) (r : Ram) : Prop where
  space : SpaceInv U s' bs' dirs tables' free
  ext : Extends U dirs tables tables' s s' bs bs'
  same : SameMaps U dirs s s'
  plain : HeapInv ⟨r, s'.live⟩ bs'

namespace Stage

/-- Before its first call `create_process` is at the stage where nothing is allocated. -/
theorem start (h : SpaceInv U s bs dirs tables free) :
    Stage U s bs dirs tables s bs tables free s.ram :=
  ⟨h, Extends.refl s, fun _ _ _ _ => rfl, h.heap⟩

/-- **A call of the allocator** returns what it returns without the other writes. -/
theorem allocate (h : Stage U s bs dirs tables s' bs' tables free r)
    (hcall : kernelAllocate r n = some (q, r')) (hq : q ≠ 0) (hn : n + 1 < 2 ^ 31) :
    ∃ r₁ bs'', s'.allocate n = some (q, { s' with ram := r₁, live := (q, n) :: s'.live }) ∧
      Stage U s bs dirs tables { s' with ram := r₁, live := (q, n) :: s'.live } bs'' tables
        free r' ∧
      Granted ⟨s'.ram, s'.live⟩ r₁ bs' bs'' q n ∧ q ∉ dirs ++ tables ∧
      ∀ x, q ≤ x → x < q + n → r₁.byte x = s.ram.byte x := by
  obtain ⟨q', r₁, r₁', hactual, hplain, hgrant⟩ := h.space.heap.allocate_same h.plain hn
  rw [hcall] at hplain
  obtain ⟨rfl, rfl⟩ := Prod.mk.inj (Option.some.inj hplain)
  obtain ⟨hzero, -⟩ | ⟨-, bs'', hgrant, hgrant'⟩ := hgrant
  · exact absurd hzero hq
  · obtain ⟨hspace, hext, hsame, hfresh⟩ := h.space.grant hgrant rfl
    refine ⟨r₁, bs'', ?_,
      ⟨hspace, h.ext.trans hext (fun _ hd => hd) fun _ hd hnot => absurd hd hnot,
      h.same.trans hsame, hgrant'.heap⟩, hgrant, hfresh, fun x hx hx' => ?_⟩
    · exact Kernel.allocate_of_ne hactual hq
    · obtain ⟨hbyte, he⟩ := hgrant.payload x hx hx'
      exact he.trans (h.ext.unused x hbyte).2

/-- **A write to a new block** that is neither a directory nor a table. -/
theorem own (h : Stage U s bs dirs tables s' bs' tables' free r) {lo hi : ℕ}
    (halters : Alters lo hi s' s'') (hq : (q, n) ∈ s'.live) (hnew : ∀ m, (q, m) ∉ s.live)
    (hnot : q ∉ dirs ++ tables') (hlo : q ≤ lo) (hhi : hi ≤ q + n) :
    Stage U s bs dirs tables s'' bs' tables' free r ∧ s''.live = s'.live := by
  have hin : ∀ x, ¬ (q ≤ x ∧ x < q + n) → s''.ram.byte x = s'.ram.byte x :=
    fun x hx => halters.outside x (by omega)
  have hlive : s''.live = s'.live := by rw [halters.only]
  obtain ⟨hspace, hentry, hunused⟩ := h.space.harmless (r := s''.ram) fun x hx =>
    hin x fun ⟨hqx, hxq⟩ => hx (Or.inl ⟨q, n, hq, hnot, hqx, hxq⟩)
  rw [← halters.only] at hspace
  have hstart := (h.space.heap.live_bounds hq).1
  refine ⟨⟨hspace, ⟨fun x hx => hlive.symm ▸ h.ext.live x hx, h.ext.fresh,
    fun x hx => (hin x (by omega)).trans (h.ext.image x hx), fun m k hm hmd hmt x hmx hxm => ?_,
    fun d hd i hi hU => (hentry d (List.mem_append_left _ hd) i hi).trans (h.ext.dir d hd i hi hU),
    fun x hx => ⟨(h.ext.unused x hx).1, (hunused x hx).trans (h.ext.unused x hx).2⟩, ?_, ?_, ?_⟩,
    fun d hd k hk => (h.space.mapped.pageOf_congr hentry hd hk).trans (h.same d hd k hk),
    hlive.symm ▸ h.plain⟩, hlive⟩
  · have happart := h.space.heap.live_apart hq (h.ext.live _ hm) fun he => hnew k (he ▸ hm)
    exact (hin x (by omega)).trans (h.ext.block m k hm hmd hmt x hmx hxm)
  · rw [halters.only]
    exact h.ext.processes
  · rw [halters.only]
    exact h.ext.currentProcess
  · rw [halters.only]
    exact h.ext.cr3

end Stage

/-! ### The descriptor and the directory -/

/-- The first part of `create_process`, up to the calls of `allocate_page`. -/
def beginProcess (kernelMemory : ℕ) (s : Kernel) (eip : ℕ) : Option (ℕ × ℕ × Kernel) := do
  let (p, s) ← s.allocate processDescSize
  let s := writeFields s p (initialFields eip)
  let (stack, s) ← s.allocate 4096
  let s := s.write32 (p + esp0Offset) (wrap32 (stack + 4092))
  let (directory, s) ← s.allocate 4096
  let s := s.write32 (p + pageDirectoryOffset) directory
  pure (p, directory, copyKernelHalf s kernelMemory directory 256)

/-- The last part of `create_process`, after the calls of `allocate_page`. -/
def finishProcess (kernelMemory p directory : ℕ) (s : Kernel) : Option Kernel := do
  let s ← writeProgram (s.enablePaging (sub32 directory kernelBase))
  let s := s.enablePaging (sub32 kernelMemory kernelBase)
  let s := { s with ram := s.ram.store (p + stateOffset) 0 }
  let s := queueProcess s p
  pure { s with processes := (p, directory) :: s.processes }

/-- `create_process` is `beginProcess`, the two mapped pages and `finishProcess`. -/
theorem createProcess_eq (kernelMemory : ℕ) (s : Kernel) (eip : ℕ) :
    s.createProcess kernelMemory eip = (beginProcess kernelMemory s eip).bind fun x =>
      (allocatePage x.2.2 x.2.1 (kernelBase - 4096)).bind fun s =>
        (allocatePage s x.2.1 0).bind (finishProcess kernelMemory x.1 x.2.1) := by
  simp only [Kernel.createProcess, beginProcess, Option.bind_eq_bind, Option.bind_assoc,
    Option.pure_def, Option.bind_some]
  rfl

/-- **The descriptor** gets its block and its initial fields. -/
theorem Stage.descriptor (h : SpaceInv U s bs dirs tables free)
    (hp : kernelAllocate s.ram processDescSize = some (p, r)) (hp₀ : p ≠ 0) :
    ∃ u bs', s.allocate processDescSize = some (p, u) ∧
      Stage U s bs dirs tables (writeFields u p (initialFields eip)) bs' tables free r ∧
      (writeFields u p (initialFields eip)).live = (p, processDescSize) :: s.live ∧
      p ∉ dirs ++ tables ∧ ∀ m, (p, m) ∉ s.live := by
  have hsize : processDescSize = 85 := rfl
  obtain ⟨r₁, bs', hcall, h', hgrant, hnot, -⟩ :=
    (Stage.start h).allocate hp hp₀ (by rw [hsize]; decide)
  obtain ⟨h'', hlive⟩ := h'.own (Alters.writeFields (initialFields_offset eip)) List.mem_cons_self
    hgrant.fresh hnot (le_refl p) (by omega)
  exact ⟨_, bs', hcall, h'', hlive, hnot, hgrant.fresh⟩

/-- **A block for the new process**, whose address is written to the descriptor at `p`: the content
of the block is what it was before. -/
theorem Stage.allocateField {o w : ℕ} (h : Stage U s bs dirs tables s' bs' tables free r)
    (hp : (p, processDescSize) ∈ s'.live) (hnew : ∀ m, (p, m) ∉ s.live) (hnot : p ∉ dirs ++ tables)
    (hcall : kernelAllocate r n = some (q, r')) (hq : q ≠ 0) (hn : n + 1 < 2 ^ 31)
    (ho : o + 4 ≤ processDescSize) :
    ∃ u bs'', s'.allocate n = some (q, u) ∧
      Stage U s bs dirs tables (u.write32 (p + o) w) bs'' tables free r' ∧
      (u.write32 (p + o) w).live = (q, n) :: s'.live ∧ q ∉ dirs ++ tables ∧
      (∀ m, (q, m) ∉ s'.live) ∧
      ∀ x, q ≤ x → x < q + n → (u.write32 (p + o) w).ram.byte x = s.ram.byte x := by
  obtain ⟨r₁, bs'', hallocate, h₁, hgrant, hfresh, hcontent⟩ := h.allocate hcall hq hn
  set u : Kernel := { s' with ram := r₁, live := (q, n) :: s'.live } with hu
  have hmem : (p, processDescSize) ∈ u.live := List.mem_cons_of_mem _ hp
  have halters : Alters (p + o) (p + o + 4) u (u.write32 (p + o) w) :=
    Alters.write32 (le_refl _) (le_refl _)
  obtain ⟨h₂, hlive⟩ := h₁.own halters hmem hnew hnot (Nat.le_add_right p o) (by omega)
  have happart := h₁.space.heap.live_apart hmem List.mem_cons_self
    fun he => hgrant.fresh _ (he ▸ hp)
  exact ⟨u, bs'', hallocate, h₂, hlive, hfresh, hgrant.fresh, fun x hx hx' =>
    (halters.outside x (by omega)).trans (hcontent x hx hx')⟩

/-- **The kernel half** is copied to a new block; the rest of the block stays what it was. -/
theorem Stage.kernelHalf (hplace : KernelPlace kernelMemory)
    (hmapped : KernelMapped kernelMemory s.ram.byte)
    (h : Stage U s bs dirs tables s' bs' tables free r) (hd : (d, 4096) ∈ s'.live)
    (hnew : ∀ m, (d, m) ∉ s.live) (hnot : d ∉ dirs ++ tables) :
    Stage U s bs dirs tables (copyKernelHalf s' kernelMemory d 256) bs' tables free r ∧
      (copyKernelHalf s' kernelMemory d 256).live = s'.live ∧
      (∀ i < 256, Mem.entry (copyKernelHalf s' kernelMemory d 256).ram.byte d (i + 768)
        = pde4mib 1 i) ∧
      Alters (d + 3072) (d + 4096) s' (copyKernelHalf s' kernelMemory d 256) := by
  have hstart := (h.space.heap.live_bounds hd).1
  obtain ⟨halters, hcopy⟩ := @copyKernelHalf_spec s' kernelMemory d 256 (le_refl _)
    (hplace.below.trans hstart.le)
  obtain ⟨h', hlive⟩ := h.own halters hd hnew hnot (by omega) (le_refl _)
  refine ⟨h', hlive, fun i hi => ?_, halters⟩
  rw [hcopy i hi]
  exact (hmapped.congr hplace fun x _ hx => h.ext.image x hx).kernel i hi

/-- **The descriptor and the directory**: the entries of the directory below the kernel half are
what was in the block before, and the kernel half is that of `kernel_memory`. -/
theorem beginProcess_spec {stack : ℕ} {r₁ r₂ r₃ : Ram} (hplace : KernelPlace kernelMemory)
    (hmapped : KernelMapped kernelMemory s.ram.byte) (h : SpaceInv U s bs dirs tables free)
    (hp : kernelAllocate s.ram processDescSize = some (p, r₁)) (hp₀ : p ≠ 0)
    (hstack : kernelAllocate r₁ 4096 = some (stack, r₂)) (hstack₀ : stack ≠ 0)
    (hd : kernelAllocate r₂ 4096 = some (d, r₃)) (hd₀ : d ≠ 0) :
    ∃ s' bs', beginProcess kernelMemory s eip = some (p, d, s') ∧
      Stage U s bs dirs tables s' bs' tables free r₃ ∧
      s'.live = (d, 4096) :: (stack, 4096) :: (p, processDescSize) :: s.live ∧ d ∉ dirs ++ tables ∧
      (∀ i < 768, Mem.entry s'.ram.byte d i = Mem.entry s.ram.byte d i) ∧
      (∀ i < 256, Mem.entry s'.ram.byte d (i + 768) = pde4mib 1 i) ∧
      s'.read32 (p + pageDirectoryOffset) = d := by
  -- each stage allocates the next block
  obtain ⟨u₁, _, hcall₁, h₁, hlive₁, hpnot, hpnew⟩ := @Stage.descriptor _ _ _ _ _ _ _ eip _ h hp hp₀
  have hpmem₁ := hlive₁ ▸ List.mem_cons_self
  obtain ⟨u₂, _, hcall₂, h₂, hlive₂, -⟩ := @Stage.allocateField _ _ _ _ _ _ _ _ _ _ _ _ _ esp0Offset
    (wrap32 (stack + 4092)) h₁ hpmem₁ hpnew hpnot hstack hstack₀ (by simp) (by decide)
  have hpmem₂ := hlive₂ ▸ List.mem_cons_of_mem (stack, 4096) hpmem₁
  obtain ⟨u₃, _, hcall₃, h₃, hlive₃, hdnot, hdfresh, hcontent⟩ :=
    @Stage.allocateField _ _ _ _ _ _ _ _ _ _ _ _ _ pageDirectoryOffset d h₂ hpmem₂
      hpnew hpnot hd hd₀ (by simp) (by decide)
  have hdmem := hlive₃ ▸ List.mem_cons_self
  have hdnew : ∀ m, (d, m) ∉ s.live := fun m hm => by
    refine hdfresh m ?_
    rw [hlive₂, hlive₁]
    exact List.mem_cons_of_mem _ (List.mem_cons_of_mem _ hm)
  obtain ⟨h₄, hlive₄, hhigh, halters⟩ :=
    Stage.kernelHalf hplace hmapped h₃ hdmem hdnew hdnot
  have happart := h₃.space.heap.live_apart (hlive₃ ▸ List.mem_cons_of_mem _ hpmem₂) hdmem
    fun he => hdfresh processDescSize (he ▸ hpmem₂)
  refine ⟨_, _, ?_, h₄, by rw [hlive₄, hlive₃, hlive₂, hlive₁], hdnot, fun i hi => ?_, hhigh, ?_⟩
  · rw [beginProcess]
    simp only [Option.bind_eq_bind, hcall₁, hcall₂, hcall₃, Option.bind_some, Option.pure_def]
  · have hlow : 4 * i + 4 ≤ 3072 := entry_low_le hi
    refine Mem.read32_congr fun x hx hx' => ?_
    rw [halters.outside x (by omega)]
    exact hcontent x (by omega) (by omega)
  · have hsize : processDescSize = 85 ∧ pageDirectoryOffset = 72 := ⟨rfl, rfl⟩
    rw [halters.read32 (by omega)]
    exact (Mem.read32_write32_self _ _ _).trans (Nat.mod_eq_of_lt (by
      have hlast := kernelHeap_last
      have hbounds := h₃.space.heap.live_bounds hdmem
      omega))

/-! ### The program -/

/-- Loading `cr3` leaves the address spaces as they are. -/
theorem SpaceInv.enablePaging (h : SpaceInv U s bs dirs tables free) (a : ℕ) :
    SpaceInv U (s.enablePaging a) bs dirs tables free :=
  ⟨h.heap, h.mapped, h.live, h.chain, h.frame, h.apart⟩

/-- The first page of the address space in use is the frame `b`, which is not on the free list. -/
structure FirstPage (U : ℕ → Prop) (s : Kernel) (bs : List Block) (dirs tables free : List ℕ)
    (d b : ℕ) : Prop where
  space : SpaceInv U s bs dirs tables free
  dir : d ∈ dirs
  index : U 0
  cr3 : s.cr3.headD 0 = sub32 d kernelBase
  page : pageOf s.ram.byte d 0 = some (b + pageOffset)
  frame : IsPage b
  below : b < kernelBase
  taken : b ∉ free

namespace FirstPage

variable {b k : ℕ} {v : UInt8}

/-- Writes to the page are harmless. -/
theorem harmless (h : FirstPage U s bs dirs tables free d b) (halters : Alters b (b + 4096) s s') :
    SpaceInv U s' bs dirs tables free ∧
      ∀ q ∈ dirs ++ tables, ∀ i < 1024, Mem.entry s'.ram.byte q i = Mem.entry s.ram.byte q i := by
  have hbelow := h.below
  have hbdvd := h.frame.dvd
  rw [kernelBase_eq] at hbelow
  obtain ⟨hspace, hentry, -⟩ := h.space.harmless (r := s'.ram) fun x hx => halters.outside x (by
    by_contra hin
    refine hx (Or.inr ⟨by rw [kernelBase_eq]; omega, fun a ha => ?_⟩)
    have hadvd := (h.space.frame a ha).1.dvd
    have hne : a ≠ b := fun he => h.taken (he ▸ ha)
    omega)
  rw [← halters.only] at hspace
  exact ⟨hspace, hentry⟩

/-- A change inside the program's frame keeps the program's first page. -/
theorem alters (h : FirstPage U s bs dirs tables free d b) (halters : Alters b (b + 4096) s s') :
    FirstPage U s' bs dirs tables free d b := by
  obtain ⟨hspace, hentry⟩ := h.harmless halters
  refine ⟨hspace, h.dir, h.index, ?_, ?_, h.frame, h.below, h.taken⟩
  · rw [halters.only]
    exact h.cr3
  · rw [h.space.mapped.pageOf_congr hentry h.dir h.index]
    exact h.page

/-- A write below 4 KiB goes to the program's first frame, and nowhere else. -/
theorem writeLinear (h : FirstPage U s bs dirs tables free d b) (hk : k < 4096) :
    ∃ s', LoofOS.writeLinear s k v = some s' ∧ Alters b (b + 4096) s s' := by
  have hzero : k / 2 ^ 12 = 0 := Nat.div_eq_of_lt hk
  have hindex : U (k / 2 ^ 22) := by
    rw [show k / 2 ^ 22 = 0 from Nat.div_eq_of_lt (by omega)]
    exact h.index
  have htranslate : translate s.ram.byte (s.cr3.headD 0) k
      = some ⟨b + pageOffset + k % 2 ^ 12, true, true⟩ := by
    rw [h.cr3, h.space.mapped.translate_eq h.dir hindex, hzero, h.page, Option.map_some]
  have hbelow := h.below
  have haddr : wrap32 (b + pageOffset + k % 2 ^ 12 + kernelBase) = b + k := by
    rw [kernelBase_eq] at hbelow
    rw [show k % 2 ^ 12 = k from Nat.mod_eq_of_lt hk, wrap32, pageOffset, kernelBase_eq]
    omega
  refine ⟨{ s with ram := s.ram.store (b + k) v }, ?_, Alters.store (by omega) (by omega)⟩
  rw [LoofOS.writeLinear, htranslate, Option.map_some, haddr]

/-- **The program** is written to the first page. -/
theorem writeProgram (h : FirstPage U s bs dirs tables free d b) :
    ∃ s', LoofOS.writeProgram s = some s' ∧ Alters b (b + 4096) s s' := by
  obtain ⟨s₁, hw₁, ha₁⟩ := h.writeLinear (k := 0) (v := 0xe9) (by simp)
  obtain ⟨s₂, hw₂, ha₂⟩ := (h.alters ha₁).writeLinear (k := 1) (v := 0xfb) (by simp)
  have ha₂ := ha₁.trans ha₂
  obtain ⟨s₃, hw₃, ha₃⟩ := (h.alters ha₂).writeLinear (k := 2) (v := 0xff) (by simp)
  have ha₃ := ha₂.trans ha₃
  obtain ⟨s₄, hw₄, ha₄⟩ := (h.alters ha₃).writeLinear (k := 3) (v := 0xff) (by simp)
  have ha₄ := ha₃.trans ha₄
  obtain ⟨s₅, hw₅, ha₅⟩ := (h.alters ha₄).writeLinear (k := 4) (v := 0xff) (by simp)
  refine ⟨s₅, ?_, ha₄.trans ha₅⟩
  rw [LoofOS.writeProgram]
  simp only [Option.bind_eq_bind, hw₁, hw₂, hw₃, hw₄, hw₅, Option.bind_some]

end FirstPage

/-- Without a first page there is a page fault. -/
theorem writeProgram_eq_none (h : translate s.ram.byte (s.cr3.headD 0) 0 = none) :
    writeProgram s = none := by
  rw [writeProgram, writeLinear, h]
  rfl

/-! ### The queue -/

/-- The descriptors of the queue, as far as `create_process` follows its links. -/
structure Queue (s : Kernel) (descriptors : List ℕ) : Prop where
  apart : ∀ q ∈ descriptors, ∀ q' ∈ descriptors, q ≠ q' → q + 85 ≤ q' ∨ q' + 85 ≤ q
  lt : ∀ q ∈ descriptors, q < 2 ^ 32
  prev : ∀ q ∈ descriptors, s.read32 (q + prevOffset) ∈ descriptors
  current : (s.currentProcess = 0 ∧ descriptors = []) ∨ s.currentProcess ∈ descriptors

/-- A memory write is not a change of the variable `current_process`. -/
@[simp] theorem Kernel.write32_currentProcess (s : Kernel) (a w : ℕ) :
    (s.write32 a w).currentProcess = s.currentProcess := rfl

/-- Descriptors that do not overlap. -/
structure Separate (descriptors : List ℕ) : Prop where
  apart : ∀ q ∈ descriptors, ∀ q' ∈ descriptors, q ≠ q' → q + 85 ≤ q' ∨ q' + 85 ≤ q
  lt : ∀ q ∈ descriptors, q < 2 ^ 32

namespace Separate

variable {descriptors : List ℕ} {q' w : ℕ}

/-- A descriptor apart from the others joins them. -/
theorem cons (h : Separate descriptors) (hp : p < 2 ^ 32)
    (happart : ∀ q ∈ descriptors, p + 85 ≤ q ∨ q + 85 ≤ p) : Separate (p :: descriptors) := by
  refine ⟨fun q hq q' hq' hne => ?_, fun q hq => ?_⟩
  · rcases List.mem_cons.mp hq with rfl | hold <;> rcases List.mem_cons.mp hq' with rfl | hold'
    · exact absurd rfl hne
    · exact happart q' hold'
    · exact (happart q hold).symm
    · exact h.apart q hold q' hold' hne
  · rcases List.mem_cons.mp hq with rfl | hold
    · exact hp
    · exact h.lt q hold

/-- A link `next` is no link `prev`. -/
theorem prev_write_next (h : Separate descriptors) (t : Kernel) (hq : q ∈ descriptors)
    (hq' : q' ∈ descriptors) :
    (t.write32 (q + nextOffset) w).read32 (q' + prevOffset) = t.read32 (q' + prevOffset) := by
  have hprevOffset : prevOffset = 76 := rfl
  have hnextOffset : nextOffset = 80 := rfl
  refine Mem.read32_write32_of_disjoint ?_
  by_cases he : q = q'
  · omega
  · have := h.apart q hq q' hq' he
    omega

/-- A written `prev` link is the one that changes. -/
theorem prev_write_prev (h : Separate descriptors) (t : Kernel) (hq : q ∈ descriptors)
    (hq' : q' ∈ descriptors) (hw : w < 2 ^ 32) :
    (t.write32 (q + prevOffset) w).read32 (q' + prevOffset)
      = if q' = q then w else t.read32 (q' + prevOffset) := by
  have hprevOffset : prevOffset = 76 := rfl
  by_cases he : q' = q
  · rw [if_pos he, he]
    exact (Mem.read32_write32_self _ _ _).trans (Nat.mod_eq_of_lt hw)
  · rw [if_neg he]
    refine Mem.read32_write32_of_disjoint ?_
    have := h.apart q' hq' q hq he
    omega

/-- **The writes to the links**: `c` is the current process and `l` the last of its ring. -/
theorem queueProcess_eq {c l : ℕ} (h : Separate descriptors) (hp : p ∈ descriptors)
    (hc : c ∈ descriptors) (hl : l ∈ descriptors) (hcp : c ≠ p) (hnull : c ≠ 0)
    (hcurrent : s.currentProcess = c) (hlast : s.read32 (c + prevOffset) = l) :
    queueProcess s p = (((s.write32 (p + nextOffset) c).write32 (p + prevOffset) l).write32
      (l + nextOffset) p).write32 (c + prevOffset) p := by
  have hread₁ : (s.write32 (p + nextOffset) c).read32 (c + prevOffset) = l :=
    (h.prev_write_next s hp hc).trans hlast
  have hread₂ : ((s.write32 (p + nextOffset) c).write32 (p + prevOffset) l).read32
      (c + prevOffset) = l := by
    rw [h.prev_write_prev _ hp hc (h.lt l hl), if_neg hcp, hread₁]
  rw [queueProcess, if_neg (hcurrent ▸ hnull)]
  simp only [Kernel.write32_currentProcess, hcurrent, hread₁, hread₂]

end Separate

/-- **A descriptor is put into the queue**: only links of descriptors are written. -/
theorem queueProcess_spec {descriptors : List ℕ} (h : Queue s descriptors) (hp : p < 2 ^ 32)
    (hnull : 0 ∉ descriptors) (hnot : p ∉ descriptors)
    (happart : ∀ q ∈ descriptors, p + 85 ≤ q ∨ q + 85 ≤ p) :
    Queue (queueProcess s p) (p :: descriptors) ∧
      queueProcess s p = { s with
        ram := (queueProcess s p).ram
        currentProcess := (queueProcess s p).currentProcess } ∧
      ∀ x, (∀ q ∈ p :: descriptors, x < q + prevOffset ∨ q + stateOffset ≤ x) →
        (queueProcess s p).ram.byte x = s.ram.byte x := by
  have hprevOffset : prevOffset = 76 := rfl
  have hnextOffset : nextOffset = 80 := rfl
  have hstateOffset : stateOffset = 84 := rfl
  have hsep : Separate (p :: descriptors) := Separate.cons ⟨h.apart, h.lt⟩ hp happart
  have hpmem : p ∈ p :: descriptors := List.mem_cons_self
  by_cases hcurrent : s.currentProcess = 0
  · obtain rfl : descriptors = [] :=
      h.current.elim And.right fun hmem => absurd (hcurrent ▸ hmem) hnull
    have heq : queueProcess s p
        = ({ s with currentProcess := p }.write32 (p + nextOffset) p).write32 (p + prevOffset) p :=
      if_pos hcurrent
    rw [heq]
    refine ⟨⟨hsep.apart, hsep.lt, fun q hq => ?_, Or.inr hpmem⟩, rfl, fun x hx => ?_⟩
    · rw [hsep.prev_write_prev _ hpmem hq hp, if_pos (List.mem_singleton.mp hq)]
      exact hpmem
    · have hx := hx p hpmem
      exact (Mem.write32_of_outside (by omega)).trans (Mem.write32_of_outside (by omega))
  · have hcold : s.currentProcess ∈ descriptors :=
      h.current.elim (fun hand => absurd hand.1 hcurrent) id
    obtain ⟨c, hc⟩ : ∃ c, s.currentProcess = c := ⟨_, rfl⟩
    obtain ⟨l, hl⟩ : ∃ l, s.read32 (c + prevOffset) = l := ⟨_, rfl⟩
    rw [hc] at hcold hcurrent
    have hcmem : c ∈ p :: descriptors := List.mem_cons_of_mem _ hcold
    have hlmem : l ∈ p :: descriptors := List.mem_cons_of_mem _ (hl ▸ h.prev c hcold)
    rw [hsep.queueProcess_eq hpmem hcmem hlmem (fun he => hnot (he ▸ hcold)) hcurrent hc hl]
    refine ⟨⟨hsep.apart, hsep.lt, fun q hq => ?_, Or.inr (hc ▸ hcmem)⟩, rfl, fun x hx => ?_⟩
    · rw [hsep.prev_write_prev _ hcmem hq hp, hsep.prev_write_next _ hlmem hq,
        hsep.prev_write_prev _ hpmem hq (hsep.lt l hlmem), hsep.prev_write_next s hpmem hq]
      split_ifs with hqc hqp
      · exact hpmem
      · exact hlmem
      · exact List.mem_cons_of_mem _ (h.prev q ((List.mem_cons.mp hq).resolve_left hqp))
    · have hxp := hx p hpmem
      have hxc := hx c hcmem
      have hxl := hx l hlmem
      exact (Mem.write32_of_outside (by omega)).trans <|
        (Mem.write32_of_outside (by omega)).trans <|
        (Mem.write32_of_outside (by omega)).trans (Mem.write32_of_outside (by omega))

end LoofOS
