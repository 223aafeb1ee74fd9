import LoofOS.KernelHalf

/-!
# What `allocate_page` Does

`allocate_page` on page directories with arbitrary flags in their entries. `PageState` is what it
relies on: the free list is a chain of frames, and the entries of the directories below
`KERNEL_BASE` lead to tables of their own. Either nothing changes (`Refused`), or the frame at the
head of the free list is mapped at the address, and every other address of every directory is mapped
as before (`PageMapped`).

## Main results

* `translate_congr`: translation depends on two entries.
* `PageState.addTable`, `PageState.setPage`: the two assignments of `allocate_page`.
* `allocatePage_spec`: `allocate_page`.
-/

namespace LoofOS

open LinkedChain

/-! ### Entries that lead to tables -/

/-- An entry of a directory leads to a table: it is present and is no page of 4 MiB. -/
structure LeadsTo (m : Mem) (d i t : ℕ) : Prop where
  present : entryPresent (Mem.entry m d i) = true
  small : entryPs (Mem.entry m d i) = false
  pointed : pointed (Mem.entry m d i) = t

section Translate

variable {m m' : Mem} {d i t addr : ℕ}

theorem isPage_pointed (w : ℕ) : IsPage (pointed w) := by
  refine ⟨?_, Nat.mod_lt _ (Nat.two_pow_pos 32)⟩
  rw [pointed, wrap32, kernelBase_eq]
  omega

/-- What an entry leads to is a page. -/
theorem LeadsTo.isPage (h : LeadsTo m d i t) : IsPage t := h.pointed ▸ isPage_pointed _

/-- An entry leads to one table. -/
theorem LeadsTo.unique {u : ℕ} (h : LeadsTo m d i t) (h' : LeadsTo m d i u) : t = u :=
  h.pointed.symm.trans h'.pointed

/-- The same entry leads to the same table. -/
theorem LeadsTo.congr (h : LeadsTo m d i t) (he : Mem.entry m' d i = Mem.entry m d i) :
    LeadsTo m' d i t :=
  ⟨he ▸ h.present, he ▸ h.small, he ▸ h.pointed⟩

/-- An entry built for a table leads to it. -/
theorem leadsTo_pageEntry (ht : IsPage t) (he : Mem.entry m d i = pageEntry t) : LeadsTo m d i t :=
  ⟨he ▸ entryPresent_pageEntry t, he ▸ entryPs_pageEntry t, he ▸ pointed_pageEntry ht⟩

/-- The processor finds the entries of a table at the address of the kernel for it. -/
theorem readPhysical_pointed {w j : ℕ} (hj : j < 1024) :
    readPhysical m (entryAddr w * 2 ^ 12 + 4 * j) = Mem.entry m (pointed w) j := by
  have haddr : wrap32 (entryAddr w * 2 ^ 12 + 4 * j + kernelBase) = pointed w + 4 * j := by
    rw [pointed, wrap32, wrap32, kernelBase_eq]
    omega
  rw [readPhysical, haddr, Mem.entry]

/-- The directory entry as the processor's translation reads it. -/
theorem readPhysical_pde (hd : IsPage d) (haddr : addr < 2 ^ 32) :
    readPhysical m (sub32 d kernelBase / 2 ^ 12 * 2 ^ 12 + 4 * (addr / 2 ^ 22))
      = Mem.entry m d (addr / 2 ^ 22) := by
  rw [hd.physical]
  exact readPhysical_entry hd (by omega)

/-- No address is translated where the directory has no table. -/
theorem translate_of_not_present (hd : IsPage d) (haddr : addr < 2 ^ 32)
    (hnot : entryPresent (Mem.entry m d (addr / 2 ^ 22)) = false) :
    translate m (sub32 d kernelBase) addr = none := by
  rw [translate, readPhysical_pde hd haddr]
  simp only [hnot, Bool.false_eq_true, if_false]

/-- Translation through a table. -/
theorem translate_of_leadsTo (hd : IsPage d) (haddr : addr < 2 ^ 32)
    (h : LeadsTo m d (addr / 2 ^ 22) t) : translate m (sub32 d kernelBase) addr =
      if entryPresent (Mem.entry m t (addr / 2 ^ 12 % 2 ^ 10)) then
        some {
          physical := entryAddr (Mem.entry m t (addr / 2 ^ 12 % 2 ^ 10)) * 2 ^ 12 + addr % 2 ^ 12
          rw := entryRw (Mem.entry m d (addr / 2 ^ 22)) &&
            entryRw (Mem.entry m t (addr / 2 ^ 12 % 2 ^ 10))
          us := entryUs (Mem.entry m d (addr / 2 ^ 22)) &&
            entryUs (Mem.entry m t (addr / 2 ^ 12 % 2 ^ 10)) }
      else none := by
  rw [translate, readPhysical_pde hd haddr]
  simp only [h.present, h.small, if_true, Bool.false_eq_true, if_false]
  rw [readPhysical_pointed (tableIndex_lt addr), h.pointed]

/-- **Translation depends on two entries.** -/
theorem translate_congr (hd : IsPage d) (haddr : addr < 2 ^ 32)
    (hpde : Mem.entry m' d (addr / 2 ^ 22) = Mem.entry m d (addr / 2 ^ 22))
    (hpte : ∀ t, LeadsTo m d (addr / 2 ^ 22) t →
      Mem.entry m' t (addr / 2 ^ 12 % 2 ^ 10) = Mem.entry m t (addr / 2 ^ 12 % 2 ^ 10)) :
    translate m' (sub32 d kernelBase) addr = translate m (sub32 d kernelBase) addr := by
  by_cases hpresent : entryPresent (Mem.entry m d (addr / 2 ^ 22)) = true
  · by_cases hsmall : entryPs (Mem.entry m d (addr / 2 ^ 22)) = true
    · rw [translate, translate, readPhysical_pde hd haddr, readPhysical_pde hd haddr, hpde]
      simp only [hpresent, hsmall, if_true]
    · have hlead : LeadsTo m d (addr / 2 ^ 22) _ := ⟨hpresent, Bool.eq_false_iff.mpr hsmall, rfl⟩
      rw [translate_of_leadsTo hd haddr hlead, translate_of_leadsTo hd haddr (hlead.congr hpde),
        hpde, hpte _ hlead]
  · rw [Bool.not_eq_true] at hpresent
    rw [translate_of_not_present hd haddr hpresent,
      translate_of_not_present hd haddr (hpde ▸ hpresent)]

end Translate

/-! ### The state of the page allocator -/

/-- What `allocate_page` relies on. The free list is a chain of frames. The directories are pages of
the kernel. Their entries below `KERNEL_BASE` lead to tables in the memory of the kernel, which are
no directories and to which no other one of the first `n` entries of a directory leads. -/
structure PageState (n : ℕ) (s : Kernel) (dirs free : List ℕ) (bottom : ℕ) : Prop where
  chain : Chain s.read32 s.pageFreelist free bottom
  bottom : kernelBase ≤ bottom
  nodup : free.Nodup
  frame : ∀ a ∈ free, 4096 ∣ a ∧ a < kernelBase
  dir : ∀ d ∈ dirs, IsPage d ∧ kernelBase ≤ d
  above : ∀ d ∈ dirs, ∀ i < 768, ∀ t, LeadsTo s.ram.byte d i t → kernelBase ≤ t
  apart : ∀ d ∈ dirs, ∀ i < n, ∀ t, LeadsTo s.ram.byte d i t → t ∉ dirs
  once : ∀ d ∈ dirs, ∀ d' ∈ dirs, ∀ i < 768, ∀ i' < n, ∀ t, LeadsTo s.ram.byte d i t →
    LeadsTo s.ram.byte d' i' t → d = d' ∧ i = i'

/-- `kernel_allocate` returns a page that is a new table: aligned, of zeros, and neither a directory
nor a table; and it leaves the directories, the tables and the free frames alone. -/
structure FreshTable (s : Kernel) (dirs free : List ℕ) (t : ℕ) (r : Ram) : Prop where
  call : kernelAllocate s.ram 4096 = some (t, r)
  page : IsPage t
  above : kernelBase ≤ t
  notDir : t ∉ dirs
  notTable : ∀ d ∈ dirs, ∀ i < 1024, ¬ LeadsTo s.ram.byte d i t
  zero : ∀ j < 1024, Mem.entry r.byte t j = 0
  dir : ∀ d ∈ dirs, ∀ i < 1024, Mem.entry r.byte d i = Mem.entry s.ram.byte d i
  table : ∀ d ∈ dirs, ∀ i < 1024, ∀ u, LeadsTo s.ram.byte d i u → ∀ j < 1024,
    Mem.entry r.byte u j = Mem.entry s.ram.byte u j
  frame : ∀ a ∈ free, r.byte.read32 a = s.read32 a

/-- `allocate_page` has no frame, or no business at the address: it belongs to the kernel, or to a
page of 4 MiB, or has a page. -/
def Refused (s : Kernel) (free : List ℕ) (d addr : ℕ) : Prop :=
  let pde := Mem.entry s.ram.byte d (addr / 2 ^ 22)
  free = [] ∨ kernelBase ≤ addr ∨ (entryPresent pde = true ∧ (entryPs pde = true ∨
    entryPresent (Mem.entry s.ram.byte (pointed pde) (addr / 2 ^ 12 % 2 ^ 10)) = true))

/-- The frame `a` is mapped at an address of the directory `d`, for everybody to read and write.
The entry of the directory has changed only if it was not present; no other entry has changed, and
every other address of every directory is translated as before. -/
structure PageMapped (s s' : Kernel) (dirs : List ℕ) (d addr a : ℕ) : Prop where
  pte : ∃ t, LeadsTo s'.ram.byte d (addr / 2 ^ 22) t ∧
    Mem.entry s'.ram.byte t (addr / 2 ^ 12 % 2 ^ 10) = pte4kib ((a + pageOffset) / 2 ^ 12)
  pde : Mem.entry s'.ram.byte d (addr / 2 ^ 22) = Mem.entry s.ram.byte d (addr / 2 ^ 22) ∨
    (entryPresent (Mem.entry s.ram.byte d (addr / 2 ^ 22)) = false ∧ ∃ t r,
      kernelAllocate s.ram 4096 = some (t, r) ∧
      Mem.entry s'.ram.byte d (addr / 2 ^ 22) = pageEntry t)
  entry : ∀ d' ∈ dirs, ∀ i < 1024, ¬ (d' = d ∧ i = addr / 2 ^ 22) →
    Mem.entry s'.ram.byte d' i = Mem.entry s.ram.byte d' i
  table : ∀ d' ∈ dirs, ∀ i < 1024, ∀ t, LeadsTo s.ram.byte d' i t → ∀ j < 1024,
    ¬ (d' = d ∧ i = addr / 2 ^ 22 ∧ j = addr / 2 ^ 12 % 2 ^ 10) →
    Mem.entry s'.ram.byte t j = Mem.entry s.ram.byte t j
  here : translate s'.ram.byte (sub32 d kernelBase) addr = some {
    physical := a + pageOffset + addr % 2 ^ 12
    rw := entryRw (Mem.entry s'.ram.byte d (addr / 2 ^ 22))
    us := entryUs (Mem.entry s'.ram.byte d (addr / 2 ^ 22)) }
  other : ∀ d' ∈ dirs, ∀ addr' < 2 ^ 32, ¬ (d' = d ∧ addr' / 2 ^ 12 = addr / 2 ^ 12) →
    translate s'.ram.byte (sub32 d' kernelBase) addr'
      = translate s.ram.byte (sub32 d' kernelBase) addr'

/-- What a call of `allocate_page` does: nothing, or it maps the head of the free list. -/
def AllocatesPage (n : ℕ) (s : Kernel) (dirs free : List ℕ) (bottom d addr : ℕ) : Prop :=
  (Refused s free d addr ∧ allocatePage s d addr = some s) ∨
    (¬ Refused s free d addr ∧ ∃ a rest s', free = a :: rest ∧
      allocatePage s d addr = some s' ∧ PageMapped s s' dirs d addr a ∧
      PageState n s' dirs rest bottom)

/-! ### The two assignments -/

/-- The table for an entry of a directory exists; nothing else has changed since `s`. -/
structure TableReady (s s' : Kernel) (dirs : List ℕ) (d i t : ℕ) : Prop where
  leads : LeadsTo s'.ram.byte d i t
  pde : Mem.entry s'.ram.byte d i = Mem.entry s.ram.byte d i ∨
    (entryPresent (Mem.entry s.ram.byte d i) = false ∧ ∃ t r,
      kernelAllocate s.ram 4096 = some (t, r) ∧ Mem.entry s'.ram.byte d i = pageEntry t)
  entry : ∀ d' ∈ dirs, ∀ i' < 1024, ¬ (d' = d ∧ i' = i) →
    Mem.entry s'.ram.byte d' i' = Mem.entry s.ram.byte d' i'
  table : ∀ d' ∈ dirs, ∀ i' < 1024, ∀ u, LeadsTo s.ram.byte d' i' u → LeadsTo s'.ram.byte d' i' u ∧
    ∀ j < 1024, Mem.entry s'.ram.byte u j = Mem.entry s.ram.byte u j
  same : ∀ d' ∈ dirs, ∀ addr < 2 ^ 32, translate s'.ram.byte (sub32 d' kernelBase) addr
    = translate s.ram.byte (sub32 d' kernelBase) addr

section Assignments

variable {s s' : Kernel} {dirs free : List ℕ} {r : Ram} {bottom d i t j a addr : ℕ}

/-- **The entry of a page** is present, for everybody to read and write. -/
theorem entryPresent_pte4kib (n : ℕ) : entryPresent (pte4kib n) = true := by
  rw [entryPresent, pte4kib, decide_eq_true_eq]
  omega

theorem entryRw_pte4kib (n : ℕ) : entryRw (pte4kib n) = true := by
  rw [entryRw, pte4kib, decide_eq_true_eq]
  omega

theorem entryUs_pte4kib (n : ℕ) : entryUs (pte4kib n) = true := by
  rw [entryUs, pte4kib, decide_eq_true_eq]
  omega

theorem entryAddr_pte4kib (n : ℕ) : entryAddr (pte4kib n) = n := by
  rw [entryAddr, pte4kib]
  omega

/-- `set_page` with the frame `a` at the head of the free list. -/
theorem setPage_of_not_present (hhead : s.pageFreelist = a) (hlt : a + pageOffset < 2 ^ 32)
    (hnot : entryPresent (Mem.entry s.ram.byte t j) = false) :
    setPage s t j = { s with
      ram := s.ram.write32 (t + 4 * j) (pte4kib ((a + pageOffset) / 2 ^ 12))
      pageFreelist := s.read32 a } := by
  rw [Mem.entry] at hnot
  rw [setPage, Kernel.read32, hnot, if_neg Bool.false_ne_true, hhead, wrap32_of_lt hlt]
  rfl

/-- A word of a frame lies below a page of the kernel. -/
theorem read32_frame {m : Mem} {p w : ℕ} (ha : 4096 ∣ a ∧ a < kernelBase) (hp : kernelBase ≤ p) :
    (m.write32 p w).read32 a = m.read32 a := by
  obtain ⟨⟨q, rfl⟩, hlt⟩ := ha
  refine Mem.read32_write32_of_disjoint (Or.inr ?_)
  rw [kernelBase_eq] at hlt hp
  omega

/-- The entries when a fresh table has been put into a directory. -/
theorem PageState.addTable_entries {m : Mem} (h : PageState 1024 s dirs free bottom) (hd : d ∈ dirs)
    (hi : i < 768) (hfresh : FreshTable s dirs free t r)
    (hm : m = r.byte.write32 (d + 4 * i) (pageEntry t)) :
    Mem.entry m d i = pageEntry t ∧
      (∀ d' ∈ dirs, ∀ k < 1024, ¬ (d' = d ∧ k = i) →
        Mem.entry m d' k = Mem.entry s.ram.byte d' k) ∧
      (∀ d' ∈ dirs, ∀ k < 1024, ∀ u, LeadsTo s.ram.byte d' k u → ∀ j < 1024,
        Mem.entry m u j = Mem.entry s.ram.byte u j) ∧
      ∀ j < 1024, entryPresent (Mem.entry m t j) = false := by
  have hi' : i < 1024 := hi.trans (by simp)
  have hdp := (h.dir d hd).1
  have hwrite : ∀ q, IsPage q → ∀ k < 1024, Mem.entry m q k =
      if q = d ∧ k = i then pageEntry t % 2 ^ 32 else Mem.entry r.byte q k := by
    intro q hq k hk
    rw [hm]
    exact Mem.entry_write32 hdp hq hi' hk
  refine ⟨?_, fun d' hd' k hk hne => ?_, fun d' hd' k hk u hlead j hj => ?_, fun j hj => ?_⟩
  · rw [hwrite d hdp i hi', if_pos ⟨rfl, rfl⟩, Nat.mod_eq_of_lt (pageEntry_lt t)]
  · rw [hwrite d' (h.dir d' hd').1 k hk, if_neg hne, hfresh.dir d' hd' k hk]
  · have hne : u ≠ d := fun he => h.apart d' hd' k hk u hlead (he ▸ hd)
    rw [hwrite u hlead.isPage j hj, if_neg fun hand => hne hand.1,
      hfresh.table d' hd' k hk u hlead j hj]
  · have hne : t ≠ d := fun he => hfresh.notDir (he ▸ hd)
    rw [hwrite t hfresh.page j hj, if_neg fun hand => hne hand.1, hfresh.zero j hj]
    rfl

/-- **A new table** is put into a directory. -/
theorem PageState.addTable (h : PageState 1024 s dirs free bottom) (hd : d ∈ dirs) (hi : i < 768)
    (hnot : entryPresent (Mem.entry s.ram.byte d i) = false) (hfresh : FreshTable s dirs free t r)
    (hram : s'.ram = r.write32 (d + 4 * i) (pageEntry t))
    (hlist : s'.pageFreelist = s.pageFreelist) :
    PageState 1024 s' dirs free bottom ∧ TableReady s s' dirs d i t ∧
      ∀ j < 1024, entryPresent (Mem.entry s'.ram.byte t j) = false := by
  have hdp := (h.dir d hd).1
  have hbyte : s'.ram.byte = r.byte.write32 (d + 4 * i) (pageEntry t) := by rw [hram, Ram.write32]
  obtain ⟨hself, hentry, htable, hzero⟩ := h.addTable_entries hd hi hfresh hbyte
  have hleads : LeadsTo s'.ram.byte d i t := leadsTo_pageEntry hfresh.page hself
  -- an entry leads to the new table or to an old one
  have hcases : ∀ d' ∈ dirs, ∀ k < 1024, ∀ u, LeadsTo s'.ram.byte d' k u →
      (d' = d ∧ k = i ∧ u = t) ∨ LeadsTo s.ram.byte d' k u := by
    intro d' hd' k hk u hlead
    by_cases he : d' = d ∧ k = i
    · obtain ⟨rfl, rfl⟩ := he
      exact Or.inl ⟨rfl, rfl, hlead.unique hleads⟩
    · exact Or.inr (hlead.congr (hentry d' hd' k hk he).symm)
  refine ⟨⟨?_, h.bottom, h.nodup, h.frame, h.dir, fun d' hd' k hk u hlead => ?_,
    fun d' hd' k hk u hlead => ?_, fun d₁ hd₁ d₂ hd₂ k₁ hk₁ k₂ hk₂ u hlead₁ hlead₂ => ?_⟩,
    ⟨hleads, Or.inr ⟨hnot, t, r, hfresh.call, hself⟩, hentry, fun d' hd' k hk u hlead => ?_,
      fun d' hd' addr haddr => ?_⟩, hzero⟩
  · rw [hlist]
    refine h.chain.congr fun b hb => ?_
    rw [Kernel.read32, hbyte,
      read32_frame (h.frame b hb) ((h.dir d hd).2.trans (Nat.le_add_right d _))]
    exact hfresh.frame b hb
  · rcases hcases d' hd' k (hk.trans (by simp)) u hlead with ⟨-, -, rfl⟩ | hold
    · exact hfresh.above
    · exact h.above d' hd' k hk u hold
  · rcases hcases d' hd' k hk u hlead with ⟨-, -, rfl⟩ | hold
    · exact hfresh.notDir
    · exact h.apart d' hd' k hk u hold
  · have hk₁' : k₁ < 1024 := hk₁.trans (by simp)
    rcases hcases d₁ hd₁ k₁ hk₁' u hlead₁ with ⟨rfl, rfl, rfl⟩ | hold₁ <;>
      rcases hcases d₂ hd₂ k₂ hk₂ _ hlead₂ with ⟨rfl, rfl, he⟩ | hold₂
    · exact ⟨rfl, rfl⟩
    · exact absurd hold₂ (hfresh.notTable d₂ hd₂ k₂ hk₂)
    · exact absurd (he ▸ hold₁) (hfresh.notTable d₁ hd₁ k₁ hk₁')
    · exact h.once d₁ hd₁ d₂ hd₂ k₁ hk₁ k₂ hk₂ u hold₁ hold₂
  · refine ⟨hlead.congr (hentry d' hd' k hk ?_), htable d' hd' k hk u hlead⟩
    rintro ⟨rfl, rfl⟩
    rw [hlead.present] at hnot
    cases hnot
  · have hindex : addr / 2 ^ 22 < 1024 := by omega
    by_cases he : d' = d ∧ addr / 2 ^ 22 = i
    · obtain ⟨rfl, rfl⟩ := he
      rw [translate_of_not_present hdp haddr hnot, translate_of_leadsTo hdp haddr hleads,
        hzero _ (tableIndex_lt addr)]
      rfl
    · exact translate_congr (h.dir d' hd').1 haddr (hentry d' hd' _ hindex he) fun u hlead =>
        htable d' hd' _ hindex u hlead _ (tableIndex_lt addr)

/-- **An entry of a table** is written: the directories stay what they are, and so do the other
tables and the other entries of this one. -/
theorem PageState.write_entry {m : Mem} {w : ℕ} (h : PageState 1024 s dirs free bottom)
    (hd : d ∈ dirs) (hi : i < 768) (hlead : LeadsTo s.ram.byte d i t) (hj : j < 1024)
    (hm : m = s.ram.byte.write32 (t + 4 * j) w) :
    Mem.entry m t j = w % 2 ^ 32 ∧
      (∀ d' ∈ dirs, ∀ k < 1024, Mem.entry m d' k = Mem.entry s.ram.byte d' k) ∧
      ∀ d' ∈ dirs, ∀ k < 1024, ∀ q, LeadsTo s.ram.byte d' k q → ∀ j' < 1024,
        ¬ (d' = d ∧ k = i ∧ j' = j) → Mem.entry m q j' = Mem.entry s.ram.byte q j' := by
  have htp := hlead.isPage
  have hwrite : ∀ q, IsPage q → ∀ k < 1024, Mem.entry m q k =
      if q = t ∧ k = j then w % 2 ^ 32 else Mem.entry s.ram.byte q k := by
    intro q hq k hk
    rw [hm]
    exact Mem.entry_write32 htp hq hj hk
  refine ⟨(hwrite t htp j hj).trans (if_pos ⟨rfl, rfl⟩), fun d' hd' k hk => ?_,
    fun d' hd' k hk q hq j' hj' hne => ?_⟩
  · refine (hwrite d' (h.dir d' hd').1 k hk).trans (if_neg fun hand => ?_)
    exact h.apart d hd i (hi.trans (by simp)) t hlead (hand.1 ▸ hd')
  · refine (hwrite q hq.isPage j' hj').trans (if_neg ?_)
    rintro ⟨rfl, hjeq⟩
    obtain ⟨rfl, rfl⟩ := h.once d hd d' hd' i hi k hk q hlead hq
    exact hne ⟨rfl, rfl, hjeq⟩

/-- **A page** is put into the table of an address. -/
theorem PageState.setPage (h : PageState 1024 s' dirs (a :: free) bottom) (hd : d ∈ dirs)
    (haddr : addr < kernelBase) (hready : TableReady s s' dirs d (addr / 2 ^ 22) t)
    (hnot : entryPresent (Mem.entry s'.ram.byte t (addr / 2 ^ 12 % 2 ^ 10)) = false) :
    PageMapped s (setPage s' t (addr / 2 ^ 12 % 2 ^ 10)) dirs d addr a ∧
      PageState 1024 (setPage s' t (addr / 2 ^ 12 % 2 ^ 10)) dirs free bottom := by
  have hi : addr / 2 ^ 22 < 768 := by
    rw [kernelBase_eq] at haddr
    omega
  have hi' : addr / 2 ^ 22 < 1024 := hi.trans (by simp)
  have hlead := hready.leads
  have hj := tableIndex_lt addr
  obtain ⟨⟨hdvd, hlt⟩, hframe⟩ := List.forall_mem_cons.mp h.frame
  have hhead : s'.pageFreelist = a := h.chain.1
  have hoffset : a + pageOffset < 2 ^ 32 := by
    rw [kernelBase_eq] at hlt
    rw [pageOffset]
    omega
  rw [setPage_of_not_present hhead hoffset hnot]
  set u : Kernel := { s' with
    ram := s'.ram.write32 (t + 4 * (addr / 2 ^ 12 % 2 ^ 10)) (pte4kib ((a + pageOffset) / 2 ^ 12))
    pageFreelist := s'.read32 a } with hu
  obtain ⟨hword, hdir, htable⟩ := h.write_entry (m := u.ram.byte) hd hi hlead hj rfl
  have hself : Mem.entry u.ram.byte t (addr / 2 ^ 12 % 2 ^ 10)
      = pte4kib ((a + pageOffset) / 2 ^ 12) :=
    hword.trans (Nat.mod_eq_of_lt (by rw [pte4kib]; omega))
  have hleads : ∀ d' ∈ dirs, ∀ k < 1024, ∀ q,
      LeadsTo u.ram.byte d' k q ↔ LeadsTo s'.ram.byte d' k q := fun d' hd' k hk q =>
    ⟨fun hq => hq.congr (hdir d' hd' k hk).symm, fun hq => hq.congr (hdir d' hd' k hk)⟩
  have hphysical : (a + pageOffset) / 2 ^ 12 * 2 ^ 12 = a + pageOffset := by
    rw [pageOffset]
    omega
  refine ⟨⟨⟨t, (hleads d hd _ hi' t).mpr hlead, hself⟩, ?_, fun d' hd' k hk hne => ?_,
    fun d' hd' k hk q hq j hj' hne => ?_, ?_, fun d' hd' addr' haddr' hne => ?_⟩,
    ⟨?_, h.bottom, (List.nodup_cons.mp h.nodup).2, hframe, h.dir, fun d' hd' k hk q hq => ?_,
      fun d' hd' k hk q hq => ?_, fun d₁ hd₁ d₂ hd₂ k₁ hk₁ k₂ hk₂ q hq₁ hq₂ => ?_⟩⟩
  · rw [hdir d hd _ hi']
    exact hready.pde
  · exact (hdir d' hd' k hk).trans (hready.entry d' hd' k hk hne)
  · obtain ⟨hq', hsame⟩ := hready.table d' hd' k hk q hq
    exact (htable d' hd' k hk q hq' j hj' hne).trans (hsame j hj')
  · have haddr' : addr < 2 ^ 32 := haddr.trans (by decide)
    rw [translate_of_leadsTo (h.dir d hd).1 haddr' ((hleads d hd _ hi' t).mpr hlead), hself,
      entryPresent_pte4kib, if_pos rfl, entryAddr_pte4kib, hphysical, entryRw_pte4kib,
      entryUs_pte4kib, Bool.and_true, Bool.and_true]
  · rw [← hready.same d' hd' addr' haddr']
    have hindex : addr' / 2 ^ 22 < 1024 := by omega
    refine translate_congr (h.dir d' hd').1 haddr' (hdir d' hd' _ hindex) fun q hq =>
      htable d' hd' _ hindex q hq _ (tableIndex_lt addr') ?_
    rintro ⟨rfl, hdiv, hmod⟩
    exact hne ⟨rfl, by omega⟩
  · have hkeep : ∀ b, 4096 ∣ b ∧ b < kernelBase → u.read32 b = s'.read32 b := fun b hb =>
      read32_frame hb ((h.above d hd _ hi t hlead).trans (Nat.le_add_right t _))
    have hrest := h.chain.2
    exact hrest.congr fun b hb => hkeep b (hframe b hb)
  · exact h.above d' hd' k hk q ((hleads d' hd' k (hk.trans (by simp)) q).mp hq)
  · exact h.apart d' hd' k hk q ((hleads d' hd' k hk q).mp hq)
  · exact h.once d₁ hd₁ d₂ hd₂ k₁ hk₁ k₂ hk₂ q ((hleads d₁ hd₁ k₁ (hk₁.trans (by simp)) q).mp hq₁)
      ((hleads d₂ hd₂ k₂ hk₂ q).mp hq₂)

end Assignments

/-! ### `allocate_page` -/

section AllocatePage

variable {s : Kernel} {bs : List Block} {dirs free : List ℕ} {r : Ram} {bottom d t addr : ℕ}

/-- **`allocate_page`**: it is refused and changes nothing, or it maps the head of the free list at
the address and nothing else. -/
theorem allocatePage_spec (h : PageState 1024 s dirs free bottom) (hd : d ∈ dirs)
    (hfresh : ¬ Refused s free d addr →
      entryPresent (Mem.entry s.ram.byte d (addr / 2 ^ 22)) = false →
      ∃ t r, FreshTable s dirs free t r) :
    AllocatesPage 1024 s dirs free bottom d addr := by
  by_cases hdeny : kernelBase ≤ s.pageFreelist ∨ kernelBase ≤ addr
  · refine Or.inl ⟨?_, if_pos hdeny⟩
    rcases hdeny with hlist | haddr
    · cases free with
      | nil => exact Or.inl rfl
      | cons a free =>
          have hlt := (h.frame a List.mem_cons_self).2
          rw [h.chain.1] at hlist
          omega
    · exact Or.inr (Or.inl haddr)
  have haddr : addr < kernelBase := by omega
  have hi : addr / 2 ^ 22 < 768 := by
    rw [kernelBase_eq] at haddr
    omega
  cases free with
  | nil =>
      have hend : s.pageFreelist = bottom := h.chain
      have hbottom := h.bottom
      omega
  | cons a free =>
  by_cases hpresent : entryPresent (Mem.entry s.ram.byte d (addr / 2 ^ 22)) = true
  · by_cases hps : entryPs (Mem.entry s.ram.byte d (addr / 2 ^ 22)) = true
    · exact Or.inl ⟨Or.inr (Or.inr ⟨hpresent, Or.inl hps⟩),
        allocatePage_of_large hdeny hpresent hps⟩
    · rw [Bool.not_eq_true] at hps
      have hlead : LeadsTo s.ram.byte d (addr / 2 ^ 22) _ := ⟨hpresent, hps, rfl⟩
      have hstep := allocatePage_of_table hdeny hpresent hps
      by_cases hpte : entryPresent (Mem.entry s.ram.byte
          (pointed (Mem.entry s.ram.byte d (addr / 2 ^ 22))) (addr / 2 ^ 12 % 2 ^ 10)) = true
      · refine Or.inl ⟨Or.inr (Or.inr ⟨hpresent, Or.inr hpte⟩), hstep.trans (congrArg some ?_)⟩
        exact if_pos hpte
      · rw [Bool.not_eq_true] at hpte
        have hready : TableReady s s dirs d (addr / 2 ^ 22) _ :=
          ⟨hlead, Or.inl rfl, fun _ _ _ _ _ => rfl, fun _ _ _ _ _ hq => ⟨hq, fun _ _ => rfl⟩,
            fun _ _ _ _ => rfl⟩
        obtain ⟨hmapped, hstate⟩ := h.setPage hd haddr hready hpte
        refine Or.inr ⟨?_, a, free, _, rfl, hstep, hmapped, hstate⟩
        rintro (hnil | hkernel | ⟨-, hps' | hpte'⟩)
        · cases hnil
        · omega
        · exact Bool.false_ne_true (hps.symm.trans hps')
        · exact Bool.false_ne_true (hpte.symm.trans hpte')
  · rw [Bool.not_eq_true] at hpresent
    have hrefused : ¬ Refused s (a :: free) d addr := by
      rintro (hnil | hkernel | ⟨hpresent', -⟩)
      · cases hnil
      · omega
      · exact Bool.false_ne_true (hpresent.symm.trans hpresent')
    obtain ⟨t, r, hfresh⟩ := hfresh hrefused hpresent
    have hne : t ≠ 0 := by
      rintro rfl
      exact absurd hfresh.above (by omega)
    obtain ⟨u, hu⟩ : ∃ u : Kernel, u = Kernel.write32
        { s with ram := r, live := (t, 4096) :: s.live } (d + 4 * (addr / 2 ^ 22)) (pageEntry t) :=
      ⟨_, rfl⟩
    obtain ⟨hstate, hready, hzero⟩ :=
      @PageState.addTable s u dirs (a :: free) r bottom d _ t h hd hi hpresent hfresh (hu ▸ rfl)
        (hu ▸ rfl)
    obtain ⟨hmapped, hstate'⟩ := hstate.setPage hd haddr hready (hzero _ (tableIndex_lt addr))
    refine Or.inr ⟨hrefused, a, free, _, rfl, ?_, hmapped, hstate'⟩
    rw [hu]
    exact allocatePage_of_not_present hdeny hpresent (Kernel.allocate_of_ne hfresh.call hne)

/-! ### The heap grants fresh tables -/

theorem link_below_heap {a x : ℕ} (ha : a < kernelBase) (hx : x < a + 4) :
    x < kernelHeap.start := by
  have habove := kernelHeap_above
  omega

/-- Memory that is spared by the heap is left alone by `kernel_allocate`. -/
theorem Granted.spared {bs' : List Block} (h : Granted ⟨s.ram, s.live⟩ r bs bs' t 4096) {p : ℕ}
    (hp : Spared s.live p (p + 4096)) {x : ℕ} (hle : p ≤ x) (hlt : x < p + 4096) :
    r.byte x = s.ram.byte x := by
  rcases hp with ⟨q, n, hq, hqp, hpq⟩ | hstart | hlast
  · exact h.kept q n x hq (by omega) (by omega)
  · exact h.outside x (Or.inl (by omega))
  · exact h.outside x (Or.inr (by omega))

/-- **A block of the heap is a fresh table**, if its bytes are zero, and the directories and tables
are blocks of the heap themselves or outside the heap. -/
theorem freshTable_of_heap (hheap : HeapInv ⟨s.ram, s.live⟩ bs)
    (hdirs : ∀ d ∈ dirs, IsPage d ∧ Spared s.live d (d + 4096))
    (htables : ∀ d ∈ dirs, ∀ i < 1024, ∀ u, LeadsTo s.ram.byte d i u → Spared s.live u (u + 4096))
    (hframe : ∀ a ∈ free, 4096 ∣ a ∧ a < kernelBase)
    (hcall : kernelAllocate s.ram 4096 = some (t, r)) (hne : t ≠ 0)
    (hzero : ∀ x, t ≤ x → x < t + 4096 → s.ram.byte x = 0) : FreshTable s dirs free t r := by
  obtain ⟨t', r', _, hcall', -, hgrant⟩ := hheap.allocate_same hheap (n := 4096) (by simp)
  obtain ⟨rfl, rfl⟩ := Prod.mk.inj (Option.some.inj (hcall.symm.trans hcall'))
  obtain ⟨hnull, -⟩ | ⟨-, bs', hgrant, -⟩ := hgrant
  · exact absurd hnull hne
  have hbounds := hgrant.heap.live_bounds List.mem_cons_self
  have hstart := kernelHeap_start
  have hlast := kernelHeap_last
  have habove : kernelBase ≤ t := le_trans (by decide) hbounds.1.le
  have hlt : t < 2 ^ 32 := by omega
  have hnew : ¬ Spared s.live t (t + 4096) := by
    rintro (⟨q, n, hq, hqt, htq⟩ | hle | hlt)
    · have happart := hgrant.heap.live_apart (List.mem_cons_of_mem _ hq) List.mem_cons_self
        fun he => hgrant.fresh n (he ▸ hq)
      omega
    · omega
    · omega
  refine ⟨hcall, ⟨hgrant.heap.page_aligned List.mem_cons_self (by simp), hlt⟩, habove,
    fun hd => hnew (hdirs t hd).2, fun d hd i hi hlead => hnew (htables d hd i hi t hlead),
    fun j hj => ?_, fun d hd i hi => Mem.entry_congr hi fun x => hgrant.spared (hdirs d hd).2,
    fun d hd i hi u hlead j hj => Mem.entry_congr hj fun x =>
      hgrant.spared (htables d hd i hi u hlead), fun a ha => ?_⟩
  · have hbyte : ∀ x, t + 4 * j ≤ x → x < t + 4 * j + 4 → r.byte x = 0 := fun x hx hx' =>
      (hgrant.payload x (by omega) (by omega)).2.trans (hzero x (by omega) (by omega))
    exact @Mem.read32_congr _ (fun _ => 0) _ hbyte
  · exact Mem.read32_congr fun x _ hx =>
      hgrant.outside x (Or.inl (link_below_heap (hframe a ha).2 hx))

end AllocatePage

/-! ### A directory of zeros, and one that shares a table with the kernel half -/

/-- A kernel with one free frame. -/
def oneFrameKernel (r : Ram) : Kernel where
  ram := r.write32 0 kernelBase
  pageFreelist := 0
  currentProcess := 0
  live := []
  processes := []
  cr3 := []

theorem chain_oneFrame {r : Ram} : Chain (oneFrameKernel r).read32 0 [0] kernelBase :=
  ⟨rfl, Mem.read32_write32_self _ 0 kernelBase⟩

/-- A first page for a directory of zeros behind the heap. -/
theorem allocatePage_bootRam :
    AllocatesPage 1024 (oneFrameKernel bootRam) [0xf0000000] [0] kernelBase 0xf0000000 0 := by
  have hbyte : ∀ x, kernelHeap.start < x → (oneFrameKernel bootRam).ram.byte x = 0 := by
    intro x hx
    have hstart : 4 ≤ kernelHeap.start := by decide
    exact (Mem.write32_of_outside (by omega)).trans (initKernelHeap_byte initKernelHeap_zeroRam hx)
  have hzero : ∀ i < 1024, Mem.entry (oneFrameKernel bootRam).ram.byte 0xf0000000 i = 0 := by
    intro i _
    refine @Mem.read32_congr _ (fun _ => 0) _ fun x hx _ => hbyte x ?_
    exact lt_of_lt_of_le (by decide) ((Nat.le_add_right 0xf0000000 (4 * i)).trans hx)
  have hno : ∀ i < 1024, ∀ t, ¬ LeadsTo (oneFrameKernel bootRam).ram.byte 0xf0000000 i t := by
    intro i hi t hlead
    have hpresent := hlead.present
    rw [hzero i hi] at hpresent
    cases hpresent
  have hpage : IsPage 0xf0000000 := ⟨by simp, by simp⟩
  have hstate : PageState 1024 (oneFrameKernel bootRam) [0xf0000000] [0] kernelBase := by
    refine ⟨chain_oneFrame, le_refl _, List.nodup_singleton 0, ?_, ?_, ?_, ?_, ?_⟩
    · intro a ha
      obtain rfl := List.mem_singleton.mp ha
      decide
    · intro d hd
      obtain rfl := List.mem_singleton.mp hd
      exact ⟨hpage, by decide⟩
    · intro d hd i hi t hlead
      obtain rfl := List.mem_singleton.mp hd
      exact absurd hlead (hno i (hi.trans (by simp)) t)
    · intro d hd i hi t hlead
      obtain rfl := List.mem_singleton.mp hd
      exact absurd hlead (hno i hi t)
    · intro d hd d' _ i hi i' _ t hlead
      obtain rfl := List.mem_singleton.mp hd
      exact absurd hlead (hno i (hi.trans (by simp)) t)
  refine allocatePage_spec hstate List.mem_cons_self fun _ _ => ?_
  -- the heap of this kernel is that of `bootRam`
  obtain ⟨hheap, -⟩ := (@initKernelHeap_inv zeroRam _ rfl initKernelHeap_zeroRam).spared
    (r := (oneFrameKernel bootRam).ram) (show Spared [] 0 4 from Or.inr (Or.inl (by decide)))
    fun x hx => Mem.write32_of_outside (by omega)
  rcases hheap.allocate_eq (n := 4096) roundBlockSize_page (by simp) with
    ⟨htake, -⟩ | ⟨o, bs', r, -, hcall, -⟩
  · cases htake
  · refine ⟨_, r, freshTable_of_heap hheap (fun d hd => ?_) (fun d hd i hi u hlead => ?_) ?_ hcall
      (Nat.succ_ne_zero _) fun x hx _ => hbyte x (by omega)⟩
    · obtain rfl := List.mem_singleton.mp hd
      exact ⟨hpage, Or.inr (Or.inr (by decide))⟩
    · obtain rfl := List.mem_singleton.mp hd
      exact absurd hlead (hno i hi u)
    · exact hstate.frame

/-- A directory whose first entry, and whose first entry of the kernel half, lead to one table. -/
def sharedTableKernel : Kernel :=
  oneFrameKernel ((zeroRam.write32 0xc0400000 (pageEntry 0xc0401000)).write32
    (0xc0400000 + 4 * 768) (pageEntry 0xc0401000))

theorem leadsTo_sharedTable {i t : ℕ} (hi : i < 768)
    (h : LeadsTo sharedTableKernel.ram.byte 0xc0400000 i t) : i = 0 ∧ t = 0xc0401000 := by
  have hentry : Mem.entry sharedTableKernel.ram.byte 0xc0400000 i
      = if i = 0 then pageEntry 0xc0401000 else 0 := by
    have hpage : IsPage 0xc0400000 := ⟨by simp, by simp⟩
    have hi' : i < 1024 := hi.trans (by simp)
    have hlink : Mem.entry sharedTableKernel.ram.byte 0xc0400000 i = Mem.entry
        ((zeroRam.write32 0xc0400000 (pageEntry 0xc0401000)).write32 (0xc0400000 + 4 * 768)
          (pageEntry 0xc0401000)).byte 0xc0400000 i :=
      Mem.read32_write32_of_disjoint (Or.inl (by omega))
    rw [hlink, Ram.write32, Mem.entry_write32 hpage hpage (by simp) hi', if_neg (by omega)]
    refine (@Mem.entry_write32 _ _ _ 0 _ _ hpage hpage (by simp) hi').trans ?_
    by_cases hzero : i = 0
    · rw [if_pos ⟨rfl, hzero⟩, if_pos hzero, Nat.mod_eq_of_lt (pageEntry_lt _)]
    · rw [if_neg fun hand => hzero hand.2, if_neg hzero]
      rfl
  by_cases hzero : i = 0
  · rw [if_pos hzero] at hentry
    have ht := h.pointed
    rw [hentry, pointed_pageEntry ⟨by simp, by simp⟩] at ht
    exact ⟨hzero, ht.symm⟩
  · rw [if_neg hzero] at hentry
    have hpresent := h.present
    rw [hentry] at hpresent
    cases hpresent

/-- **A table that is shared with the kernel half**: mapping a page at 0 maps one at `KERNEL_BASE`
as well. -/
theorem allocatePage_maps_two :
    ¬ ∀ (s : Kernel) (dirs free : List ℕ) (bottom d addr : ℕ), PageState 768 s dirs free bottom →
      d ∈ dirs → addr < 2 ^ 32 → (¬ Refused s free d addr →
        entryPresent (Mem.entry s.ram.byte d (addr / 2 ^ 22)) = false →
        ∃ t r, FreshTable s dirs free t r) → AllocatesPage 768 s dirs free bottom d addr := by
  intro hall
  have hstate : PageState 768 sharedTableKernel [0xc0400000] [0] kernelBase := by
    refine ⟨chain_oneFrame, le_refl _, List.nodup_singleton 0, ?_, ?_, ?_, ?_, ?_⟩
    · intro a ha
      obtain rfl := List.mem_singleton.mp ha
      decide
    · intro d hd
      obtain rfl := List.mem_singleton.mp hd
      exact ⟨⟨by simp, by simp⟩, by decide⟩
    · intro d hd i hi t hlead
      obtain rfl := List.mem_singleton.mp hd
      obtain ⟨-, rfl⟩ := leadsTo_sharedTable hi hlead
      decide
    · intro d hd i hi t hlead
      obtain rfl := List.mem_singleton.mp hd
      obtain ⟨-, rfl⟩ := leadsTo_sharedTable hi hlead
      decide
    · intro d hd d' hd' i hi i' hi' t hlead hlead'
      obtain rfl := List.mem_singleton.mp hd
      obtain rfl := List.mem_singleton.mp hd'
      exact ⟨rfl, (leadsTo_sharedTable hi hlead).1.trans (leadsTo_sharedTable hi' hlead').1.symm⟩
  have hpresent : entryPresent (Mem.entry sharedTableKernel.ram.byte 0xc0400000 (0 / 2 ^ 22))
      = true := by decide +kernel
  have hbefore : translate sharedTableKernel.ram.byte (sub32 0xc0400000 kernelBase) kernelBase
      = none := by decide +kernel
  have hafter : (allocatePage sharedTableKernel 0xc0400000 0).map (fun s' =>
      translate s'.ram.byte (sub32 0xc0400000 kernelBase) kernelBase)
      = some (some ⟨pageOffset, true, true⟩) := by decide +kernel
  rcases hall sharedTableKernel [0xc0400000] [0] kernelBase 0xc0400000 0 hstate List.mem_cons_self
    (by simp) (fun _ hnot => absurd (hnot.symm.trans hpresent) Bool.false_ne_true) with
    ⟨-, hstep⟩ | ⟨-, a, rest, s', -, hstep, hmapped, -⟩
  · rw [hstep, Option.map_some, hbefore] at hafter
    cases hafter
  · have hother := hmapped.other _ List.mem_cons_self kernelBase (by decide)
      fun hand => absurd hand.2 (by decide)
    rw [hstep, Option.map_some, hother, hbefore] at hafter
    cases hafter

end LoofOS
