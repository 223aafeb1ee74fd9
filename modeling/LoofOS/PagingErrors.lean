import LoofOS.FrameAccounts
import LoofOS.Requests

/-!
# Pages and Tables That Are Missing
Two cases in which `paging.c` has nothing to do. `free_page` for an address without a page of 4 KiB
looks at a word that is not the entry of the address, and frees what it finds there
(`freePage_unchanged_iff`). `allocate_page` does not look at the result of `kernel_allocate`: when
the heap is exhausted it takes address 0 for the new table, puts this table into the directory, and
perhaps a frame into its entry (`allocatePage_of_null`).

## Main results

* `sparesOthers_iff`: when `free_page` touches nothing but pages of 4 KiB.
* `allocatePage_exhausted`: without memory for a table `allocate_page` changes memory.
-/

namespace LoofOS

/-! ### `free_page` without a page -/

/-- The address has no page of 4 KiB: the entry of the directory is not present or is a page of
4 MiB, or the entry of the table is not present. -/
def NoSmallPage (s : Kernel) (pageDir addr : ℕ) : Prop :=
  let pde := s.read32 (pageDir + 4 * (addr / 2 ^ 22))
  entryPresent pde = true → entryPs pde = false →
    entryPresent (s.read32 (pointed pde + 4 * (addr / 2 ^ 12 % 2 ^ 10))) = false

/-- Neither memory nor the free list has changed. -/
structure Untouched (s s' : Kernel) : Prop where
  byte : s'.ram.byte = s.ram.byte
  pageFreelist : s'.pageFreelist = s.pageFreelist

/-- `free_page` touches nothing when there is no page of 4 KiB. -/
def SparesOthers (s : Kernel) (pageDir addr : ℕ) : Prop :=
  NoSmallPage s pageDir addr → Untouched s (freePage s pageDir addr)

section Free

variable {s : Kernel} {pageDir addr : ℕ}

/-- **`free_page` changes nothing** if and only if the word it looks at is not present. -/
theorem freePage_untouched_iff : Untouched s (freePage s pageDir addr) ↔
    (entryPresent (s.read32 (pageDir + 4 * (addr / 2 ^ 22))) = true →
      entryPresent (s.read32 (strayEntry s pageDir addr)) = false) := by
  constructor
  · intro hsame hpde
    rw [← Bool.not_eq_true]
    intro hpte
    -- the word is cleared
    have hword : (freePage s pageDir addr).read32 (strayEntry s pageDir addr) = 0 := by
      rw [freePage_of_present hpde hpte]
      exact Mem.read32_write32_self _ _ 0
    rw [Kernel.read32, hsame.byte, ← Kernel.read32] at hword
    rw [hword] at hpte
    cases hpte
  · intro h
    rw [freePage_eq_self h]
    exact ⟨rfl, rfl⟩

/-- **Which addresses without a page are spared.** -/
theorem sparesOthers_iff : SparesOthers s pageDir addr ↔ (NoSmallPage s pageDir addr →
    entryPresent (s.read32 (pageDir + 4 * (addr / 2 ^ 22))) = true →
      entryPresent (s.read32 (strayEntry s pageDir addr)) = false) :=
  imp_congr_right fun _ => freePage_untouched_iff

end Free

/-- A directory at `0xd0000000` with the first entry of the kernel half, and a word at `0x40000000`
that is 1. -/
def kernelEntryKernel : Kernel where
  ram := (zeroRam.write32 (0xd0000000 + 4 * 768) (pde4mib 1 0)).write32 0x40000000 1
  pageFreelist := kernelBase
  currentProcess := 0
  live := []
  processes := []
  cr3 := []

/-- **A page of 4 MiB is freed**: the first one of the kernel half. -/
theorem not_sparesOthers_kernel :
    ¬ ∀ (s : Kernel) (pageDir addr : ℕ), addr < 2 ^ 32 → SparesOthers s pageDir addr := by
  intro hall
  have hno : NoSmallPage kernelEntryKernel 0xd0000000 kernelBase := by
    intro _ hps
    have hpde :
        entryPs (kernelEntryKernel.read32 (0xd0000000 + 4 * (kernelBase / 2 ^ 22))) = true := by
      decide +kernel
    exact absurd (hpde.symm.trans hps) (by simp)
  have hspared := freePage_untouched_iff.mp
    (hall kernelEntryKernel 0xd0000000 kernelBase (by decide) hno) (by decide +kernel)
  exact absurd hspared (by decide +kernel)

/-! ### `allocate_page` without memory -/

section Allocate

variable {s : Kernel} {r : Ram} {pageDir addr : ℕ}

theorem entryPresent_read32 (m : Mem) (a : ℕ) :
    entryPresent (m.read32 a) = decide ((m a).toNat % 2 = 1) := by
  rw [entryPresent, Mem.read32, decide_eq_decide]
  omega

theorem Mem.write32_low (m : Mem) (a w : ℕ) : m.write32 a w a = UInt8.ofNat w := by
  rw [Mem.write32, if_pos rfl]

/-- An entry that is present has been assigned. -/
theorem present_of_write32 {m : Mem} {a w : ℕ} (hw : w % 2 = 1) :
    (m.write32 a w a).toNat % 2 = 1 := by
  rw [Mem.write32_low, UInt8.toNat_ofNat']
  omega

/-- **A null pointer is taken for a table**: the directory leads to the page before the kernel, and
the entry is looked for at address 0. -/
theorem allocatePage_of_null (hlist : s.pageFreelist < kernelBase) (haddr : addr < kernelBase)
    (hnot : entryPresent (s.read32 (pageDir + 4 * (addr / 2 ^ 22))) = false)
    (hcall : kernelAllocate s.ram 4096 = some (0, r)) :
    allocatePage s pageDir addr = some (setPage
      (s.write32 (pageDir + 4 * (addr / 2 ^ 22)) (pageEntry 0)) 0 (addr / 2 ^ 12 % 2 ^ 10)) := by
  obtain rfl : r = s.ram := memoryAllocate_null (by decide) hcall
  have hdeny : ¬ (kernelBase ≤ s.pageFreelist ∨ kernelBase ≤ addr) := by omega
  have hallocate : s.allocate 4096 = some (0, s) := by
    rw [Kernel.allocate, hcall]
    rfl
  exact allocatePage_of_not_present hdeny hnot hallocate

/-- **`allocate_page` with an exhausted heap** changes memory. -/
theorem allocatePage_changes (hlist : s.pageFreelist < kernelBase) (haddr : addr < kernelBase)
    (hnot : entryPresent (s.read32 (pageDir + 4 * (addr / 2 ^ 22))) = false)
    (hcall : kernelAllocate s.ram 4096 = some (0, r)) :
    ∃ s', allocatePage s pageDir addr = some s' ∧ s'.ram.byte ≠ s.ram.byte := by
  refine ⟨_, allocatePage_of_null hlist haddr hnot hcall, fun hsame => ?_⟩
  set a := pageDir + 4 * (addr / 2 ^ 22) with ha
  set j := addr / 2 ^ 12 % 2 ^ 10 with hj
  rw [Kernel.read32, entryPresent_read32, decide_eq_false_iff_not] at hnot
  have hodd : ((s.write32 a (pageEntry 0)).ram.byte a).toNat % 2 = 1 := present_of_write32 rfl
  rw [setPage] at hsame
  split at hsame
  · -- the word at address 0 looks present: the entry of the directory stays
    rw [hsame] at hodd
    exact hnot hodd
  · rename_i hfree
    rw [Bool.not_eq_true, Kernel.read32, entryPresent_read32, decide_eq_false_iff_not] at hfree
    have hpte := congrFun hsame (0 + 4 * j)
    have hpde := congrFun hsame a
    have hword : ((s.ram.byte (0 + 4 * j)).toNat) % 2 = 1 := by
      rw [← hpte]
      refine present_of_write32 ?_
      rw [pte4kib]
      omega
    -- so the first entry was odd before, and it is the other one that has changed it
    have hinside : a ≤ 0 + 4 * j ∧ 0 + 4 * j < a + 4 := by
      by_contra hout
      refine hfree ?_
      have hkeep : (s.write32 a (pageEntry 0)).ram.byte (0 + 4 * j) = s.ram.byte (0 + 4 * j) :=
        Mem.write32_of_outside (by omega)
      rw [hkeep, hword]
    have hne : a ≠ 0 + 4 * j := fun he => hnot (he ▸ hword)
    have hstay : ((s.write32 a (pageEntry 0)).ram.byte.write32 (0 + 4 * j)
        (pte4kib (wrap32 ((s.write32 a (pageEntry 0)).pageFreelist + pageOffset) / 2 ^ 12))) a
        = (s.write32 a (pageEntry 0)).ram.byte a := Mem.write32_of_outside (by omega)
    rw [← hstay] at hodd
    exact hnot (hpde ▸ hodd)

/-- **`allocate_page` is not atomic**: whenever it needs a table for which there is no memory, it
changes memory. -/
theorem allocatePage_exhausted (hlist : s.pageFreelist < kernelBase) (haddr : addr < kernelBase)
    (hnot : entryPresent (s.read32 (pageDir + 4 * (addr / 2 ^ 22))) = false)
    (hcall : kernelAllocate s.ram 4096 = some (0, r)) :
    ¬ ∃ s', allocatePage s pageDir addr = some s' ∧ Untouched s s' := by
  obtain ⟨s', hstep, hchange⟩ := allocatePage_changes hlist haddr hnot hcall
  rintro ⟨s'', hstep', hsame⟩
  obtain rfl := Option.some.inj (hstep.symm.trans hstep')
  exact hchange hsame.byte

/-- A kernel whose heap is one used block, with a free frame. -/
def exhaustedKernel : Kernel where
  ram := (zeroRam.store kernelHeap.start (128 + 29)).write32 0 kernelBase
  pageFreelist := 0
  currentProcess := 0
  live := [(kernelHeap.start + 1, 0x10000000)]
  processes := []
  cr3 := []

/-- No request is served by a heap that is one used block. -/
theorem kernelAllocate_exhausted :
    kernelAllocate exhaustedKernel.ram 4096 = some (0, exhaustedKernel.ram) := by
  have hT : Tiles exhaustedKernel.ram kernelHeap.start [⟨29, true⟩] kernelHeap.last := by
    refine ⟨rfl, fun x h hx => ?_, fun h hh => ?_⟩
    · obtain ⟨rfl, rfl⟩ := Prod.mk.inj (List.mem_singleton.mp hx)
      decide +kernel
    · obtain rfl := List.mem_singleton.mp hh
      decide
  refine memoryAllocate_none hT (Or.inr ⟨rfl, by decide +kernel⟩) (by decide) roundBlockSize_page
    fun h hh => ?_
  obtain rfl := List.mem_singleton.mp hh
  rfl

/-- In that kernel a first page is not refused. -/
theorem allocatePage_exhausted_kernel :
    ¬ ∃ s', allocatePage exhaustedKernel 0xd0000000 0 = some s' ∧ Untouched exhaustedKernel s' :=
  allocatePage_exhausted (by decide) (by decide) (by decide +kernel) kernelAllocate_exhausted

/-- **A table at address 0**: the directory of that kernel is led to it. -/
theorem allocatePage_not_atomic :
    ¬ ∀ (s : Kernel) (pageDir addr : ℕ) (r : Ram), s.pageFreelist < kernelBase →
      addr < kernelBase →
      entryPresent (s.read32 (pageDir + 4 * (addr / 2 ^ 22))) = false →
      kernelAllocate s.ram 4096 = some (0, r) →
      ∃ s', allocatePage s pageDir addr = some s' ∧ Untouched s s' := by
  intro hall
  obtain ⟨s', hstep, hsame⟩ := hall exhaustedKernel 0xd0000000 0 _ (by decide) (by decide)
    (by decide +kernel) kernelAllocate_exhausted
  obtain ⟨s'', hstep', hchange⟩ := @allocatePage_changes exhaustedKernel _ 0xd0000000 0 (by decide)
    (by decide) (by decide +kernel) kernelAllocate_exhausted
  obtain rfl := Option.some.inj (hstep.symm.trans hstep')
  exact hchange hsame.byte

end Allocate

end LoofOS
