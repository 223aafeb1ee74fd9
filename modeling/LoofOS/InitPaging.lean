import LoofOS.AddressSpace

/-!
# Setting up Paging

What `init_paging` writes: the entries of `kernel_memory`, and a link in every page frame below
`KERNEL_BASE`. The heap and the page directories in it are not touched, so directories whose entries
are not present satisfy the invariant of the page allocator, with all the frames on the free list.

## Main results

* `initPaging_spec`: `init_paging` sets up the page allocator.
* `translate_kernel`: the kernel half of the address space, under every directory with the entries
  that `kernel_memory` has there.
-/

namespace LoofOS

open LinkedChain

/-! ### The loops -/

theorem Ram.writeEntries_outside {r : Ram} {array n x : ℕ} {entry : ℕ → ℕ}
    (h : x < array ∨ array + 4 * n ≤ x) : (r.writeEntries array entry n).byte x = r.byte x := by
  induction n with
  | zero => rfl
  | succ n ih =>
      have hword : x < array + 4 * n ∨ array + 4 * n + 4 ≤ x := by omega
      exact (Mem.write32_of_outside hword).trans (ih (by omega))

theorem Ram.entry_writeEntries {r : Ram} {array n i : ℕ} {entry : ℕ → ℕ} (h : i < n) :
    Mem.entry (r.writeEntries array entry n).byte array i = entry i % 2 ^ 32 := by
  induction n with
  | zero => exact absurd h (Nat.not_lt_zero i)
  | succ n ih =>
      rcases Nat.lt_succ_iff_lt_or_eq.mp h with hlt | rfl
      · rw [← ih hlt]
        exact Mem.read32_write32_of_disjoint (by omega)
      · exact Mem.read32_write32_self _ _ _

theorem linkFrames_outside {r : Ram} {n x : ℕ} (h : 4096 * n ≤ x) :
    (linkFrames r n).byte x = r.byte x := by
  induction n with
  | zero => rfl
  | succ n ih => exact (Mem.write32_of_outside (by omega)).trans (ih (by omega))

theorem read32_linkFrames {r : Ram} {n i : ℕ} (h : i < n) (hn : 4096 * n < 2 ^ 32) :
    (linkFrames r n).byte.read32 (4096 * i) = 4096 * (i + 1) := by
  induction n with
  | zero => exact absurd h (Nat.not_lt_zero i)
  | succ n ih =>
      rcases Nat.lt_succ_iff_lt_or_eq.mp h with hlt | rfl
      · rw [← ih hlt (by omega)]
        exact Mem.read32_write32_of_disjoint (by omega)
      · exact (Mem.read32_write32_self _ _ _).trans (Nat.mod_eq_of_lt (by omega))

/-- The page frames below `KERNEL_BASE`, from number `k` on. -/
def frames (k n : ℕ) : List ℕ := (List.range' k n).map (4096 * ·)

theorem frames_succ (k n : ℕ) : frames k (n + 1) = 4096 * k :: frames (k + 1) n := rfl

theorem mem_frames {k n a : ℕ} : a ∈ frames k n ↔ ∃ i, k ≤ i ∧ i < k + n ∧ a = 4096 * i := by
  simp only [frames, List.mem_map, List.mem_range'_1]
  exact ⟨fun ⟨i, hi, ha⟩ => ⟨i, hi.1, hi.2, ha.symm⟩, fun ⟨i, hk, hn, ha⟩ => ⟨i, ⟨hk, hn⟩, ha.symm⟩⟩

theorem chain_frames {next : ℕ → ℕ} {k n : ℕ}
    (h : ∀ i, k ≤ i → i < k + n → next (4096 * i) = 4096 * (i + 1)) :
    Chain next (4096 * k) (frames k n) (4096 * (k + n)) := by
  induction n generalizing k with
  | zero => rfl
  | succ n ih =>
      have hrest := ih (k := k + 1) fun i hk hi => h i (by omega) (by omega)
      refine ⟨rfl, ?_⟩
      rw [h k (le_refl k) (by omega)]
      rwa [show k + 1 + n = k + (n + 1) by omega] at hrest

theorem nodup_framesOf (k n : ℕ) : (framesOf (frames k n)).Nodup := by
  refine List.Nodup.map (add_left_injective pageOffset) ?_
  have hrange : (List.range' k n).Nodup := List.nodup_range'
  exact hrange.map fun i j h => Nat.eq_of_mul_eq_mul_left (by simp) h

/-! ### `init_paging` -/

/-- Where the linker may put `kernel_memory`. -/
structure KernelPlace (kernelMemory : ℕ) : Prop where
  dvd : 4096 ∣ kernelMemory
  above : kernelBase ≤ kernelMemory
  below : kernelMemory + 4096 ≤ kernelHeap.start

/-- The entries of `kernel_memory`. -/
structure KernelMapped (kernelMemory : ℕ) (m : Mem) : Prop where
  user : ∀ i < 768, Mem.entry m kernelMemory i = pde4mib 0 (i + 256)
  kernel : ∀ i < 256, Mem.entry m kernelMemory (i + 768) = pde4mib 1 i

variable {U : ℕ → Prop} {s : Kernel} {bs : List Block} {dirs : List ℕ} {kernelMemory : ℕ}

theorem KernelPlace.isPage (h : KernelPlace kernelMemory) : IsPage kernelMemory :=
  ⟨h.dvd, by
    have := h.below
    have := kernelHeap_start
    omega⟩

/-- The entries depend on the image of the kernel only. -/
theorem KernelMapped.congr {m m' : Mem} (h : KernelMapped kernelMemory m)
    (hplace : KernelPlace kernelMemory)
    (heq : ∀ x, kernelBase ≤ x → x < kernelHeap.start → m' x = m x) :
    KernelMapped kernelMemory m' := by
  have hentry : ∀ i < 1024, Mem.entry m' kernelMemory i = Mem.entry m kernelMemory i :=
    fun i hi => Mem.entry_congr hi fun x hx hx' =>
      heq x (hplace.above.trans hx) (hx'.trans_le hplace.below)
  exact ⟨fun i hi => (hentry i (by omega)).trans (h.user i hi),
    fun i hi => (hentry (i + 768) (by omega)).trans (h.kernel i hi)⟩

/-- **The kernel half of the address space**: all of it is mapped, in order, from physical address 0
on, and not for users. -/
theorem translate_kernel {m : Mem} {d addr : ℕ} (hd : IsPage d)
    (hentry : ∀ i < 256, Mem.entry m d (i + 768) = pde4mib 1 i) (hlow : kernelBase ≤ addr)
    (hhigh : addr < 2 ^ 32) :
    translate m (sub32 d kernelBase) addr = some ⟨addr - kernelBase, true, false⟩ := by
  rw [kernelBase_eq] at hlow
  obtain ⟨i, hi⟩ : ∃ i, addr / 2 ^ 22 = i + 768 := ⟨addr / 2 ^ 22 - 768, by omega⟩
  have hlt : i < 256 := by omega
  have hpde : readPhysical m (sub32 d kernelBase / 2 ^ 12 * 2 ^ 12 + 4 * (addr / 2 ^ 22))
      = pde4mib 1 i := by
    rw [hd.physical, hi, readPhysical_entry hd (by omega), hentry i hlt]
  have hpresent : entryPresent (pde4mib 1 i) = true := by
    rw [entryPresent, pde4mib, decide_eq_true_eq]
    omega
  have hps : entryPs (pde4mib 1 i) = true := by
    rw [entryPs, pde4mib, decide_eq_true_eq]
    omega
  have hrw : entryRw (pde4mib 1 i) = true := by
    rw [entryRw, pde4mib, decide_eq_true_eq]
    omega
  have hus : entryUs (pde4mib 1 i) = false := by
    rw [entryUs, pde4mib, decide_eq_false_iff_not]
    omega
  have hphysical : pde4mib 1 i / 2 ^ 22 * 2 ^ 22 + addr % 2 ^ 22
      + 2 ^ 32 * (pde4mib 1 i / 2 ^ 13 % 2 ^ 8) = addr - kernelBase := by
    rw [pde4mib, kernelBase_eq]
    omega
  rw [translate]
  simp only [hpde, hpresent, hps, hrw, hus, hphysical, if_true]

/-- Directories none of whose entries in `U` are present lead to no tables. -/
theorem Tables.of_clear {m : Mem} (hindex : ∀ i, U i → i < 1024) (hpage : ∀ d ∈ dirs, IsPage d)
    (hnodup : dirs.Nodup)
    (hclear : ∀ d ∈ dirs, ∀ i, U i → entryPresent (Mem.entry m d i) = false) :
    Tables U m dirs [] := by
  refine ⟨hindex, ?_, ?_, fun d hd i hi hpresent => ?_, fun d hd d' _ i i' hi _ hpresent => ?_, ?_⟩
  · rwa [List.append_nil]
  · rwa [List.append_nil]
  · rw [hclear d hd i hi] at hpresent
    cases hpresent
  · rw [hclear d hd i hi] at hpresent
    cases hpresent
  · exact fun t ht => absurd ht (List.not_mem_nil)

/-- The loops that assign the entries of `kernel_memory`. -/
theorem kernelMapped_writeEntries (hplace : KernelPlace kernelMemory) (s : Kernel) :
    ∃ r : Ram, KernelMapped kernelMemory r.byte ∧
      (∀ x, kernelHeap.start ≤ x → r.byte x = s.ram.byte x) ∧
      initPaging kernelMemory s = { s with
        ram := linkFrames r (kernelBase / 4096)
        pageFreelist := 0
        cr3 := sub32 kernelMemory kernelBase :: s.cr3 } := by
  set r₁ := s.ram.writeEntries kernelMemory (fun _ => 0) 1024 with hr₁
  set r₂ := r₁.writeEntries kernelMemory (fun i => pde4mib 0 (i + 256)) 768 with hr₂
  set r₃ := r₂.writeEntries (kernelMemory + 4 * 768) (fun i => pde4mib 1 i) 256 with hr₃
  have hbelow := hplace.below
  refine ⟨r₃, ⟨fun i hi => ?_, fun i hi => ?_⟩, fun x hx => ?_, rfl⟩
  · have hsame : Mem.entry r₃.byte kernelMemory i = Mem.entry r₂.byte kernelMemory i :=
      Mem.read32_congr fun x _ hx => Ram.writeEntries_outside (by omega)
    rw [hsame, hr₂, Ram.entry_writeEntries hi, pde4mib]
    omega
  · have hshift : Mem.entry r₃.byte kernelMemory (i + 768)
        = Mem.entry r₃.byte (kernelMemory + 4 * 768) i := by
      rw [Mem.entry, Mem.entry]
      exact congrArg _ (by omega)
    rw [hshift, hr₃, Ram.entry_writeEntries hi, pde4mib]
    omega
  · rw [hr₃, Ram.writeEntries_outside (by omega), hr₂, Ram.writeEntries_outside (by omega), hr₁,
      Ram.writeEntries_outside (by omega)]

/-- **`init_paging` sets up the page allocator**: every frame below `KERNEL_BASE` is on the free
list, and the directories, which it does not touch, map nothing. -/
theorem initPaging_spec (hplace : KernelPlace kernelMemory) (hheap : HeapInv ⟨s.ram, s.live⟩ bs)
    (hindex : ∀ i, U i → i < 1024) (hlive : ∀ d ∈ dirs, (d, 4096) ∈ s.live) (hnodup : dirs.Nodup)
    (hclear : ∀ d ∈ dirs, ∀ i, U i → entryPresent (Mem.entry s.ram.byte d i) = false) :
    SpaceInv U (initPaging kernelMemory s) bs dirs [] (frames 0 (kernelBase / 4096)) ∧
      KernelMapped kernelMemory (initPaging kernelMemory s).ram.byte ∧
      ∀ x, kernelHeap.start ≤ x → (initPaging kernelMemory s).ram.byte x = s.ram.byte x := by
  have habove := kernelBase_le_heap
  have hbase : 4096 * (kernelBase / 4096) = kernelBase := by rw [kernelBase_eq]
  obtain ⟨r, hmapped, hsame, heq⟩ := kernelMapped_writeEntries hplace s
  rw [heq]
  generalize kernelBase / 4096 = count at hbase ⊢
  have hlink : ∀ x, kernelBase ≤ x → (linkFrames r count).byte x = r.byte x :=
    fun x hx => linkFrames_outside (hbase.trans_le hx)
  have hsame' : ∀ x, kernelHeap.start ≤ x → (linkFrames r count).byte x = s.ram.byte x :=
    fun x hx => (hlink x (habove.trans hx)).trans (hsame x hx)
  have hpage : ∀ d ∈ dirs, IsPage d := fun d hd => ⟨hheap.page_aligned (hlive d hd) (by simp), by
    have := (hheap.live_bounds (hlive d hd)).2
    have hlast := kernelHeap_last
    omega⟩
  have hclear' : ∀ d ∈ dirs, ∀ i, U i →
      entryPresent (Mem.entry (linkFrames r count).byte d i) = false := by
    intro d hd i hi
    have hstart := (hheap.live_bounds (hlive d hd)).1
    rw [Mem.entry_congr (hindex i hi) fun x hx _ => hsame' x (hstart.le.trans hx)]
    exact hclear d hd i hi
  have hnone : ∀ x f, ¬ Maps U (linkFrames r count).byte dirs x f := by
    rintro x f ⟨hd, hn, hf⟩
    rw [pageOf_of_not_present (hclear' x.1 hd _ hn)] at hf
    cases hf
  refine ⟨⟨?_, Tables.of_clear hindex hpage hnodup hclear', ?_, ?_, ?_, nodup_framesOf _ _,
    fun x f hx => absurd hx (hnone x f), fun x _ f hx => absurd hx (hnone x f)⟩,
    hmapped.congr hplace fun x hx _ => hlink x hx, hsame'⟩
  · exact hheap.congr (fun x blk hx => hsame' x (hheap.bounds hx).1) (hsame' _ (by decide))
  · rwa [List.append_nil]
  · have hchain := @chain_frames (linkFrames r count).byte.read32 0 count fun i _ hi =>
      read32_linkFrames (by omega) (by rw [hbase, kernelBase_eq]; decide)
    rwa [Nat.mul_zero, Nat.zero_add, hbase] at hchain
  · intro a ha
    obtain ⟨i, -, hi, rfl⟩ := mem_frames.mp ha
    rw [kernelBase_eq] at hbase ⊢
    exact ⟨⟨Nat.dvd_mul_right 4096 i, by omega⟩, by omega⟩

end LoofOS
