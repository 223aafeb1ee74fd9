import LoofOS.FirstFit

/-!
# The Blocks of a New Heap

`coalesce_block` finds the buddy of a block by flipping the bit of its size in its offset from the
start of the heap, so a block of `2 ^ k` bytes has to stand at a multiple of `2 ^ k`. `init_memory`
writes one block for every set bit of the length in units of 8 bytes, the least significant bit
first: a second block stands behind a smaller one.

## Main results

* `initBlocks_cases`: no block, one block, or a block behind a smaller one.
* `laysOutBuddies_iff`: for which heaps the blocks stand at multiples of their spans.
-/

namespace LoofOS

open Tiling

/-- The blocks `bs`, up to `b`, that `init_memory` has written on the memory `r`: they are
consecutive from the start of the heap, lie in the heap, leave less than one unit of it, and stand
at multiples of their spans. -/
structure BuddyLayout (r r' : Ram) (spec : HeapSpec) (bs : List Block) (b : ℕ) : Prop where
  written : ∃ written, r'.stamped = written ++ r.stamped ∧
    ∀ x, x ∈ written ↔ ∃ h, (x, h) ∈ layout Block.span spec.start bs
  tiles : Tiles r' spec.start bs b
  inside : b ≤ spec.last + 1
  covered : spec.last + 1 < b + 2 ^ minBlockSize
  aligned : ∀ x h, (x, h) ∈ layout Block.span spec.start bs → h.span ∣ x - spec.start

/-- `init_memory` returns, and lays out such a heap. -/
def LaysOutBuddies (r : Ram) (spec : HeapSpec) : Prop :=
  ∃ r', initMemory r spec = some r' ∧ ∃ bs b, BuddyLayout r r' spec bs b

section Blocks

variable {fuel len size i : ℕ}

/-- **One block for every set bit.** -/
theorem initBlocks_cases (h : len < 2 ^ fuel) :
    (len = 0 ∧ initBlocks fuel len size = []) ∨
      (∃ i, len = 2 ^ i ∧ initBlocks fuel len size = [⟨size + i, false⟩]) ∨
      (len ≠ 0 ∧ (∀ i, len ≠ 2 ^ i) ∧ ∃ i j rest, i < j ∧
        initBlocks fuel len size = ⟨size + i, false⟩ :: ⟨size + j, false⟩ :: rest) := by
  induction fuel generalizing len size with
  | zero => exact Or.inl ⟨by omega, rfl⟩
  | succ fuel ih =>
      have hhalf : len / 2 < 2 ^ fuel := by
        rw [Nat.pow_succ] at h
        omega
      have hadd : ∀ i, size + 1 + i = size + (i + 1) := fun i => by omega
      rw [initBlocks]
      by_cases hodd : len % 2 = 1
      · -- the lowest bit gives the first block
        rw [if_pos hodd]
        have hpower : ∀ i, len ≠ 2 ^ (i + 1) := fun i he => by
          rw [he, pow_succ, Nat.mul_mod_left] at hodd
          cases hodd
        have hfar : len / 2 ≠ 0 → len ≠ 0 ∧ ∀ i, len ≠ 2 ^ i := by
          refine fun hne => ⟨by omega, fun i he => ?_⟩
          cases i with
          | zero =>
              rw [pow_zero] at he
              omega
          | succ i => exact hpower i he
        rcases @ih (len / 2) (size + 1) hhalf with ⟨hzero, he⟩ | ⟨i, hi, he⟩ |
          ⟨hne, -, i, j, rest, -, he⟩
        · exact Or.inr (Or.inl ⟨0, by omega, by rw [he]; rfl⟩)
        · obtain ⟨hne, hno⟩ := hfar (hi ▸ (Nat.two_pow_pos i).ne')
          exact Or.inr (Or.inr ⟨hne, hno, 0, i + 1, [], Nat.succ_pos i, by rw [he, hadd]; rfl⟩)
        · obtain ⟨hne, hno⟩ := hfar hne
          exact Or.inr (Or.inr ⟨hne, hno, 0, i + 1, _, Nat.succ_pos i, by rw [he, hadd]; rfl⟩)
      · rw [if_neg hodd]
        rcases @ih (len / 2) (size + 1) hhalf with ⟨hzero, he⟩ | ⟨i, hi, he⟩ |
          ⟨hne, hno, i, j, rest, hij, he⟩
        · exact Or.inl ⟨by omega, he⟩
        · exact Or.inr (Or.inl ⟨i + 1, by rw [pow_succ]; omega, by rw [he, hadd]⟩)
        · refine Or.inr (Or.inr ⟨by omega, fun k hk => ?_, i + 1, j + 1, rest, by omega,
            by rw [he, hadd, hadd]⟩)
          cases k with
          | zero => omega
          | succ k =>
              refine hno k ?_
              rw [pow_succ] at hk
              omega

/-- A block does not stand at a multiple of its span behind a smaller one. -/
theorem not_aligned_of_lt {a i j : ℕ} {rest : List Block} (hij : i < j) :
    ¬ ∀ x h, (x, h) ∈ layout Block.span a (⟨i, false⟩ :: ⟨j, false⟩ :: rest) →
      h.span ∣ x - a := by
  intro hall
  have hdvd := hall (a + 2 ^ i) ⟨j, false⟩ (by simp [Block.span])
  rw [Nat.add_sub_cancel_left, Block.span] at hdvd
  exact absurd ((Nat.pow_dvd_pow_iff_le_right (by simp)).mp hdvd) (Nat.not_le.mpr hij)

end Blocks

section Layout

variable {r r' : Ram} {spec : HeapSpec} {bs cs : List Block} {b : ℕ}

/-- The blocks of a layout are those that the headers show. -/
theorem BuddyLayout.aligned_of_written (h : BuddyLayout r r' spec bs b)
    (hheader : ∀ x h, (x, h) ∈ layout Block.span spec.start cs → r'.header x = h)
    (hstamped : ∃ written, r'.stamped = written ++ r.stamped ∧
      ∀ x, x ∈ written ↔ ∃ h, (x, h) ∈ layout Block.span spec.start cs) :
    ∀ x h, (x, h) ∈ layout Block.span spec.start cs → h.span ∣ x - spec.start := by
  intro x c hx
  obtain ⟨written, he, hmem⟩ := h.written
  obtain ⟨written', he', hmem'⟩ := hstamped
  obtain rfl : written = written' := List.append_cancel_right (he.symm.trans he')
  obtain ⟨d, hd⟩ := (hmem x).mp ((hmem' x).mpr ⟨c, hx⟩)
  obtain rfl : c = d := (hheader x c hx).symm.trans (h.tiles.header x d hd)
  exact h.aligned x c hd

/-- A heap that is the whole address space has no length in 32 bits, and no block. -/
theorem not_laysOutBuddies_whole (hstart : spec.start = 0) (hlast : spec.last = 2 ^ 32 - 1) :
    ¬ LaysOutBuddies r spec := by
  rintro ⟨r', hinit, bs, b, h⟩
  rw [initMemory_eq (by omega) (by omega), hstart, hlast] at hinit
  obtain rfl := Option.some.inj hinit
  obtain ⟨written, he, hmem⟩ := h.written
  obtain rfl : [] = written := List.append_cancel_right (show [] ++ r.stamped = _ from he)
  cases bs with
  | nil =>
      have hends := h.tiles.ends
      have hcovered := h.covered
      rw [hstart, width_nil] at hends
      rw [hlast, ← hends] at hcovered
      exact absurd hcovered (by decide)
  | cons c bs => exact absurd ((hmem spec.start).mpr ⟨c, List.mem_cons_self⟩) List.not_mem_nil

/-- **Heaps of buddies**: the number of whole units is 0 or a power of two, and the heap is not the
whole address space. -/
theorem laysOutBuddies_iff (hle : spec.start ≤ spec.last) (hlast : spec.last < 2 ^ 32) :
    LaysOutBuddies r spec ↔
      ((spec.last + 1 - spec.start) / 2 ^ minBlockSize = 0 ∨
        ∃ i, (spec.last + 1 - spec.start) / 2 ^ minBlockSize = 2 ^ i) ∧
      ¬ (spec.start = 0 ∧ spec.last = 2 ^ 32 - 1) := by
  by_cases hwhole : spec.start = 0 ∧ spec.last = 2 ^ 32 - 1
  · exact iff_of_false (not_laysOutBuddies_whole hwhole.1 hwhole.2) fun h => h.2 hwhole
  have hunits : sub32 (spec.last + 1) spec.start / 8 = (spec.last + 1 - spec.start) / 8 := by
    rw [sub32]
    omega
  have hmin : 2 ^ minBlockSize = 8 := rfl
  have hinit := @initMemory_eq r spec hle hlast
  rw [hunits] at hinit
  rw [hmin]
  set len := (spec.last + 1 - spec.start) / 8 with hlen
  have hlt : len < 2 ^ 29 := by omega
  have hfuel : len < 2 ^ 32 := hlt.trans (by simp)
  have hwidth := @width_initBlocks 32 len 3 hfuel
  have hI := @initialized_writeBlocks r spec.start (initBlocks 32 len 3) fun h hh =>
    ⟨initBlocks_unused h hh, initBlocks_size h hh, initBlocks_size_le hlt h hh⟩
  have hstamped := stamped_writeBlocks r spec.start (initBlocks 32 len 3)
  constructor
  · rintro ⟨r', hinit', bs, b, h⟩
    obtain rfl := Option.some.inj (hinit.symm.trans hinit')
    have haligned := h.aligned_of_written hI.tiles.header hstamped
    refine ⟨?_, hwhole⟩
    rcases @initBlocks_cases 32 len 3 hfuel with ⟨hzero, -⟩ | ⟨i, hi, -⟩ |
      ⟨-, -, i, j, rest, hij, he⟩
    · exact Or.inl hzero
    · exact Or.inr ⟨i, hi⟩
    · rw [he] at haligned
      exact absurd haligned (not_aligned_of_lt (by omega))
  · rintro ⟨hpower, -⟩
    refine ⟨_, hinit, _, _, hstamped, hI.tiles, ?_, ?_, ?_⟩
    · rw [hwidth]
      omega
    · rw [hwidth, hmin]
      omega
    · rcases @initBlocks_cases 32 len 3 hfuel with ⟨-, he⟩ | ⟨i, -, he⟩ | ⟨hzero, hno, -⟩
      · rw [he]
        exact fun x h hx => absurd hx List.not_mem_nil
      · rw [he]
        intro x h hx
        obtain ⟨rfl, -⟩ := Prod.mk.inj (List.mem_singleton.mp hx)
        rw [Nat.sub_self]
        exact Nat.dvd_zero _
      · rcases hpower with hpower | ⟨i, hi⟩
        · exact absurd hpower hzero
        · exact absurd hi (hno i)

/-- The kernel heap is laid out so. -/
theorem laysOutBuddies_kernelHeap : LaysOutBuddies ⟨fun _ => 0, []⟩ kernelHeap :=
  (laysOutBuddies_iff (by decide) (by decide)).mpr ⟨Or.inr ⟨26, by decide⟩, by decide⟩

/-- **A heap of three units** has a block of 16 bytes at offset 8. -/
theorem not_laysOutBuddies_three :
    ¬ ∀ (r : Ram) (spec : HeapSpec), spec.start ≤ spec.last → spec.last < 2 ^ 32 →
      LaysOutBuddies r spec := by
  intro hall
  have hlays := hall ⟨fun _ => 0, []⟩ ⟨0, 23⟩ (by simp) (by simp)
  obtain ⟨hzero | ⟨i, hi⟩, -⟩ := (laysOutBuddies_iff (by simp) (by simp)).mp hlays
  · cases hzero
  · have hthree : 3 = 2 ^ i := hi
    cases i with
    | zero => cases hthree
    | succ i =>
        rw [pow_succ] at hthree
        omega

end Layout

end LoofOS
