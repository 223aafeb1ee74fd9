import LoofOS.Coalesce
import LoofOS.FirstFit
import LoofOS.Run
import Mathlib.Order.Interval.Finset.Nat

/-!
# Runs of the Kernel Heap

The kernel heap in use: calls of `kernel_allocate` and `kernel_free`, and writes of the
owners inside their own payloads, in any order. `HeapInv s bs` says that the heap is tiled
by the blocks `bs` and that the used blocks are exactly those of the live results. Every
step keeps it (`HeapInv.allocate`, `HeapInv.free`, `HeapInv.write`), so live allocations
never overlap.

Two things that one expects of a heap do not hold of this one, both because `memory_free`
hands a payload pointer to `coalesce_block`. Freeing a block can change a payload byte of
another block (`kernelFree_changes_other_payload`), unless the loop meets no buddy below
(`kernelHeap_safe`). And freed blocks are never merged (`HeapInv.free`), see
`LoofOS.Fragmentation`.

## Main results

* `HeapInv.allocate`, `HeapInv.free`, `HeapInv.write`: the step lemmas.
* `kernelHeap_safe`: live allocations are apart and keep their payloads.
-/

namespace LoofOS

open Tiling Run

/-! ### States and operations -/

/-- The kernel heap in use: the memory and the live results of `kernel_allocate`, each
with the size that was requested. -/
structure HeapState where
  ram : Ram
  live : List (ℕ × ℕ)

/-- What can happen to the heap. `write p i v` is the owner of `p` storing `v` in byte `i`
of its payload. -/
inductive HeapOp
  | allocate (n : ℕ)
  | free (p : ℕ)
  | write (p i : ℕ) (v : UInt8)
  deriving DecidableEq

/-- One operation. Requests are 32-bit numbers, only live results are freed, and owners
write inside their own payloads. -/
def heapStep (s : HeapState) : HeapOp → Option HeapState
  | .allocate n =>
      if n < 2 ^ 32 then
        (kernelAllocate s.ram n).map fun (p, r) =>
          ⟨r, if p = 0 then s.live else (p, n) :: s.live⟩
      else none
  | .free p =>
      if s.live.any (fun a => a.1 == p) then
        (kernelFree s.ram p).map fun r => ⟨r, s.live.filter fun a => a.1 != p⟩
      else none
  | .write p i v =>
      if s.live.any (fun a => a.1 == p && decide (i < a.2)) then
        some ⟨s.ram.store (p + i) v, s.live⟩
      else none

/-- The bytes of an allocation: the header byte and the payload. -/
def liveSpan (a : ℕ × ℕ) : Finset ℕ := Finset.Ico (a.1 - 1) (a.1 + a.2)

theorem heapStep_allocate {s s' : HeapState} {n : ℕ} (h : heapStep s (.allocate n) = some s') :
    n < 2 ^ 32 ∧ ∃ p, kernelAllocate s.ram n = some (p, s'.ram) ∧
      s'.live = if p = 0 then s.live else (p, n) :: s.live := by
  rw [heapStep] at h
  split at h
  · obtain ⟨⟨p, r⟩, hr, rfl⟩ := Option.map_eq_some_iff.mp h
    exact ⟨‹_›, p, hr, rfl⟩
  · cases h

theorem heapStep_free {s s' : HeapState} {p : ℕ} (h : heapStep s (.free p) = some s') :
    (∃ n, (p, n) ∈ s.live) ∧ kernelFree s.ram p = some s'.ram ∧
      s'.live = s.live.filter fun a => a.1 != p := by
  rw [heapStep] at h
  split at h
  · rename_i hany
    obtain ⟨r, hr, rfl⟩ := Option.map_eq_some_iff.mp h
    obtain ⟨⟨q, n⟩, hmem, hq⟩ := List.any_eq_true.mp hany
    obtain rfl : q = p := beq_iff_eq.mp hq
    exact ⟨⟨n, hmem⟩, hr, rfl⟩
  · cases h

theorem heapStep_write {s s' : HeapState} {p i : ℕ} {v : UInt8}
    (h : heapStep s (.write p i v) = some s') :
    (∃ n, (p, n) ∈ s.live ∧ i < n) ∧ s' = ⟨s.ram.store (p + i) v, s.live⟩ := by
  rw [heapStep] at h
  split at h
  · rename_i hany
    obtain ⟨⟨q, n⟩, hmem, hq⟩ := List.any_eq_true.mp hany
    rw [Bool.and_eq_true, beq_iff_eq, decide_eq_true_eq] at hq
    obtain ⟨rfl, hi⟩ := hq
    exact ⟨⟨n, hmem, hi⟩, (Option.some.inj h).symm⟩
  · cases h

/-! ### The invariant -/

/-- The heap is tiled by `bs`, its last byte is zero, and the used blocks are those of
the live results, each large enough. -/
structure HeapInv (s : HeapState) (bs : List Block) : Prop where
  tiles : Tiles s.ram kernelHeap.start bs kernelHeap.last
  aligned : ∀ x h, (x, h) ∈ layout Block.span kernelHeap.start bs →
    h.span ∣ x - kernelHeap.start
  zero : s.ram.byte kernelHeap.last = 0
  live : ∀ p n, (p, n) ∈ s.live → ∃ x h, (x, h) ∈ layout Block.span kernelHeap.start bs ∧
    p = x + 1 ∧ h.used = true ∧ n + 1 ≤ h.span
  used : ∀ x h, (x, h) ∈ layout Block.span kernelHeap.start bs → h.used = true →
    ∃ n, (x + 1, n) ∈ s.live
  once : (s.live.map Prod.fst).Nodup

namespace HeapInv

variable {s : HeapState} {bs : List Block}

/-- The blocks of the heap lie in it. -/
theorem bounds (h : HeapInv s bs) {x : ℕ} {blk : Block}
    (hx : (x, blk) ∈ layout Block.span kernelHeap.start bs) :
    kernelHeap.start ≤ x ∧ x + blk.span ≤ kernelHeap.last := by
  rw [← h.tiles.ends]
  exact mem_layout_bounds hx

/-- A payload byte is no header, and not the last byte of the heap. -/
theorem payload_ne (h : HeapInv s bs) {p n i : ℕ} (hp : (p, n) ∈ s.live) (hi : i < n) :
    p + i ≠ kernelHeap.last ∧
      ∀ x blk, (x, blk) ∈ layout Block.span kernelHeap.start bs → p + i ≠ x := by
  obtain ⟨y, c, hy, rfl, -, hn⟩ := h.live p n hp
  have hb := h.bounds hy
  refine ⟨by omega, fun x blk hx => ?_⟩
  have hpos := blk.span_pos
  rcases layout_apart hy hx with ⟨rfl, rfl⟩ | hle | hle <;> omega

/-- The invariant is kept by any change of memory that spares the headers and the last
byte. -/
theorem congr (h : HeapInv s bs) {r : Ram}
    (hbyte : ∀ x blk, (x, blk) ∈ layout Block.span kernelHeap.start bs →
      r.byte x = s.ram.byte x)
    (hlast : r.byte kernelHeap.last = s.ram.byte kernelHeap.last) :
    HeapInv ⟨r, s.live⟩ bs where
  tiles := h.tiles.congr hbyte
  aligned := h.aligned
  zero := by rw [hlast, h.zero]
  live := h.live
  used := h.used
  once := h.once

/-- **Live allocations are apart.** -/
theorem disjoint (h : HeapInv s bs) :
    s.live.Pairwise fun a b => Disjoint (liveSpan a) (liveSpan b) := by
  have hne : s.live.Pairwise fun a b => a.1 ≠ b.1 := List.pairwise_map.mp h.once
  refine hne.imp_of_mem ?_
  rintro ⟨p, n⟩ ⟨q, m⟩ hp hq hpq
  obtain ⟨x, b, hx, rfl, -, hn⟩ := h.live p n hp
  obtain ⟨y, c, hy, rfl, -, hm⟩ := h.live q m hq
  rw [liveSpan, liveSpan, Finset.disjoint_left]
  intro z hz hz'
  rw [Finset.mem_Ico] at hz hz'
  simp only at hpq hz hz'
  rcases layout_apart hx hy with ⟨rfl, -⟩ | hle | hle <;> omega

/-- **Live allocations lie in the heap.** -/
theorem inside (h : HeapInv s bs) {a : ℕ × ℕ} (ha : a ∈ s.live) :
    liveSpan a ⊆ Finset.Icc kernelHeap.start kernelHeap.last := by
  obtain ⟨x, b, hx, hp, -, hn⟩ := h.live a.1 a.2 ha
  have hb := h.bounds hx
  intro z hz
  rw [liveSpan, Finset.mem_Ico] at hz
  rw [Finset.mem_Icc]
  omega

/-- The block behind an unused header belongs to nobody. -/
theorem not_used (h : HeapInv s bs) {p n i x : ℕ} {blk : Block} (hp : (p, n) ∈ s.live)
    (hi : i < n) (hx : (x, blk) ∈ layout Block.span kernelHeap.start bs)
    (hblk : blk.used = false) : p + i < x ∨ x + blk.span ≤ p + i := by
  obtain ⟨y, c, hy, rfl, hc, hn⟩ := h.live p n hp
  rcases layout_apart hy hx with ⟨-, rfl⟩ | hle | hle
  · rw [hblk] at hc
    cases hc
  · omega
  · omega

end HeapInv

/-! ### `kernel_allocate` -/

namespace HeapInv

variable {s : HeapState} {bs : List Block}

/-- The invariant after a block was taken. -/
theorem taken {r : Ram} {pre post : List Block} {blk : Block} {n k : ℕ}
    (h : HeapInv s (pre ++ blk :: post)) (hn : n + 1 ≤ 2 ^ k) (hfit : blk.fits k = true)
    (htaken : TakenFrom s.ram r (kernelHeap.start + width Block.span pre) k blk.size)
    (hT : Tiles r kernelHeap.start (pre ++ (⟨k, true⟩ :: splits k blk.size) ++ post)
      kernelHeap.last) :
    HeapInv ⟨r, (kernelHeap.start + width Block.span pre + 1, n) :: s.live⟩
      (pre ++ (⟨k, true⟩ :: splits k blk.size) ++ post) := by
  rw [Block.fits, Bool.and_eq_true, Bool.not_eq_true', decide_eq_true_eq] at hfit
  obtain ⟨hunused, hks⟩ := hfit
  set a := kernelHeap.start + width Block.span pre with ha
  have hwidth : width Block.span (⟨k, true⟩ :: splits k blk.size) = blk.span :=
    width_pieces hks
  have hself : (a, blk) ∈ layout Block.span kernelHeap.start (pre ++ blk :: post) := by
    simp [ha]
  have hbounds := h.bounds hself
  refine ⟨hT, ?_, ?_, ?_, ?_, ?_⟩
  · -- the pieces lie at multiples of their spans
    intro x b hx
    have hdvd := h.aligned a blk hself
    rcases (mem_layout_replace hwidth).mp hx with hx | hx
    · exact h.aligned x b (mem_layout_cons.mpr (Or.inl hx))
    rcases mem_layout_pieces.mp hx with ⟨rfl, rfl⟩ | ⟨j, hkj, hjs, rfl, rfl⟩
    · exact (Nat.pow_dvd_pow 2 hks).trans hdvd
    · have hj : 2 ^ j ∣ a - kernelHeap.start := (Nat.pow_dvd_pow 2 hjs.le).trans hdvd
      have hsub : a + 2 ^ j - kernelHeap.start = a - kernelHeap.start + 2 ^ j := by omega
      rw [← ha, hsub]
      exact Nat.dvd_add hj (Nat.dvd_refl _)
  · rw [htaken.byte_outside (Or.inr ?_), h.zero]
    exact hbounds.2
  · -- the other live blocks are among the blocks that stay
    intro p m hp
    rcases List.mem_cons.mp hp with he | hp
    · obtain ⟨rfl, rfl⟩ := Prod.mk.inj he
      exact ⟨a, _, (mem_layout_replace hwidth).mpr (Or.inr List.mem_cons_self), rfl, rfl, hn⟩
    · obtain ⟨x, b, hx, rfl, hb, hm⟩ := h.live p m hp
      rcases mem_layout_cons.mp hx with hx | ⟨-, rfl⟩
      · exact ⟨x, b, (mem_layout_replace hwidth).mpr (Or.inl hx), rfl, hb, hm⟩
      · rw [hunused] at hb
        cases hb
  · intro x b hx hb
    rcases (mem_layout_replace hwidth).mp hx with hx | hx
    · obtain ⟨m, hm⟩ := h.used x b (mem_layout_cons.mpr (Or.inl hx)) hb
      exact ⟨m, List.mem_cons_of_mem _ hm⟩
    rcases mem_layout_pieces.mp hx with ⟨rfl, rfl⟩ | ⟨j, -, -, -, rfl⟩
    · exact ⟨n, List.mem_cons_self⟩
    · cases hb
  · -- the block was unused, so no live result points to it
    rw [List.map_cons, List.nodup_cons]
    refine ⟨fun hmem => ?_, h.once⟩
    obtain ⟨⟨q, m⟩, hq, he⟩ := List.mem_map.mp hmem
    obtain ⟨x, b, hx, rfl, hb, -⟩ := h.live q m hq
    obtain rfl : x = a := Nat.succ.inj he
    rcases layout_apart hx hself with ⟨-, rfl⟩ | hle | hle
    · rw [hunused] at hb
      cases hb
    · have := b.span_pos
      omega
    · have := blk.span_pos
      omega

/-- What a call of `kernel_allocate` can do, see `memoryAllocate_cases`. -/
theorem allocate_cases {r : Ram} {n p : ℕ} (h : HeapInv s bs)
    (hcall : kernelAllocate s.ram n = some (p, r)) :
    ∃ k, roundBlockSize (wrap32 (n + 1)) = some k ∧
      ((p = 0 ∧ r = s.ram ∧ ∀ h ∈ bs, h.fits k = false) ∨
        ∃ pre blk post, bs = pre ++ blk :: post ∧ blk.fits k = true ∧
          p = kernelHeap.start + width Block.span pre + 1 ∧
          TakenFrom s.ram r (kernelHeap.start + width Block.span pre) k blk.size ∧
          Tiles r kernelHeap.start (pre ++ (⟨k, true⟩ :: splits k blk.size) ++ post)
            kernelHeap.last) :=
  memoryAllocate_cases h.tiles (Or.inr ⟨rfl, h.zero⟩) (by decide) hcall

/-- **`kernel_allocate` keeps the invariant** and changes no payload byte of a live
allocation; it never lowers the number of blocks, and a block that is larger than needed
raises it. -/
theorem allocate {r : Ram} {n p : ℕ} (h : HeapInv s bs) (hn : n + 1 < 2 ^ 32)
    (hcall : kernelAllocate s.ram n = some (p, r)) :
    (∃ bs', HeapInv ⟨r, if p = 0 then s.live else (p, n) :: s.live⟩ bs' ∧
        bs.length ≤ bs'.length ∧
        (n + 1 < 2 ^ 28 → bs = [⟨29, false⟩] → 2 ≤ bs'.length)) ∧
      ∀ q m i, (q, m) ∈ s.live → i < m → r.byte (q + i) = s.ram.byte (q + i) := by
  obtain ⟨k, hk, hcase⟩ := h.allocate_cases hcall
  rw [wrap32_of_lt hn] at hk
  obtain ⟨h3, h31, hnk, hkn⟩ := roundBlockSize_eq_some hk
  rcases hcase with ⟨rfl, rfl, hno⟩ | ⟨pre, blk, post, rfl, hfit, rfl, htaken, hT⟩
  · refine ⟨⟨bs, h, le_refl _, ?_⟩, fun q m i _ _ => rfl⟩
    rintro hsmall rfl
    have hlt : k ≤ 29 := by
      by_contra hge
      have := hkn (by omega)
      have hpow : 2 ^ 29 ≤ 2 ^ (k - 1) := Nat.pow_le_pow_right Nat.two_pos (by omega)
      omega
    have hfalse := hno ⟨29, false⟩ List.mem_cons_self
    rw [Block.fits, Bool.not_false, Bool.true_and, decide_eq_false_iff_not] at hfalse
    exact absurd hlt hfalse
  · refine ⟨⟨pre ++ (⟨k, true⟩ :: splits k blk.size) ++ post, ?_, ?_, ?_⟩,
      fun q m i hq hi => ?_⟩
    · rw [if_neg (Nat.succ_ne_zero _)]
      exact h.taken (by omega) hfit htaken hT
    · simp only [List.length_append, List.length_cons]
      omega
    · intro hsmall hone
      have hlt : k < 29 := by
        by_contra hge
        have := hkn (by omega)
        have hpow : 2 ^ 28 ≤ 2 ^ (k - 1) := Nat.pow_le_pow_right Nat.two_pos (by omega)
        omega
      have hblk : blk ∈ [(⟨29, false⟩ : Block)] := by
        rw [← hone]
        exact List.mem_append_right _ List.mem_cons_self
      obtain rfl := List.mem_singleton.mp hblk
      simp only [List.length_append, List.length_cons, splits, List.length_map,
        List.length_range']
      omega
    · have hself : (kernelHeap.start + width Block.span pre, blk)
          ∈ layout Block.span kernelHeap.start (pre ++ blk :: post) := by simp
      rw [Block.fits, Bool.and_eq_true, Bool.not_eq_true'] at hfit
      have hout := h.not_used hq hi hself hfit.1
      rw [Block.span] at hout
      exact htaken.byte_outside hout

end HeapInv

/-! ### `kernel_free` and the owners -/

/-- Where `kernel_free` is called: at a header that stands on an 8-byte unit. -/
theorem HeapInv.unit {s : HeapState} {bs : List Block} (h : HeapInv s bs) {x : ℕ}
    {blk : Block} (hx : (x, blk) ∈ layout Block.span kernelHeap.start bs) :
    ∃ u, x = kernelHeap.start + 8 * u ∧ 8 * u + 8 ≤ 2 ^ 29 := by
  have h3 := (h.tiles.size blk (mem_of_mem_layout hx)).1
  have h8 : 2 ^ 3 ∣ blk.span := Nat.pow_dvd_pow 2 h3
  have hb := h.bounds hx
  have hstart := kernelHeap_start
  have hlast := kernelHeap_last
  obtain ⟨u, hu⟩ := h8.trans (h.aligned x blk hx)
  have hle : 2 ^ 3 ≤ blk.span := Nat.le_of_dvd blk.span_pos h8
  exact ⟨u, by omega, by omega⟩

/-- **`kernel_free` keeps the invariant.** The block becomes unused; no block is merged. -/
theorem HeapInv.free {s : HeapState} {bs : List Block} {r : Ram} {p n : ℕ}
    (h : HeapInv s bs) (hp : (p, n) ∈ s.live) (hcall : kernelFree s.ram p = some r) :
    ∃ bs', HeapInv ⟨r, s.live.filter fun a => a.1 != p⟩ bs' ∧
      bs'.map Block.size = bs.map Block.size := by
  obtain ⟨x, blk, hx, rfl, hused, -⟩ := h.live p n hp
  obtain ⟨u, hxu, hu⟩ := h.unit hx
  have hsize := h.tiles.size blk (mem_of_mem_layout hx)
  have hhead : s.ram.header x = ⟨blk.size, true⟩ := by
    rw [h.tiles.header x blk hx, ← hused]
  rw [hxu] at hcall hhead
  obtain ⟨hfreed, hkeep⟩ := kernelFree_frame hu hsize hhead hcall
  rw [← hxu] at hfreed hkeep
  obtain ⟨pre, post, rfl, hxpre⟩ := exists_append_of_mem_layout hx
  subst hxpre
  have hspan : Block.span ⟨blk.size, false⟩ = blk.span := rfl
  set x := kernelHeap.start + width Block.span pre with hx0
  -- the other blocks stay
  have hother : ∀ {y b}, ((y, b) ∈ layout Block.span kernelHeap.start pre ∨
      (y, b) ∈ layout Block.span (x + blk.span) post) →
      y ≠ x ∧ OffPayload y ∧ s.ram.header y = b ∧ b.span ∣ y - kernelHeap.start := by
    intro y b hy
    have hmem := mem_layout_cons.mpr (Or.inl hy)
    have hpos := blk.span_pos
    have hpos' := b.span_pos
    obtain ⟨v, rfl, hv⟩ := h.unit hmem
    have hstart := kernelHeap_start
    have hlast := kernelHeap_last
    refine ⟨?_, ⟨by omega, by omega, by omega⟩, h.tiles.header _ b hmem, h.aligned _ b hmem⟩
    rcases apart_of_mem_around hy with hle | hle <;> omega
  refine ⟨pre ++ ⟨blk.size, false⟩ :: post, ⟨⟨?_, ?_, ?_⟩, ?_, ?_, ?_, ?_, ?_⟩, by simp⟩
  · have hends := h.tiles.ends
    rw [width_append, width_cons] at hends ⊢
    exact hends
  · intro y b hy
    rcases mem_layout_cons.mp hy with hy | ⟨rfl, rfl⟩
    · obtain ⟨hne, hoff, hhead, -⟩ := hother hy
      rw [Ram.header_congr (hkeep y hoff hne), hhead]
    · exact hfreed
  · intro b hb
    rcases List.mem_append.mp hb with hb | hb
    · exact h.tiles.size b (List.mem_append_left _ hb)
    rcases List.mem_cons.mp hb with rfl | hb
    · exact hsize
    · exact h.tiles.size b (List.mem_append_right _ (List.mem_cons_of_mem _ hb))
  · intro y b hy
    rcases mem_layout_cons.mp hy with hy | ⟨rfl, rfl⟩
    · exact (hother hy).2.2.2
    · exact h.aligned _ blk hx
  · have hlast := kernelHeap_last
    have hstart := kernelHeap_start
    have hb := h.bounds hx
    have hpos := blk.span_pos
    rw [hkeep kernelHeap.last ⟨by omega, le_refl _, by omega⟩ (by omega), h.zero]
  · intro q m hq
    obtain ⟨hq, hne⟩ := List.mem_filter.mp hq
    obtain ⟨y, b, hy, rfl, hb, hm⟩ := h.live q m hq
    rcases mem_layout_cons.mp hy with hy | ⟨rfl, rfl⟩
    · exact ⟨y, b, mem_layout_cons.mpr (Or.inl hy), rfl, hb, hm⟩
    · exact absurd rfl (bne_iff_ne.mp hne)
  · intro y b hy hb
    rcases mem_layout_cons.mp hy with hy | ⟨-, rfl⟩
    · obtain ⟨m, hm⟩ := h.used y b (mem_layout_cons.mpr (Or.inl hy)) hb
      have hne := (hother hy).1
      exact ⟨m, List.mem_filter.mpr ⟨hm, bne_iff_ne.mpr fun he => hne (Nat.succ.inj he)⟩⟩
    · cases hb
  · exact h.once.sublist (List.filter_sublist.map _)

/-- **Owners keep the invariant**: they write inside their payloads only. -/
theorem HeapInv.write {s : HeapState} {bs : List Block} {p n i : ℕ} (h : HeapInv s bs)
    (hp : (p, n) ∈ s.live) (hi : i < n) (v : UInt8) :
    HeapInv ⟨s.ram.store (p + i) v, s.live⟩ bs := by
  obtain ⟨hlast, hne⟩ := h.payload_ne hp hi
  exact h.congr (fun x blk hx => Mem.store_of_ne v (hne x blk hx).symm)
    (Mem.store_of_ne v hlast.symm)

/-! ### Runs -/

/-- After `init_kernel_heap` the heap is one unused block. -/
theorem initKernelHeap_inv {r₀ r₁ : Ram} (hzero : r₀.byte kernelHeap.last = 0)
    (hinit : initKernelHeap r₀ = some r₁) : HeapInv ⟨r₁, []⟩ [⟨29, false⟩] := by
  obtain ⟨r', hr', hI⟩ := @initMemory_spec r₀ kernelHeap (by decide) (by decide)
  rw [initKernelHeap, hr'] at hinit
  obtain rfl := Option.some.inj hinit
  have hblocks : initBlocks 32 ((kernelHeap.last + 1 - kernelHeap.start) / 8) 3
      = [⟨29, false⟩] := by decide
  rw [hblocks] at hI
  refine ⟨hI.tiles, ?_, ?_, by simp, ?_, by simp⟩
  · simp only [layout_cons, layout_nil, List.mem_singleton, Prod.mk.injEq]
    rintro x h ⟨rfl, rfl⟩
    rw [Nat.sub_self]
    exact Nat.dvd_zero _
  · rw [hI.byte kernelHeap.last ?_, hzero]
    simp only [layout_cons, layout_nil, List.mem_singleton, Prod.mk.injEq]
    rintro h ⟨he, -⟩
    exact absurd he (by decide)
  · simp only [layout_cons, layout_nil, List.mem_singleton, Prod.mk.injEq]
    rintro x h ⟨rfl, rfl⟩ hused
    cases hused

/-- Size and header of a request fit in 32 bits. -/
def NoWrap (_ : HeapState) : HeapOp → Prop
  | .allocate n => n + 1 < 2 ^ 32
  | _ => True

/-- **Every step keeps the invariant**, and no step lowers the number of blocks. -/
theorem heapStep_inv {s s' : HeapState} {op : HeapOp} {bs : List Block} (h : HeapInv s bs)
    (hop : NoWrap s op) (hstep : heapStep s op = some s') :
    ∃ bs', HeapInv s' bs' ∧ bs.length ≤ bs'.length := by
  cases op with
  | allocate n =>
      obtain ⟨-, p, hcall, hlive⟩ := heapStep_allocate hstep
      obtain ⟨⟨bs', hinv, hlen, -⟩, -⟩ := h.allocate hop hcall
      rw [← hlive] at hinv
      exact ⟨bs', hinv, hlen⟩
  | free p =>
      obtain ⟨⟨n, hp⟩, hcall, hlive⟩ := heapStep_free hstep
      obtain ⟨bs', hinv, hsizes⟩ := h.free hp hcall
      rw [← hlive] at hinv
      have hlen := congrArg List.length hsizes
      rw [List.length_map, List.length_map] at hlen
      exact ⟨bs', hinv, hlen.ge⟩
  | write p i v =>
      obtain ⟨⟨n, hp, hi⟩, rfl⟩ := heapStep_write hstep
      exact ⟨bs, h.write hp hi v, le_refl _⟩

/-- The frees for which the loop of `coalesce_block`, started at the payload pointer, moves
to no lower buddy: every buddy it finds unused and of equal size lies above. -/
def FreesInPlace (s : HeapState) : HeapOp → Prop
  | .free p => StopsInPlace (s.ram.setUsed (sub32 p 1) false) kernelHeap.start p
  | _ => True

instance (s : HeapState) : ∀ op, Decidable (FreesInPlace s op)
  | .free p => inferInstanceAs (Decidable (StopsInPlace _ _ p))
  | .allocate _ => isTrue trivial
  | .write _ _ _ => isTrue trivial

/-- The calls of the allocator, as opposed to what the owners do. -/
def HeapOp.isCall : HeapOp → Bool
  | .allocate _ => true
  | .free _ => true
  | .write _ _ _ => false

/-- The live allocations are pairwise disjoint and inside the heap. -/
def SpansSafe (s : HeapState) : Prop :=
  (s.live.Pairwise fun a b => Disjoint (liveSpan a) (liveSpan b)) ∧
    ∀ a ∈ s.live, liveSpan a ⊆ Finset.Icc kernelHeap.start kernelHeap.last

/-- A call changes no payload byte of an allocation that is live before and after. -/
def PayloadsKept (s : HeapState) (op : HeapOp) : Prop :=
  ∀ s', heapStep s op = some s' → op.isCall = true →
    ∀ p n i, (p, n) ∈ s.live → (p, n) ∈ s'.live → i < n →
      s'.ram.byte (p + i) = s.ram.byte (p + i)

theorem HeapInv.spansSafe {s : HeapState} {bs : List Block} (h : HeapInv s bs) :
    SpansSafe s :=
  ⟨h.disjoint, fun _ ha => h.inside ha⟩

/-- A free whose loop stays in place changes the header and the first payload byte of its
own block only. -/
theorem kernelFree_of_stopsInPlace {r r' : Ram} {p x : ℕ}
    (hstop : StopsInPlace (r.setUsed (sub32 p 1) false) kernelHeap.start p)
    (hcall : kernelFree r p = some r') (hx : x ≠ p) (hx' : x ≠ sub32 p 1) :
    r'.byte x = r.byte x := by
  rw [kernelFree, memoryFree] at hcall
  rw [coalesceBlock_of_stopsInPlace (by decide) hstop hcall x hx]
  exact Ram.byte_setUsed_of_ne false hx'

/-- **One step**: where the frees stay in place, the payloads are kept. -/
theorem HeapInv.payloadsKept {s : HeapState} {op : HeapOp} {bs : List Block}
    (h : HeapInv s bs) (hop : NoWrap s op) (hfree : FreesInPlace s op) :
    PayloadsKept s op := by
  intro s' hstep hkind q m i hq hq' hi
  cases op with
  | allocate n =>
      obtain ⟨-, p, hcall, -⟩ := heapStep_allocate hstep
      exact (h.allocate hop hcall).2 q m i hq hi
  | free p =>
      obtain ⟨⟨n, hp⟩, hcall, hlive⟩ := heapStep_free hstep
      rw [hlive] at hq'
      have hne : q ≠ p := bne_iff_ne.mp (List.mem_filter.mp hq').2
      obtain ⟨x, b, hx, rfl, -, hm⟩ := h.live q m hq
      obtain ⟨y, c, hy, rfl, -, hn⟩ := h.live p n hp
      have hb := h.bounds hx
      have hc := h.bounds hy
      have hlast := kernelHeap_last
      have hown : sub32 (y + 1) 1 = y := by
        rw [sub32_of_le (by omega) (by omega), Nat.add_sub_cancel]
      -- the bytes of the two blocks are apart
      have hapart : x + b.span ≤ y ∨ y + c.span ≤ x := by
        rcases layout_apart hx hy with ⟨rfl, -⟩ | hle
        · exact absurd rfl hne
        · exact hle
      refine kernelFree_of_stopsInPlace hfree hcall ?_ ?_ <;> omega
  | write p j v => cases hkind

/-- **The kernel heap is safe in every run whose frees stay in place**: in every state
the live allocations are disjoint and inside the heap, and no call of the allocator
changes a payload byte of an allocation that stays live. -/
theorem kernelHeap_safe {r₀ r₁ : Ram} {ops : List HeapOp}
    (hzero : r₀.byte kernelHeap.last = 0) (hinit : initKernelHeap r₀ = some r₁)
    (hsize : ∀ n, HeapOp.allocate n ∈ ops → n < 2 ^ 29)
    (hfree : Meets heapStep FreesInPlace ⟨r₁, []⟩ ops) :
    Meets heapStep (fun s op => SpansSafe s ∧ PayloadsKept s op) ⟨r₁, []⟩ ops ∧
      ∀ s, exec heapStep ⟨r₁, []⟩ ops = some s → SpansSafe s := by
  have hwrap : Meets heapStep NoWrap ⟨r₁, []⟩ ops := by
    refine Meets.of_forall_mem (fun op hop s => ?_) _
    cases op with
    | allocate n =>
        have := hsize n hop
        exact show n + 1 < 2 ^ 32 by omega
    | free p => trivial
    | write p i v => trivial
  have hI : ∃ bs, HeapInv ⟨r₁, []⟩ bs := ⟨_, initKernelHeap_inv hzero hinit⟩
  have hkeep : ∀ s op s', (∃ bs, HeapInv s bs) → NoWrap s op → heapStep s op = some s' →
      ∃ bs, HeapInv s' bs := by
    rintro s op s' ⟨bs, h⟩ hop hstep
    obtain ⟨bs', h', -⟩ := heapStep_inv h hop hstep
    exact ⟨bs', h'⟩
  refine ⟨?_, fun s hs => ?_⟩
  · refine Meets.imp_of_invariant (I := fun s => ∃ bs, HeapInv s bs)
      (fun s op s' h hop => hkeep s op s' h hop.1) ?_ hI (hwrap.and hfree)
    rintro s op ⟨bs, h⟩ ⟨hop, hop'⟩
    exact ⟨h.spansSafe, h.payloadsKept hop hop'⟩
  · obtain ⟨bs, h⟩ := exec_invariant_of_meets hkeep hI hwrap hs
    exact h.spansSafe

/-- Memory of zeros. -/
def zeroRam : Ram := ⟨fun _ => 0, []⟩

/-- The kernel heap right after boot, on memory of zeros. -/
def bootRam : Ram := (initKernelHeap zeroRam).getD zeroRam

theorem initKernelHeap_zeroRam : initKernelHeap zeroRam = some bootRam := by
  have h : (initKernelHeap zeroRam).isSome = true := by decide +kernel
  obtain ⟨r, hr⟩ := Option.isSome_iff_exists.mp h
  rw [bootRam, hr, Option.getD_some]

/-- Two blocks, the first of which is freed, stay in place. -/
theorem kernelHeap_safe_two_blocks :
    Meets heapStep (fun s op => SpansSafe s ∧ PayloadsKept s op) ⟨bootRam, []⟩
      [.allocate 5, .allocate 9, .write 0xd0000010 8 7, .free 0xd0000000] :=
  (kernelHeap_safe rfl initKernelHeap_zeroRam
    (fun n hn => by simp at hn; omega) (by decide +kernel)).1

/-- **Freeing a block can change a payload byte of another.** With the value 3 in the first
payload bytes of two neighbouring blocks, freeing the second one takes the two values for
the sizes of two unused buddies, and makes the first one 4. -/
theorem kernelFree_changes_other_payload :
    ¬ ∀ (r₀ r₁ : Ram) (ops : List HeapOp), r₀.byte kernelHeap.last = 0 →
      initKernelHeap r₀ = some r₁ → (∀ n, HeapOp.allocate n ∈ ops → n < 2 ^ 29) →
      Meets heapStep (fun s op => SpansSafe s ∧ PayloadsKept s op) ⟨r₁, []⟩ ops := by
  intro hall
  have hmeets := hall zeroRam bootRam
    ([.allocate 1, .allocate 1, .write 0xd0000000 0 3, .write 0xd0000008 0 3] ++
      [.free 0xd0000008]) rfl initKernelHeap_zeroRam
    (fun n hn => by simp at hn; omega)
  have hrun : ((exec heapStep ⟨bootRam, []⟩
      [.allocate 1, .allocate 1, .write 0xd0000000 0 3, .write 0xd0000008 0 3]).bind
      fun s => (heapStep s (.free 0xd0000008)).map fun s' =>
        (s.live, s.ram.byte 0xd0000000, s'.live, s'.ram.byte 0xd0000000))
      = some ([(0xd0000008, 1), (0xd0000000, 1)], 3, [(0xd0000000, 1)], 4) := by decide +kernel
  obtain ⟨s, hs, hrest⟩ := Option.bind_eq_some_iff.mp hrun
  obtain ⟨s', hs', he⟩ := Option.map_eq_some_iff.mp hrest
  simp only [Prod.mk.injEq] at he
  obtain ⟨hlive, hbyte, hlive', hbyte'⟩ := he
  have hkept := (hmeets.of_exec hs).2 s' hs' rfl 0xd0000000 1 0 (by simp [hlive])
    (by simp [hlive']) Nat.one_pos
  rw [Nat.add_zero, hbyte, hbyte'] at hkept
  exact absurd hkept (by simp)

end LoofOS
