import LoofOS.Alloc
import LoofOS.Tiling

/-!
# The Heap as a Tiling by Blocks

The abstract heap is a list of blocks, each with a size and a used bit. `Tiles r a bs b`
says that the headers of the memory `r` lay out exactly these blocks on the addresses
from `a` up to `b`. On such a memory the search of `memory_allocate` finds the first unused
block of the list that is large enough, and splitting a block puts smaller ones behind what is
left of it (`splits`). What becomes of the list as a whole is in `LoofOS.FirstFit`.

## Main results

* `roundBlockSize_spec`: the size that `round_block_size` returns below `2 ^ 31`.
* `searchLoop_none`, `searchLoop_some`: the search is first fit.
* `layout_splits`, `width_splits`: the unused blocks behind a block that has been split.
-/

namespace LoofOS

open Tiling

/-! ### Arithmetic of sizes -/

/-- **`round_block_size` below `2 ^ 31`**: the least size from `MIN_BLOCK_SIZE` on whose
block is larger than the request. -/
theorem roundBlockSize_spec {n : ℕ} (hn : n < 2 ^ 31) :
    ∃ k, roundBlockSize n = some k ∧ 3 ≤ k ∧ k ≤ 31 ∧ n < 2 ^ k ∧
      (3 < k → 2 ^ (k - 1) ≤ n) := by
  have hgo : ∀ s s', (2 ≤ s ∧ s ≤ 30 ∧ (2 < s → 2 ^ s ≤ n)) → roundBody n s = Sum.inl s' →
      (2 ≤ s' ∧ s' ≤ 30 ∧ (2 < s' → 2 ^ s' ≤ n)) ∧ 31 - s' < 31 - s := by
    rintro s s' ⟨h2, h30, -⟩ hb
    rw [roundBody, bit32_of_lt (by omega)] at hb
    split at hb
    · obtain rfl := Sum.inl.inj hb
      have hle : 2 ^ (s + 1) ≤ n := by
        by_contra hlt
        exact ‹n / 2 ^ (s + 1) ≠ 0› (Nat.div_eq_of_lt (by omega))
      have hs : s + 1 < 31 := (Nat.pow_lt_pow_iff_right Nat.one_lt_two).mp (hle.trans_lt hn)
      exact ⟨⟨by omega, by omega, fun _ => hle⟩, by omega⟩
    · cases hb
  have hret : ∀ s r, (2 ≤ s ∧ s ≤ 30 ∧ (2 < s → 2 ^ s ≤ n)) → roundBody n s = Sum.inr r →
      3 ≤ r ∧ r ≤ 31 ∧ n < 2 ^ r ∧ (3 < r → 2 ^ (r - 1) ≤ n) := by
    rintro s r ⟨h2, h30, hle⟩ hb
    rw [roundBody, bit32_of_lt (by omega)] at hb
    split at hb
    · cases hb
    · obtain rfl := Sum.inr.inj hb
      have hlt : n < 2 ^ (s + 1) := by
        have := Nat.div_eq_zero_iff.mp (not_not.mp ‹¬ n / 2 ^ (s + 1) ≠ 0›)
        have := Nat.two_pow_pos (s + 1)
        omega
      exact ⟨by omega, by omega, hlt, fun h => hle (by omega)⟩
  obtain ⟨k, hk, h3, h31, hlt, hle⟩ :=
    Loop.iter_total (fun s => 31 - s) hgo hret (s := minBlockSize - 1)
      ⟨le_refl _, by decide, fun h => absurd h (by decide)⟩ 64 (by decide)
  refine ⟨k, ?_, h3, h31, hlt, hle⟩
  have hnot : ¬ bit32 k < n := by
    rw [bit32_of_lt (by omega)]
    omega
  simp only [roundBlockSize, hk, Option.map_some, hnot, if_false]

/-! ### Lists of blocks in memory -/

/-- The number of bytes of a block, header included. -/
def Block.span (b : Block) : ℕ := 2 ^ b.size

/-- A block that `memory_allocate` takes for a request of size `k`. -/
def Block.fits (k : ℕ) (b : Block) : Bool := !b.used && decide (k ≤ b.size)

/-- The headers of `r` lay out the blocks `bs` from `a` up to `b`. -/
structure Tiles (r : Ram) (a : ℕ) (bs : List Block) (b : ℕ) : Prop where
  ends : a + width Block.span bs = b
  header : ∀ x h, (x, h) ∈ layout Block.span a bs → r.header x = h
  size : ∀ h ∈ bs, 3 ≤ h.size ∧ h.size ≤ 31

theorem Block.span_pos (b : Block) : 1 ≤ b.span := Nat.two_pow_pos _

/-- A tiling is kept by any memory that agrees on its headers. -/
theorem Tiles.congr {r r' : Ram} {a b : ℕ} {bs : List Block} (h : Tiles r a bs b)
    (hbyte : ∀ x h, (x, h) ∈ layout Block.span a bs → r'.byte x = r.byte x) :
    Tiles r' a bs b where
  ends := h.ends
  header x blk hx := by rw [Ram.header_congr (hbyte x blk hx), h.header x blk hx]
  size := h.size

theorem Tiles.append {r : Ram} {a b c : ℕ} {bs cs : List Block} (h : Tiles r a bs b)
    (h' : Tiles r b cs c) : Tiles r a (bs ++ cs) c where
  ends := by rw [width_append, ← Nat.add_assoc, h.ends, h'.ends]
  header x blk hx := by
    rw [layout_append, h.ends, List.mem_append] at hx
    exact hx.elim (h.header x blk) (h'.header x blk)
  size blk hb := (List.mem_append.mp hb).elim (h.size blk) (h'.size blk)

/-- A tiling is cut between any two of its blocks. -/
theorem Tiles.split {r : Ram} {a b : ℕ} {bs cs : List Block} (h : Tiles r a (bs ++ cs) b) :
    Tiles r a bs (a + width Block.span bs) ∧ Tiles r (a + width Block.span bs) cs b := by
  refine ⟨⟨rfl, fun x blk hx => h.header x blk ?_, fun blk hb => h.size blk ?_⟩,
    ⟨?_, fun x blk hx => h.header x blk ?_, fun blk hb => h.size blk ?_⟩⟩
  · rw [layout_append]
    exact List.mem_append_left _ hx
  · exact List.mem_append_left _ hb
  · rw [← h.ends, width_append, Nat.add_assoc]
  · rw [layout_append]
    exact List.mem_append_right _ hx
  · exact List.mem_append_right _ hb

theorem Tiles.length_le {r : Ram} {a b : ℕ} {bs : List Block} (h : Tiles r a bs b) :
    bs.length ≤ b - a := by
  have hlen : bs.length ≤ width Block.span bs := length_le_width fun blk _ => blk.span_pos
  have hends := h.ends
  omega

/-! ### The search -/

section Search

variable {r : Ram} {spec : HeapSpec} {k : ℕ}

theorem fits_header (a : ℕ) :
    (r.header a).fits k = (!r.used a && decide (k ≤ r.size a)) := rfl

theorem searchBody_fit {a : ℕ} (ha : a ≤ spec.last) (hfit : (r.header a).fits k = true) :
    searchBody r spec k a = Sum.inr (some a) := by
  rw [searchBody, if_pos ha, ← fits_header, if_pos hfit]

theorem searchBody_skip {a : ℕ} (ha : a ≤ spec.last) (hfit : (r.header a).fits k = false) :
    searchBody r spec k a = Sum.inl (wrap32 (a + bit32 (r.size a))) := by
  rw [fits_header] at hfit
  rw [searchBody, if_pos ha, hfit, if_neg (by simp)]

theorem searchBody_end {a : ℕ} (ha : spec.last < a) : searchBody r spec k a = Sum.inr none := by
  rw [searchBody, if_neg (by omega)]

/-- One round of the search over the first block of a tiling that does not fit. -/
theorem searchBody_tiles {a b : ℕ} {blk : Block} {bs : List Block}
    (hT : Tiles r a (blk :: bs) b) (hb : b ≤ spec.last + 1) (hlt : a + blk.span < 2 ^ 32)
    (hno : blk.fits k = false) : searchBody r spec k a = Sum.inl (a + blk.span) := by
  have hhead : r.header a = blk := hT.header a blk (by simp)
  have hsize : r.size a = blk.size := congrArg Block.size hhead
  have hle := hT.ends
  have hpos := blk.span_pos
  have hsz := hT.size blk List.mem_cons_self
  rw [width_cons] at hle
  rw [searchBody_skip (by omega) (by rw [hhead]; exact hno), hsize, bit32_of_lt (by omega)]
  rw [Block.span] at hlt ⊢
  rw [wrap32_of_lt hlt]

/-- Blocks that do not fit are passed one a round. -/
theorem iter_searchBody_skip {a b : ℕ} {bs : List Block} (hT : Tiles r a bs b)
    (hb : b ≤ spec.last + 1) (hlt : b < 2 ^ 32) (hno : ∀ h ∈ bs, h.fits k = false)
    (fuel : ℕ) :
    Loop.iter (searchBody r spec k) (fuel + bs.length) a
      = Loop.iter (searchBody r spec k) fuel b := by
  induction bs generalizing a with
  | nil =>
      obtain rfl : a = b := hT.ends
      rfl
  | cons blk bs ih =>
      obtain ⟨-, hT'⟩ := @Tiles.split r a b [blk] bs hT
      have hends := hT.ends
      rw [width_cons] at hends
      have hround := searchBody_tiles hT hb (by omega) (hno blk List.mem_cons_self)
      have hrest := ih (by simpa using hT') fun h hh => hno h (List.mem_cons_of_mem _ hh)
      rw [List.length_cons, ← Nat.add_assoc, Loop.iter_succ_of_inl hround, hrest]

/-- Where the walk over a tiling leaves the loop: past the last address, or on it when a
zero byte stands there, which reads as an unused block of one byte. -/
def HeapSpec.Stops (spec : HeapSpec) (r : Ram) (b : ℕ) : Prop :=
  b = spec.last + 1 ∨ (b = spec.last ∧ r.byte spec.last = 0)

theorem HeapSpec.Stops.le {b : ℕ} (h : spec.Stops r b) : b ≤ spec.last + 1 := by
  rcases h with rfl | ⟨rfl, -⟩ <;> omega

/-- At the end of the tiling the search gives up. -/
theorem iter_searchBody_end {b : ℕ} (hstop : spec.Stops r b) (hlast : spec.last + 1 < 2 ^ 32)
    (hk : 1 ≤ k) (fuel : ℕ) : Loop.iter (searchBody r spec k) (fuel + 2) b = some none := by
  rcases hstop with rfl | ⟨rfl, hzero⟩
  · exact Loop.iter_succ_of_inr (searchBody_end (by omega)) _
  · have hsize : r.size spec.last = 0 := by rw [Ram.size, hzero]; rfl
    have hno : (r.header spec.last).fits k = false := by
      rw [fits_header, hsize, decide_eq_false (by omega), Bool.and_false]
    have hround := searchBody_skip (le_refl spec.last) hno
    have hnext : wrap32 (spec.last + bit32 (r.size spec.last)) = spec.last + 1 := by
      rw [hsize, bit32_of_lt (by simp), pow_zero, wrap32_of_lt hlast]
    rw [hnext] at hround
    rw [Loop.iter_succ_of_inl hround]
    exact Loop.iter_succ_of_inr (searchBody_end (by omega)) _

/-- **No block fits**: the search ends without one. -/
theorem searchLoop_none {b : ℕ} {bs : List Block} (hT : Tiles r spec.start bs b)
    (hstop : spec.Stops r b) (hlast : spec.last + 1 < 2 ^ 32) (hk : 1 ≤ k)
    (hno : ∀ h ∈ bs, h.fits k = false) : searchLoop r spec k = some none := by
  have hlen := hT.length_le
  have hle := hstop.le
  obtain ⟨fuel, hfuel⟩ : ∃ fuel, 2 ^ 32 + 1 = (fuel + 2) + bs.length :=
    ⟨2 ^ 32 + 1 - 2 - bs.length, by omega⟩
  rw [searchLoop, hfuel, iter_searchBody_skip hT hle (by omega) hno,
    iter_searchBody_end hstop hlast hk]

/-- **First fit**: the search ends at the first block that fits. -/
theorem searchLoop_some {b : ℕ} {pre post : List Block} {blk : Block}
    (hT : Tiles r spec.start (pre ++ blk :: post) b) (hb : b ≤ spec.last + 1)
    (hlast : spec.last + 1 ≤ 2 ^ 32) (hno : ∀ h ∈ pre, h.fits k = false)
    (hfit : blk.fits k = true) :
    searchLoop r spec k = some (some (spec.start + width Block.span pre)) := by
  obtain ⟨hpre, hpost⟩ := hT.split
  have hlen := hpre.length_le
  have hends := hpost.ends
  have hpos := blk.span_pos
  rw [width_cons] at hends
  obtain ⟨fuel, hfuel⟩ : ∃ fuel, 2 ^ 32 + 1 = (fuel + 1) + pre.length :=
    ⟨2 ^ 32 + 1 - 1 - pre.length, by omega⟩
  have hhead := hpost.header (spec.start + width Block.span pre) blk (by simp)
  rw [searchLoop, hfuel, iter_searchBody_skip hpre (by omega) (by omega) hno]
  exact Loop.iter_succ_of_inr (searchBody_fit (by omega) (by rw [hhead]; exact hfit)) _

end Search

/-! ### Splitting -/

/-- The unused blocks of sizes `k, k + 1, ..., s - 1` that splitting a block of size `s`
down to `k` leaves behind it. -/
def splits (k s : ℕ) : List Block := (List.range' k (s - k)).map fun j => ⟨j, false⟩

theorem width_splits {k s : ℕ} (h : k ≤ s) : 2 ^ k + width Block.span (splits k s) = 2 ^ s := by
  obtain ⟨n, rfl⟩ := Nat.exists_eq_add_of_le h
  rw [splits, Nat.add_sub_cancel_left]
  clear h
  induction n generalizing k with
  | zero => simp
  | succ n ih =>
      have hnext := ih (k := k + 1)
      rw [Nat.add_right_comm, Nat.add_assoc] at hnext
      have hspan : Block.span ⟨k, false⟩ = 2 ^ k := rfl
      rw [List.range'_succ, List.map_cons, width_cons, ← hnext, hspan, ← Nat.add_assoc,
        ← Nat.two_mul, ← Nat.pow_succ']

/-- The block of size `j` among the splits of the block at `a` lies at `a + 2 ^ j`. -/
theorem layout_splits (a k s : ℕ) :
    layout Block.span (a + 2 ^ k) (splits k s)
      = (List.range' k (s - k)).map fun j => (a + 2 ^ j, ⟨j, false⟩) := by
  rw [splits]
  generalize s - k = n
  induction n generalizing k with
  | zero => simp
  | succ n ih =>
      have hnext := ih (k := k + 1)
      simp only [List.range'_succ, List.map_cons, layout_cons, Block.span]
      rw [Nat.add_assoc, ← Nat.two_mul, ← Nat.pow_succ', hnext]

theorem mem_layout_splits {a k s x : ℕ} {h : Block} :
    (x, h) ∈ layout Block.span (a + 2 ^ k) (splits k s)
      ↔ ∃ j, k ≤ j ∧ j < s ∧ x = a + 2 ^ j ∧ h = ⟨j, false⟩ := by
  rw [layout_splits]
  simp only [List.mem_map, List.mem_range'_1, Prod.mk.injEq]
  constructor
  · rintro ⟨j, hj, rfl, rfl⟩
    exact ⟨j, hj.1, by omega, rfl, rfl⟩
  · rintro ⟨j, hk, hs, rfl, rfl⟩
    exact ⟨j, ⟨hk, by omega⟩, rfl, rfl⟩

end LoofOS
