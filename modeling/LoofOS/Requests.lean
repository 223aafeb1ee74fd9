import LoofOS.FirstFit

/-!
# Requests to `memory_allocate`

`memory_allocate` on a heap that is tiled up to its last address, for every 32-bit size. Up to
`2 ^ 31 - 2` bytes it is first fit with exact splitting. Larger sizes are rounded in 32 bits: from
`2 ^ 31 - 1` bytes on the rounding loop is never left, and for `2 ^ 32 - 1` bytes the header makes
the sum wrap to 0, so the smallest block is large enough.

## Main results

* `roundsTight_iff`: which sizes are rounded to the smallest block that holds them.
* `memoryAllocate_firstFit`: first fit with exact splitting.
* `safeRequest_iff`: which requests are safe.
-/

namespace LoofOS

open Tiling

/-! ### How tight the rounding is -/

section Rounding

variable {size : ℕ}

/-- `round_block_size` returns the least size from `MIN_BLOCK_SIZE` on whose block has at least
`size` bytes. -/
def RoundsTight (size : ℕ) : Prop :=
  ∃ k, roundBlockSize size = some k ∧ minBlockSize ≤ k ∧ size ≤ 2 ^ k ∧
    ∀ j, minBlockSize ≤ j → size ≤ 2 ^ j → k ≤ j

/-- **The rounding is tight** for all sizes but the powers of two from 8 on: the loop runs on while
the block is not larger than the request, so the correction behind it never has an effect. -/
theorem roundsTight_iff (h : size < 2 ^ 31) :
    RoundsTight size ↔ ∀ j, minBlockSize ≤ j → size ≠ 2 ^ j := by
  obtain ⟨k, hk, h3, -, hlt, hle⟩ := roundBlockSize_spec h
  constructor
  · rintro ⟨k', hk', -, -, hleast⟩ j hj rfl
    obtain rfl := Option.some.inj (hk.symm.trans hk')
    have hjk : j < k := (Nat.pow_lt_pow_iff_right Nat.one_lt_two).mp hlt
    have hkj : k ≤ j := hleast j hj le_rfl
    omega
  · intro hpower
    refine ⟨k, hk, h3, hlt.le, fun j hj hsize => ?_⟩
    by_contra hjk
    have hpow : 2 ^ j ≤ 2 ^ (k - 1) := Nat.pow_le_pow_right Nat.two_pos (by omega)
    have hmin : 3 ≤ j := hj
    have hhalf : 2 ^ (k - 1) ≤ size := hle (by omega)
    exact hpower j hj (by omega)

theorem roundsTight_hundred : RoundsTight 100 :=
  (roundsTight_iff (by simp)).mpr fun j _ h => by
    have hlow : j < 7 := (Nat.pow_lt_pow_iff_right Nat.one_lt_two).mp (h ▸ (by simp : 100 < 2 ^ 7))
    have hhigh : 2 ^ j ≤ 2 ^ 6 := Nat.pow_le_pow_right Nat.two_pos (by omega)
    simp only [Nat.reducePow] at hhigh
    omega

/-- **8 bytes** are rounded to a block of 16. -/
theorem not_roundsTight_eight : ¬ ∀ size, 1 ≤ size → size < 2 ^ 31 → RoundsTight size := by
  intro hall
  obtain ⟨k, hk, -, -, hleast⟩ := hall 8 (by simp) (by simp)
  have hround : roundBlockSize 8 = some 4 := by decide
  obtain rfl := Option.some.inj (hround.symm.trans hk)
  exact absurd (hleast 3 le_rfl le_rfl) (by simp)

end Rounding

/-! ### First fit -/

section FirstFit

variable {r r' : Ram} {spec : HeapSpec} {bs : List Block} {a b k n p : ℕ}

theorem fits_iff {h : Block} : h.fits k = true ↔ h.used = false ∧ k ≤ h.size := by
  rw [Block.fits, Bool.and_eq_true, Bool.not_eq_true', decide_eq_true_eq]

/-- A block of a tiling fits the rounded size if and only if it is unused and larger than the
request with its header. -/
theorem fits_iff_span (hk : roundBlockSize n = some k) {h : Block} (h3 : 3 ≤ h.size) :
    h.fits k = true ↔ h.used = false ∧ n < h.span := by
  obtain ⟨hk3, -, hlt, hle⟩ := roundBlockSize_eq_some hk
  rw [fits_iff, Block.span]
  refine and_congr_right fun _ => ⟨fun hks => ?_, fun hspan => ?_⟩
  · exact lt_of_lt_of_le hlt (Nat.pow_le_pow_right Nat.two_pos hks)
  · by_contra hks
    have hpow : 2 ^ h.size ≤ 2 ^ (k - 1) := Nat.pow_le_pow_right Nat.two_pos (by omega)
    have hmin := hle (by omega)
    omega

/-- An unused block of 32 bytes at address 8, and a used one of 16 bytes behind it. -/
def twoBlocks : Ram where
  byte a := if a = 8 then 5 else if a = 40 then 128 + 4 else 0

theorem tiles_twoBlocks : Tiles twoBlocks 8 [⟨5, false⟩, ⟨4, true⟩] (55 + 1) where
  ends := rfl
  header x h hx := by
    simp only [layout_cons, layout_nil, List.mem_cons, List.not_mem_nil, or_false,
      Prod.mk.injEq] at hx
    rcases hx with ⟨rfl, rfl⟩ | ⟨rfl, rfl⟩ <;> rfl
  size h hh := by
    simp only [List.mem_cons, List.not_mem_nil, or_false] at hh
    rcases hh with rfl | rfl <;> decide

/-- **First fit with exact splitting.** No block fits, and the result is null and memory is what it
was; or the first block that fits is replaced by a used block of the rounded size and the unused
blocks that splitting leaves, whose headers are the only bytes that change. -/
theorem memoryAllocate_firstFit (hT : Tiles r spec.start bs (spec.last + 1))
    (hlast : spec.last < 2 ^ 32 - 1) (hn : n + 1 < 2 ^ 31) :
    ∃ k p r', roundBlockSize (n + 1) = some k ∧ n + 1 ≤ 2 ^ k ∧
      memoryAllocate r spec n = some (p, r') ∧
      ((p = 0 ∧ r' = r) ↔ ∀ h ∈ bs, ¬ (h.used = false ∧ k ≤ h.size)) ∧
      ∀ pre blk post, bs = pre ++ blk :: post →
        (∀ h ∈ pre, ¬ (h.used = false ∧ k ≤ h.size)) → blk.used = false ∧ k ≤ blk.size →
        p = spec.start + width Block.span pre + 1 ∧
          Tiles r' spec.start (pre ++ (⟨k, true⟩ :: splits k blk.size) ++ post) (spec.last + 1) ∧
          ∀ x, (∀ h, (x, h) ∉ layout Block.span (spec.start + width Block.span pre)
            (⟨k, true⟩ :: splits k blk.size)) → r'.byte x = r.byte x := by
  have hlast' : spec.last + 1 < 2 ^ 32 := by omega
  obtain ⟨k, hk, -, -, hlt, -⟩ := roundBlockSize_spec hn
  have hwrap : roundBlockSize (wrap32 (n + 1)) = some k := by rw [wrap32_of_lt (by omega), hk]
  simp only [← fits_iff, Bool.not_eq_true]
  cases hfind : bs.find? (Block.fits k) with
  | none =>
      have hno : ∀ h ∈ bs, h.fits k = false := fun h hh =>
        Bool.eq_false_iff.mpr (List.find?_eq_none.mp hfind h hh)
      refine ⟨k, 0, r, hk, hlt.le, memoryAllocate_none hT (Or.inl rfl) hlast' hwrap hno,
        ⟨fun _ => hno, fun _ => ⟨rfl, rfl⟩⟩, ?_⟩
      rintro pre blk post rfl - hfit
      rw [hno blk (List.mem_append_right _ List.mem_cons_self)] at hfit
      cases hfit
  | some found =>
      obtain ⟨hfit, pre, post, rfl, hpre⟩ := List.find?_eq_some_iff_append.mp hfind
      have hno : ∀ h ∈ pre, h.fits k = false := fun h hh => by simpa using hpre h hh
      obtain ⟨r', hcall, -⟩ := memoryAllocate_some hT (le_refl _) hlast'.le hwrap hno hfit
      refine ⟨k, _, r', hk, hlt.le, hcall, ⟨fun ⟨hp, _⟩ => absurd hp (Nat.succ_ne_zero _), ?_⟩, ?_⟩
      · intro hall
        rw [hall found (List.mem_append_right _ List.mem_cons_self)] at hfit
        cases hfit
      · intro pre blk post heq hno hfit
        rw [heq] at hT
        obtain ⟨_, hsame, htaken, hT'⟩ :=
          memoryAllocate_some hT (le_refl _) hlast'.le hwrap hno hfit
        obtain ⟨hp, rfl⟩ := Prod.mk.inj (Option.some.inj (hcall.symm.trans hsame))
        refine ⟨hp, hT', fun x hx => htaken.byte x (fun he => ?_) fun j hkj hjs he => ?_⟩
        · exact hx _ (mem_layout_pieces.mpr (Or.inl ⟨he, rfl⟩))
        · exact hx _ (mem_layout_pieces.mpr (Or.inr ⟨j, hkj, hjs, he, rfl⟩))

/-- A request of 12 bytes takes the first half of a block of 32 bytes. -/
theorem memoryAllocate_twelve : ∃ r', memoryAllocate twoBlocks ⟨8, 55⟩ 12 = some (9, r') ∧
    Tiles r' 8 [⟨4, true⟩, ⟨4, false⟩, ⟨4, true⟩] 56 := by
  obtain ⟨k, p, r', hk, -, hcall, -, hfirst⟩ :=
    @memoryAllocate_firstFit twoBlocks ⟨8, 55⟩ _ 12 tiles_twoBlocks (by simp) (by simp)
  have hround : roundBlockSize (12 + 1) = some 4 := by decide
  obtain rfl := Option.some.inj (hround.symm.trans hk)
  obtain ⟨rfl, hT, -⟩ :=
    hfirst [] ⟨5, false⟩ [⟨4, true⟩] rfl (fun _ hh => absurd hh List.not_mem_nil) ⟨rfl, by simp⟩
  exact ⟨r', hcall, hT⟩

end FirstFit

/-! ### Requests of any size -/

/-- A request is safe: the call returns, either null after it changed nothing, or a pointer to a
block of the heap that has as many bytes behind its header as were requested. -/
def SafeRequest (r : Ram) (spec : HeapSpec) (bs : List Block) (n : ℕ) : Prop :=
  ∃ p r', memoryAllocate r spec n = some (p, r') ∧
    ((p = 0 ∧ r' = r) ∨ ∃ a blk, (a, blk) ∈ layout Block.span spec.start bs ∧ p = a + 1 ∧
      n ≤ 2 ^ r'.size a - 1)

section Any

variable {r r' : Ram} {spec : HeapSpec} {bs : List Block} {a k n p : ℕ}

/-- The search ends at a block that fits. -/
theorem searchLoop_fits (h : searchLoop r spec k = some (some a)) :
    a ≤ spec.last ∧ (r.header a).fits k = true := by
  refine Loop.iter_sound (I := fun _ => True) (Q := fun o => ∀ a, o = some a →
    a ≤ spec.last ∧ (r.header a).fits k = true) (fun _ _ _ _ => trivial) ?_ trivial h a rfl
  rintro x o - hbody a rfl
  rw [searchBody] at hbody
  split at hbody
  · split at hbody
    · obtain rfl := Option.some.inj (Sum.inr.inj hbody)
      exact ⟨‹_›, by rwa [fits_header]⟩
    · cases hbody
  · cases hbody

/-- **Null says that nothing was done**, unless the heap ends with the address space. -/
theorem memoryAllocate_null (hlast : spec.last + 1 < 2 ^ 32)
    (h : memoryAllocate r spec n = some (0, r')) : r' = r := by
  simp only [memoryAllocate, Option.bind_eq_bind] at h
  obtain ⟨k, -, h⟩ := Option.bind_eq_some_iff.mp h
  obtain ⟨o, hsearch, h⟩ := Option.bind_eq_some_iff.mp h
  cases o with
  | none => exact (Prod.mk.inj (Option.some.inj h)).2.symm
  | some a =>
      obtain ⟨hle, -⟩ := searchLoop_fits hsearch
      obtain ⟨r₁, -, he⟩ := Option.bind_eq_some_iff.mp h
      have hp := (Prod.mk.inj (Option.some.inj he)).1
      rw [wrap32_of_lt (by omega)] at hp
      cases hp

/-- In a heap that ends with the address space the search never passes the end. -/
theorem searchLoop_ne_none (hstart : spec.start < 2 ^ 32) (hlast : spec.last + 1 = 2 ^ 32) :
    searchLoop r spec k ≠ some none := by
  intro h
  refine Loop.iter_sound (I := fun a => a < 2 ^ 32) (Q := fun o => o ≠ none)
    (fun x y hx hbody => ?_) (fun x o hx hbody => ?_) hstart h rfl
  · rw [searchBody, if_pos (by omega)] at hbody
    split at hbody
    · cases hbody
    · obtain rfl := Sum.inl.inj hbody
      exact Nat.mod_lt _ (Nat.two_pow_pos 32)
  · rw [searchBody, if_pos (by omega)] at hbody
    split at hbody
    · obtain rfl := Sum.inr.inj hbody
      exact Option.some_ne_none x
    · cases hbody

/-- **No safe request without a block that fits**, in a heap that ends with the address space: what
the search finds is no block of the heap. -/
theorem not_safeRequest_of_top (hT : Tiles r spec.start bs (spec.last + 1))
    (hstart : spec.start < 2 ^ 32) (hlast : spec.last + 1 = 2 ^ 32)
    (hk : roundBlockSize (wrap32 (n + 1)) = some k) (hno : ∀ h ∈ bs, h.fits k = false) :
    ¬ SafeRequest r spec bs n := by
  rintro ⟨p, r', hcall, hsafe⟩
  simp only [memoryAllocate, hk, Option.bind_eq_bind, Option.bind_some] at hcall
  obtain ⟨o, hsearch, hcall⟩ := Option.bind_eq_some_iff.mp hcall
  cases o with
  | none => exact searchLoop_ne_none hstart hlast hsearch
  | some a =>
      obtain ⟨hle, hfit⟩ := searchLoop_fits hsearch
      obtain ⟨r₁, -, he⟩ := Option.bind_eq_some_iff.mp hcall
      obtain ⟨hp, rfl⟩ := Prod.mk.inj (Option.some.inj he)
      rcases hsafe with ⟨-, hsame⟩ | ⟨x, blk, hx, rfl, -⟩
      · -- the header that was found has become a used one
        have hused : r.used a = true := by rw [← hsame, Ram.used_setUsed_self]
        rw [fits_header, hused] at hfit
        cases hfit
      · have hbounds := mem_layout_bounds hx
        have hends := hT.ends
        have hspan : 2 ^ 3 ≤ blk.span :=
          Nat.pow_le_pow_right Nat.two_pos (hT.size blk (mem_of_mem_layout hx)).1
        obtain rfl : a = x := by
          rw [wrap32] at hp
          omega
        rw [hT.header a blk hx, hno blk (mem_of_mem_layout hx)] at hfit
        cases hfit

/-- **A request for which some block fits** is safe if and only if that block is as large as the
request with its header. -/
theorem safeRequest_of_fits (hT : Tiles r spec.start bs (spec.last + 1))
    (hlast : spec.last < 2 ^ 32) (hk : roundBlockSize (wrap32 (n + 1)) = some k)
    (hfit : ∃ h ∈ bs, h.fits k = true) : SafeRequest r spec bs n ↔ n ≤ 2 ^ k - 1 := by
  cases hfind : bs.find? (Block.fits k) with
  | none =>
      obtain ⟨h, hh, hfit⟩ := hfit
      exact absurd hfit (List.find?_eq_none.mp hfind h hh)
  | some blk =>
      obtain ⟨hblk, pre, post, rfl, hpre⟩ := List.find?_eq_some_iff_append.mp hfind
      have hno : ∀ h ∈ pre, h.fits k = false := fun h hh => by simpa using hpre h hh
      obtain ⟨r', hcall, htaken, -⟩ := memoryAllocate_some hT (le_refl _) hlast hk hno hblk
      have hsize : r'.size (spec.start + width Block.span pre) = k :=
        congrArg Block.size htaken.header_self
      constructor
      · rintro ⟨p, r₁, hcall', hsafe⟩
        obtain ⟨rfl, rfl⟩ := Prod.mk.inj (Option.some.inj (hcall.symm.trans hcall'))
        rcases hsafe with ⟨hzero, -⟩ | ⟨x, b, -, hx, hle⟩
        · cases hzero
        · obtain rfl := Nat.succ.inj hx
          rwa [hsize] at hle
      · exact fun hle => ⟨_, r', hcall,
          Or.inr ⟨_, blk, mem_layout_cons.mpr (Or.inr ⟨rfl, rfl⟩), rfl, hsize.symm ▸ hle⟩⟩

/-- **Safe requests**: those below `2 ^ 31 - 1` bytes, unless no block fits and the heap ends with
the address space; and the one of `2 ^ 32 - 1` bytes when all blocks are used. -/
theorem safeRequest_iff (hT : Tiles r spec.start bs (spec.last + 1)) (hstart : spec.start < 2 ^ 32)
    (hlast : spec.last < 2 ^ 32) (hn : n < 2 ^ 32) : SafeRequest r spec bs n ↔
      (n + 1 < 2 ^ 31 ∧ (spec.last + 1 < 2 ^ 32 ∨ ∃ h ∈ bs, h.used = false ∧ n + 1 < h.span)) ∨
        (n + 1 = 2 ^ 32 ∧ spec.last + 1 < 2 ^ 32 ∧ ∀ h ∈ bs, h.used = true) := by
  by_cases hround : roundBlockSize (wrap32 (n + 1)) = none
  · -- the rounding loop is never left
    have hlarge : 2 ^ 31 ≤ n + 1 ∧ n + 1 ≠ 2 ^ 32 := by
      constructor
      · by_contra hlt
        obtain ⟨k, hk, -⟩ := @roundBlockSize_spec (wrap32 (n + 1)) (by rw [wrap32]; omega)
        rw [hround] at hk
        cases hk
      · intro he
        rw [he] at hround
        exact absurd hround (by decide)
    constructor
    · rintro ⟨p, r', hcall, -⟩
      simp [memoryAllocate, hround] at hcall
    · omega
  obtain ⟨k, hk⟩ := Option.ne_none_iff_exists'.mp hround
  have hsmall : n + 1 < 2 ^ 31 ∨ n + 1 = 2 ^ 32 := by
    by_contra hlarge
    rw [not_or] at hlarge
    rw [wrap32_of_lt (by omega), roundBlockSize_none (by omega)] at hk
    cases hk
  have hfits : (∃ h ∈ bs, h.fits k = true) ↔ ∃ h ∈ bs, h.used = false ∧ wrap32 (n + 1) < h.span :=
    exists_congr fun h => and_congr_right fun hh => fits_iff_span hk (hT.size h hh).1
  by_cases hfit : ∃ h ∈ bs, h.fits k = true
  · rw [safeRequest_of_fits hT hlast hk hfit]
    have hfit' := hfits.mp hfit
    have hround := (roundBlockSize_eq_some hk).2.2
    rcases hsmall with hlt | he
    · rw [wrap32_of_lt (by omega)] at hfit' hround
      exact ⟨fun _ => Or.inl ⟨hlt, Or.inr hfit'⟩, fun _ => by omega⟩
    · have hzero : roundBlockSize (wrap32 (n + 1)) = some 3 := by
        rw [he]
        decide
      obtain rfl := Option.some.inj (hzero.symm.trans hk)
      obtain ⟨h, hh, hunused, -⟩ := hfit'
      refine ⟨fun hle => by omega, ?_⟩
      rintro (⟨hlt, -⟩ | ⟨-, -, hall⟩)
      · omega
      · rw [hall h hh] at hunused
        cases hunused
  · have hno : ∀ h ∈ bs, h.fits k = false := fun h hh =>
      Bool.eq_false_iff.mpr fun hf => hfit ⟨h, hh, hf⟩
    rw [hfits] at hfit
    by_cases htop : spec.last + 1 = 2 ^ 32
    · refine iff_of_false (not_safeRequest_of_top hT hstart htop hk hno) ?_
      rintro (⟨hlt, hinside | hspan⟩ | ⟨-, hinside, -⟩)
      · omega
      · rw [wrap32_of_lt (by omega)] at hfit
        exact hfit hspan
      · omega
    · have hinside : spec.last + 1 < 2 ^ 32 := by omega
      refine iff_of_true ⟨0, r, memoryAllocate_none hT (Or.inl rfl) hinside hk hno,
        Or.inl ⟨rfl, rfl⟩⟩ ?_
      refine hsmall.imp (fun hlt => ⟨hlt, Or.inl hinside⟩) fun he => ⟨he, hinside, fun h hh => ?_⟩
      by_contra hunused
      rw [Bool.not_eq_true] at hunused
      refine hfit ⟨h, hh, hunused, ?_⟩
      rw [he]
      exact h.span_pos

/-- A request of 12 bytes is safe. -/
theorem safeRequest_twelve :
    SafeRequest twoBlocks ⟨8, 55⟩ [⟨5, false⟩, ⟨4, true⟩] 12 :=
  (safeRequest_iff tiles_twoBlocks (by simp) (by simp) (by simp)).mpr
    (Or.inl ⟨by simp, Or.inl (by simp)⟩)

/-- **The largest request** is given a block of 8 bytes. -/
theorem not_safeRequest_largest :
    ¬ ∀ (r : Ram) (spec : HeapSpec) (bs : List Block) (n : ℕ), spec.start < 2 ^ 32 →
      spec.last < 2 ^ 32 - 1 → Tiles r spec.start bs (spec.last + 1) → n < 2 ^ 32 →
      SafeRequest r spec bs n := by
  intro hall
  have hround : roundBlockSize (wrap32 (2 ^ 32 - 1 + 1)) = some 3 := by decide
  have hsafe := hall twoBlocks ⟨8, 55⟩ _ (2 ^ 32 - 1) (by simp) (by simp) tiles_twoBlocks
    (by simp)
  rw [safeRequest_of_fits tiles_twoBlocks (by simp) hround ⟨⟨5, false⟩, by decide⟩] at hsafe
  exact absurd hsafe (by simp)

end Any

end LoofOS
