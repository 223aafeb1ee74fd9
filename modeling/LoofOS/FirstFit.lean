import LoofOS.Heap
import Mathlib.Tactic.Ring

/-!
# Allocation on a Tiled Heap

What the writing loops of the allocator do to a tiled heap. Splitting cuts one block into
a block of the wanted size and one unused block of every size in between
(`splitLoop_spec`); `memory_allocate` does so with the first block that fits and changes
no byte but the headers of the pieces (`memoryAllocate_some`), or it changes nothing
(`memoryAllocate_none`). `init_memory` writes one block for every bit of the length in
8-byte units, the small blocks first (`initMemory_spec`); what is left over behind the
last whole unit gets no header.

## Main results

* `roundBlockSize_eq_some`: what a returned size says about the request.
* `splitLoop_spec`: the splitting loop.
* `memoryAllocate_none`, `memoryAllocate_some`: first fit on the list of blocks.
* `memoryAllocate_cases`: what a call can do.
* `initMemory_eq`, `initMemory_spec`: the blocks that `init_memory` writes.
-/

namespace LoofOS

open Tiling

/-! ### Requests that are rounded -/

/-- From `2 ^ 31` on, no shift of the request is zero and the rounding loop is never
left. -/
theorem roundBlockSize_none {n : ℕ} (hn : 2 ^ 31 ≤ n) : roundBlockSize n = none := by
  have hgo : ∀ s, True → ∃ s', roundBody n s = Sum.inl s' ∧ True := by
    intro s _
    have hle : bit32 (s + 1) ≤ n :=
      le_trans (Nat.pow_le_pow_right Nat.two_pos (by omega)) hn
    have hpos : n / bit32 (s + 1) ≠ 0 := Nat.div_ne_zero_iff.mpr ⟨(Nat.two_pow_pos _).ne', hle⟩
    exact ⟨s + 1, by rw [roundBody, if_pos hpos], trivial⟩
  rw [roundBlockSize, Loop.iter_diverges hgo trivial, Option.map_none]

/-- **What a rounded size says**: the block holds more than the request, and a block
above the minimum is at most twice the request. -/
theorem roundBlockSize_eq_some {n k : ℕ} (h : roundBlockSize n = some k) :
    3 ≤ k ∧ k ≤ 31 ∧ n < 2 ^ k ∧ (3 < k → 2 ^ (k - 1) ≤ n) := by
  by_cases hn : n < 2 ^ 31
  · obtain ⟨k', hk', hrest⟩ := roundBlockSize_spec hn
    rw [hk'] at h
    obtain rfl := Option.some.inj h
    exact hrest
  · rw [roundBlockSize_none (by omega)] at h
    cases h

/-! ### Splitting a block -/

/-- The block at `a`, of size `s` in `r`, has been split down to size `k` in `r'`. -/
structure SplitDown (r r' : Ram) (a k s : ℕ) : Prop where
  size : r'.size a = k
  used : r'.used a = r.used a
  header : ∀ j, k ≤ j → j < s → r'.header (a + 2 ^ j) = ⟨j, false⟩
  byte : ∀ x, x ≠ a → (∀ j, k ≤ j → j < s → x ≠ a + 2 ^ j) → r'.byte x = r.byte x
  stamped : ∀ x, (x ∈ r.stamped ∨ ∃ j, k ≤ j ∧ j < s ∧ x = a + 2 ^ j) → x ∈ r'.stamped

theorem SplitDown.refl {r : Ram} {a s : ℕ} (h : r.size a = s) : SplitDown r r a s s where
  size := h
  used := rfl
  header j hj hs := absurd hj (by omega)
  byte x _ _ := rfl
  stamped x hx := hx.elim id fun ⟨j, hj, hs, _⟩ => absurd hj (by omega)

/-- One round of splitting halves the block. -/
theorem SplitDown.step {r r' : Ram} {a k s : ℕ} (h : SplitDown r r' a (k + 1) s)
    (hks : k + 1 ≤ s) (hs : s ≤ 31) (ha : a + 2 ^ s ≤ 2 ^ 32) :
    SplitDown r (splitBlock r' a) a k s := by
  have hpow : 2 ^ k < 2 ^ s := Nat.pow_lt_pow_right Nat.one_lt_two (by omega)
  have hpos := Nat.two_pow_pos k
  have hsize : sub32 (r'.size a) 1 = k := by
    rw [h.size, sub32_of_le (by omega) (by omega), Nat.add_sub_cancel]
  have hbuddy : wrap32 (a + bit32 k) = a + 2 ^ k := by
    rw [bit32_of_lt (by omega), wrap32_of_lt (by omega)]
  have hne : a ≠ a + 2 ^ k := by omega
  have hsplit : splitBlock r' a
      = ((r'.setSize (a + 2 ^ k) k).setUsed (a + 2 ^ k) false).setSize a k := by
    simp only [splitBlock, hsize, hbuddy]
  have hbyte : ∀ x, x ≠ a → x ≠ a + 2 ^ k → (splitBlock r' a).byte x = r'.byte x := by
    intro x hxa hxb
    rw [hsplit, Ram.byte_setSize_of_ne _ hxa, Ram.byte_setUsed_of_ne _ hxb,
      Ram.byte_setSize_of_ne _ hxb]
  have hbyteA : ((r'.setSize (a + 2 ^ k) k).setUsed (a + 2 ^ k) false).byte a = r'.byte a := by
    rw [Ram.byte_setUsed_of_ne _ hne, Ram.byte_setSize_of_ne _ hne]
  have hheadB : (splitBlock r' a).header (a + 2 ^ k) = ⟨k, false⟩ := by
    rw [hsplit, Ram.header_congr (Ram.byte_setSize_of_ne k hne.symm)]
    simp only [Ram.header, Ram.size_setUsed_self, Ram.size_setSize_self,
      Ram.used_setUsed_self, Nat.mod_eq_of_lt (show k < 128 by omega)]
  refine ⟨?_, ?_, fun j hkj hjs => ?_, fun x hxa hx => ?_, fun x hx => ?_⟩
  · rw [hsplit, Ram.size_setSize_self, Nat.mod_eq_of_lt (by omega)]
  · have hused := congrArg Block.used (Ram.header_congr hbyteA)
    rw [hsplit, Ram.used_setSize_self]
    exact hused.trans h.used
  · rcases Nat.eq_or_lt_of_le hkj with rfl | hlt
    · exact hheadB
    · have hjpow : 2 ^ k < 2 ^ j := Nat.pow_lt_pow_right Nat.one_lt_two hlt
      rw [Ram.header_congr (hbyte _ (by omega) (by omega))]
      exact h.header j (by omega) hjs
  · rw [hbyte x hxa (hx k (le_refl k) (by omega))]
    exact h.byte x hxa fun j hj => hx j (by omega)
  · rw [hsplit]
    simp only [Ram.stamped_setSize, Ram.stamped_setUsed, List.mem_cons]
    rcases hx with hx | ⟨j, hkj, hjs, rfl⟩
    · exact Or.inr (Or.inr (Or.inr (h.stamped x (Or.inl hx))))
    · rcases Nat.eq_or_lt_of_le hkj with rfl | hlt
      · exact Or.inr (Or.inl rfl)
      · exact Or.inr (Or.inr (Or.inr (h.stamped _ (Or.inr ⟨j, by omega, hjs, rfl⟩))))

/-- **The splitting loop** ends with the block cut down to the wanted size. -/
theorem splitLoop_spec {r : Ram} {a k s : ℕ} (hsize : r.size a = s) (hks : k ≤ s)
    (hs : s ≤ 31) (ha : a + 2 ^ s ≤ 2 ^ 32) :
    ∃ r', splitLoop r a k = some r' ∧ SplitDown r r' a k s := by
  refine Loop.iter_total (I := fun r' => ∃ t, k ≤ t ∧ t ≤ s ∧ SplitDown r r' a t s)
    (fun r' => r'.size a) ?_ ?_ ⟨s, hks, le_refl s, SplitDown.refl hsize⟩ 128 (r.size_lt a)
  · rintro r₁ r₂ ⟨t, hkt, hts, hdown⟩ hb
    rw [splitBody, hdown.size] at hb
    split at hb
    · obtain rfl := Sum.inl.inj hb
      obtain ⟨t, rfl⟩ : ∃ u, t = u + 1 := ⟨t - 1, by omega⟩
      have hstep := hdown.step hts hs ha
      exact ⟨⟨t, by omega, by omega, hstep⟩, by rw [hstep.size, hdown.size]; omega⟩
    · cases hb
  · rintro r₁ r₂ ⟨t, hkt, hts, hdown⟩ hb
    rw [splitBody, hdown.size] at hb
    split at hb
    · cases hb
    · obtain rfl := Sum.inr.inj hb
      obtain rfl : t = k := by omega
      exact hdown

/-! ### `memory_allocate` -/

/-- The unused block of size `s` at `a` has become a used block of size `k`, followed by
unused blocks of the sizes in between; no other byte has changed. -/
structure TakenFrom (r r' : Ram) (a k s : ℕ) : Prop where
  header_self : r'.header a = ⟨k, true⟩
  header_split : ∀ j, k ≤ j → j < s → r'.header (a + 2 ^ j) = ⟨j, false⟩
  byte : ∀ x, x ≠ a → (∀ j, k ≤ j → j < s → x ≠ a + 2 ^ j) → r'.byte x = r.byte x
  stamped : ∀ x, (x ∈ r.stamped ∨ x = a ∨ ∃ j, k ≤ j ∧ j < s ∧ x = a + 2 ^ j) →
    x ∈ r'.stamped

/-- Marking a block used after splitting it. -/
theorem SplitDown.taken {r r' : Ram} {a k s : ℕ} (h : SplitDown r r' a k s) :
    TakenFrom r (r'.setUsed a true) a k s where
  header_self := by
    simp only [Ram.header, Ram.size_setUsed_self, Ram.used_setUsed_self, h.size]
  header_split j hk hs := by
    have hpos := Nat.two_pow_pos j
    rw [Ram.header_congr (Ram.byte_setUsed_of_ne true (by omega)), h.header j hk hs]
  byte x hxa hx := by rw [Ram.byte_setUsed_of_ne true hxa, h.byte x hxa hx]
  stamped x hx := by
    rw [Ram.stamped_setUsed, List.mem_cons]
    rcases hx with hx | rfl | hx
    · exact Or.inr (h.stamped x (Or.inl hx))
    · exact Or.inl rfl
    · exact Or.inr (h.stamped x (Or.inr hx))

/-- The pieces of a taken block tile the range of the block. -/
theorem TakenFrom.tiles {r r' : Ram} {a k s : ℕ} (h : TakenFrom r r' a k s) (hk : 3 ≤ k)
    (hks : k ≤ s) (hs : s ≤ 31) :
    Tiles r' a (⟨k, true⟩ :: splits k s) (a + 2 ^ s) where
  ends := by rw [width_cons, Block.span, width_splits hks]
  header x blk hx := by
    rw [layout_cons, Block.span, List.mem_cons, mem_layout_splits, Prod.mk.injEq] at hx
    rcases hx with ⟨rfl, rfl⟩ | ⟨j, hkj, hjs, rfl, rfl⟩
    · exact h.header_self
    · exact h.header_split j hkj hjs
  size blk hb := by
    simp only [splits, List.mem_cons, List.mem_map, List.mem_range'_1] at hb
    rcases hb with rfl | ⟨j, hj, rfl⟩
    · exact ⟨hk, by simp only; omega⟩
    · exact ⟨by simp only; omega, by simp only; omega⟩

/-- Taking a block leaves every byte outside the block alone. -/
theorem TakenFrom.byte_outside {r r' : Ram} {a k s x : ℕ} (h : TakenFrom r r' a k s)
    (hx : x < a ∨ a + 2 ^ s ≤ x) : r'.byte x = r.byte x := by
  have hs := Nat.two_pow_pos s
  refine h.byte x (by omega) fun j _ hj => ?_
  have hpow : 2 ^ j < 2 ^ s := Nat.pow_lt_pow_right Nat.one_lt_two hj
  have hj' := Nat.two_pow_pos j
  omega

section Allocate

variable {r : Ram} {spec : HeapSpec} {n k b : ℕ}

/-- **No unused block is large enough**: the result is null and nothing changes. -/
theorem memoryAllocate_none {bs : List Block} (hT : Tiles r spec.start bs b)
    (hstop : spec.Stops r b) (hlast : spec.last + 1 < 2 ^ 32)
    (hk : roundBlockSize (wrap32 (n + 1)) = some k) (hno : ∀ h ∈ bs, h.fits k = false) :
    memoryAllocate r spec n = some (0, r) := by
  have h3 := (roundBlockSize_eq_some hk).1
  simp [memoryAllocate, hk, searchLoop_none hT hstop hlast (by omega) hno]

/-- **First fit**: the first unused block that is large enough is split down to the
rounded size, and the pointer behind its header is returned. -/
theorem memoryAllocate_some {pre post : List Block} {blk : Block}
    (hT : Tiles r spec.start (pre ++ blk :: post) b) (hb : b ≤ spec.last + 1)
    (hlast : spec.last + 1 ≤ 2 ^ 32) (hk : roundBlockSize (wrap32 (n + 1)) = some k)
    (hno : ∀ h ∈ pre, h.fits k = false) (hfit : blk.fits k = true) :
    ∃ r', memoryAllocate r spec n = some (spec.start + width Block.span pre + 1, r') ∧
      TakenFrom r r' (spec.start + width Block.span pre) k blk.size ∧
      Tiles r' spec.start (pre ++ (⟨k, true⟩ :: splits k blk.size) ++ post) b := by
  obtain ⟨hpre, hpost⟩ := hT.split
  obtain ⟨hself, htail⟩ := @Tiles.split r _ b [blk] post hpost
  set a := spec.start + width Block.span pre with ha
  have h3 := (roundBlockSize_eq_some hk).1
  have hks : k ≤ blk.size := by
    rw [Block.fits, Bool.and_eq_true, decide_eq_true_eq] at hfit
    exact hfit.2
  have hs := (hpost.size blk List.mem_cons_self).2
  have hsize : r.size a = blk.size := congrArg Block.size (hpost.header a blk (by simp))
  have hend : a + 2 ^ blk.size ≤ b := by
    have := hpost.ends
    rw [width_cons, Block.span] at this
    omega
  have hspan : 2 ^ 3 ≤ 2 ^ blk.size :=
    Nat.pow_le_pow_right Nat.two_pos (hpost.size blk List.mem_cons_self).1
  obtain ⟨r₁, hr₁, hdown⟩ := splitLoop_spec hsize hks hs (by omega)
  have htaken := hdown.taken
  refine ⟨r₁.setUsed a true, ?_, htaken, ?_⟩
  · have hwrap : wrap32 (a + 1) = a + 1 := wrap32_of_lt (by omega)
    have hsearch := searchLoop_some hT hb hlast hno hfit
    rw [← ha] at hsearch
    simp [memoryAllocate, hk, hsearch, hr₁, hwrap]
  · have hpre' : Tiles (r₁.setUsed a true) spec.start pre a :=
      hpre.congr fun x h hx => by
        have := mem_layout_bounds hx
        have := h.span_pos
        exact htaken.byte_outside (Or.inl (by omega))
    have htail' : Tiles (r₁.setUsed a true) (a + 2 ^ blk.size) post b := by
      simp only [width_cons, width_nil, Nat.add_zero, Block.span] at htail
      exact htail.congr fun x h hx =>
        htaken.byte_outside (Or.inr (mem_layout_bounds hx).1)
    exact (hpre'.append (htaken.tiles h3 hks hs)).append htail'

/-- **What a call of `memory_allocate` can do** to a tiled heap: find no block that fits
and change nothing, or split the first one that does. -/
theorem memoryAllocate_cases {r' : Ram} {bs : List Block} {p : ℕ}
    (hT : Tiles r spec.start bs b) (hstop : spec.Stops r b) (hlast : spec.last + 1 < 2 ^ 32)
    (h : memoryAllocate r spec n = some (p, r')) :
    ∃ k, roundBlockSize (wrap32 (n + 1)) = some k ∧
      ((p = 0 ∧ r' = r ∧ ∀ h ∈ bs, h.fits k = false) ∨
        ∃ pre blk post, bs = pre ++ blk :: post ∧ blk.fits k = true ∧
          p = spec.start + width Block.span pre + 1 ∧
          TakenFrom r r' (spec.start + width Block.span pre) k blk.size ∧
          Tiles r' spec.start (pre ++ (⟨k, true⟩ :: splits k blk.size) ++ post) b) := by
  cases hk : roundBlockSize (wrap32 (n + 1)) with
  | none => simp [memoryAllocate, hk] at h
  | some k =>
      refine ⟨k, rfl, ?_⟩
      cases hfind : bs.find? (Block.fits k) with
      | none =>
          have hno : ∀ h ∈ bs, h.fits k = false := fun h hh =>
            Bool.eq_false_iff.mpr (List.find?_eq_none.mp hfind h hh)
          rw [memoryAllocate_none hT hstop hlast hk hno] at h
          obtain ⟨rfl, rfl⟩ := Prod.mk.inj (Option.some.inj h)
          exact Or.inl ⟨rfl, rfl, hno⟩
      | some blk =>
          obtain ⟨hfit, pre, post, rfl, hpre⟩ := List.find?_eq_some_iff_append.mp hfind
          have hno : ∀ h ∈ pre, h.fits k = false := fun h hh => by simpa using hpre h hh
          obtain ⟨r₁, hres, htaken, hT'⟩ := memoryAllocate_some hT hstop.le hlast.le hk hno hfit
          rw [hres] at h
          obtain ⟨rfl, rfl⟩ := Prod.mk.inj (Option.some.inj h)
          exact Or.inr ⟨pre, blk, post, rfl, hfit, rfl, htaken, hT'⟩

end Allocate

/-- The layout around one block. -/
theorem mem_layout_cons {a x : ℕ} {pre post : List Block} {blk h : Block} :
    (x, h) ∈ layout Block.span a (pre ++ blk :: post) ↔
      ((x, h) ∈ layout Block.span a pre ∨
        (x, h) ∈ layout Block.span (a + width Block.span pre + blk.span) post) ∨
      (x = a + width Block.span pre ∧ h = blk) := by
  rw [List.append_cons, mem_layout_replace (n := blk.span) (by simp)]
  simp

/-- The pieces of a split block. -/
theorem mem_layout_pieces {a k s x : ℕ} {h : Block} :
    (x, h) ∈ layout Block.span a (⟨k, true⟩ :: splits k s) ↔
      (x = a ∧ h = ⟨k, true⟩) ∨ ∃ j, k ≤ j ∧ j < s ∧ x = a + 2 ^ j ∧ h = ⟨j, false⟩ := by
  rw [layout_cons, List.mem_cons, Prod.mk.injEq, ← mem_layout_splits]
  rfl

/-- The pieces of a split block are as wide as the block. -/
theorem width_pieces {k s : ℕ} (h : k ≤ s) :
    width Block.span (⟨k, true⟩ :: splits k s) = 2 ^ s := by
  rw [width_cons, Block.span, width_splits h]

/-! ### `init_memory` -/

/-- The blocks that `init_memory` writes for a length of `len` units of `2 ^ size` bytes:
one for every set bit, the least significant first. -/
def initBlocks : ℕ → ℕ → ℕ → List Block
  | 0, _, _ => []
  | fuel + 1, len, size =>
      if len % 2 = 1 then ⟨size, false⟩ :: initBlocks fuel (len / 2) (size + 1)
      else initBlocks fuel (len / 2) (size + 1)

theorem initBlocks_zero (fuel size : ℕ) : initBlocks fuel 0 size = [] := by
  induction fuel generalizing size with
  | zero => rfl
  | succ fuel ih => simp [initBlocks, ih]

theorem initBlocks_unused {fuel len size : ℕ} :
    ∀ h ∈ initBlocks fuel len size, h.used = false := by
  induction fuel generalizing len size with
  | zero => simp [initBlocks]
  | succ fuel ih =>
      intro h hh
      rw [initBlocks] at hh
      split at hh
      · rcases List.mem_cons.mp hh with rfl | hh
        · rfl
        · exact ih h hh
      · exact ih h hh

/-- What the rounds of `init_memory` from `a` on do for `len` units of `2 ^ size`
bytes. -/
structure Initialized (r r' : Ram) (a : ℕ) (bs : List Block) (b : ℕ) : Prop where
  tiles : Tiles r' a bs b
  byte : ∀ x, (∀ h, (x, h) ∉ layout Block.span a bs) → r'.byte x = r.byte x
  stamped : ∀ x, (x ∈ r.stamped ∨ ∃ h, (x, h) ∈ layout Block.span a bs) → x ∈ r'.stamped

/-- A round that writes a block. -/
theorem Initialized.cons {r r' : Ram} {a b size : ℕ} {bs : List Block} (h3 : 3 ≤ size)
    (h31 : size ≤ 31)
    (h : Initialized ((r.setSize a size).setUsed a false) r' (a + 2 ^ size) bs b) :
    Initialized r r' a (⟨size, false⟩ :: bs) b := by
  have hpos := Nat.two_pow_pos size
  have hkeep := h.byte a fun blk hb => by
    have := (mem_layout_bounds hb).1
    omega
  have hhead : r'.header a = ⟨size, false⟩ := by
    rw [Ram.header_congr hkeep]
    simp only [Ram.header, Ram.size_setUsed_self, Ram.size_setSize_self,
      Ram.used_setUsed_self, Nat.mod_eq_of_lt (show size < 128 by omega)]
  refine ⟨⟨?_, fun x blk hx => ?_, fun blk hb => ?_⟩, fun x hx => ?_, fun x hx => ?_⟩
  · rw [width_cons, Block.span, ← Nat.add_assoc, h.tiles.ends]
  · rcases List.mem_cons.mp hx with he | hx
    · obtain ⟨rfl, rfl⟩ := Prod.mk.inj he
      exact hhead
    · exact h.tiles.header x blk hx
  · rcases List.mem_cons.mp hb with rfl | hb
    · exact ⟨h3, h31⟩
    · exact h.tiles.size blk hb
  · simp only [layout_cons, List.mem_cons, not_or, Prod.mk.injEq] at hx
    have hxa : x ≠ a := fun he => (hx ⟨size, false⟩).1 ⟨he, rfl⟩
    rw [h.byte x fun blk => (hx blk).2, Ram.byte_setUsed_of_ne _ hxa,
      Ram.byte_setSize_of_ne _ hxa]
  · refine h.stamped x ?_
    rw [Ram.stamped_setUsed, Ram.stamped_setSize, List.mem_cons, List.mem_cons]
    rcases hx with hx | ⟨blk, hb⟩
    · exact Or.inl (Or.inr (Or.inr hx))
    · rcases List.mem_cons.mp hb with he | hb
      · exact Or.inl (Or.inl (Prod.mk.inj he).1)
      · exact Or.inr ⟨blk, hb⟩

/-- The headers of unused blocks are written one after the other, from `a` on. -/
def writeBlocks (r : Ram) (a : ℕ) : List Block → Ram
  | [] => r
  | h :: bs => writeBlocks ((r.setSize a h.size).setUsed a false) (a + h.span) bs

theorem initialized_writeBlocks {r : Ram} {a : ℕ} {bs : List Block}
    (hbs : ∀ h ∈ bs, h.used = false ∧ 3 ≤ h.size ∧ h.size ≤ 31) :
    Initialized r (writeBlocks r a bs) a bs (a + width Block.span bs) := by
  induction bs generalizing r a with
  | nil =>
      refine ⟨⟨rfl, fun x h hx => absurd hx List.not_mem_nil,
        fun h hh => absurd hh List.not_mem_nil⟩, fun x _ => rfl, ?_⟩
      rintro x (hx | ⟨h, hh⟩)
      · exact hx
      · cases hh
  | cons h bs ih =>
      obtain ⟨⟨hunused, h3, h31⟩, hrest⟩ := List.forall_mem_cons.mp hbs
      obtain ⟨size, used⟩ := h
      obtain rfl : used = false := hunused
      rw [width_cons, ← Nat.add_assoc]
      exact (ih hrest).cons h3 h31

/-- The headers that were written are those of the blocks. -/
theorem stamped_writeBlocks (r : Ram) (a : ℕ) (bs : List Block) :
    ∃ written, (writeBlocks r a bs).stamped = written ++ r.stamped ∧
      ∀ x, x ∈ written ↔ ∃ h, (x, h) ∈ layout Block.span a bs := by
  induction bs generalizing r a with
  | nil => exact ⟨[], rfl, fun x => by simp⟩
  | cons h bs ih =>
      obtain ⟨written, hstamped, hmem⟩ := ih ((r.setSize a h.size).setUsed a false) (a + h.span)
      refine ⟨written ++ [a, a], ?_, fun x => ?_⟩
      · rw [writeBlocks, hstamped, Ram.stamped_setUsed, Ram.stamped_setSize, List.append_assoc]
        rfl
      · simp only [List.mem_append, hmem x, List.mem_cons, List.not_mem_nil, or_false, or_self,
          layout_cons, Prod.mk.injEq]
        constructor
        · rintro (⟨b, hb⟩ | rfl)
          · exact ⟨b, Or.inr hb⟩
          · exact ⟨h, Or.inl ⟨rfl, rfl⟩⟩
        · rintro ⟨b, ⟨rfl, -⟩ | hb⟩
          · exact Or.inr rfl
          · exact Or.inl ⟨b, hb⟩

/-- The blocks for a length are as wide as the length. -/
theorem width_initBlocks {fuel len size : ℕ} (h : len < 2 ^ fuel) :
    width Block.span (initBlocks fuel len size) = len * 2 ^ size := by
  induction fuel generalizing len size with
  | zero =>
      obtain rfl : len = 0 := by omega
      rw [Nat.zero_mul]
      rfl
  | succ fuel ih =>
      have hhalf := @ih (len / 2) (size + 1) (by rw [Nat.pow_succ] at h; omega)
      rw [initBlocks]
      split
      · have hlen : len = 2 * (len / 2) + 1 := by omega
        rw [width_cons, hhalf, Block.span]
        nth_rewrite 2 [hlen]
        ring
      · have hlen : len = 2 * (len / 2) := by omega
        rw [hhalf]
        nth_rewrite 2 [hlen]
        ring

theorem initBlocks_size {fuel len size : ℕ} : ∀ h ∈ initBlocks fuel len size, size ≤ h.size := by
  induction fuel generalizing len size with
  | zero => exact fun h hh => absurd hh List.not_mem_nil
  | succ fuel ih =>
      intro h hh
      rw [initBlocks] at hh
      split at hh
      · rcases List.mem_cons.mp hh with rfl | hh
        · exact le_refl size
        · exact (Nat.le_succ size).trans (ih h hh)
      · exact (Nat.le_succ size).trans (ih h hh)

theorem initBlocks_size_le {len : ℕ} (hlt : len < 2 ^ 29) :
    ∀ h ∈ initBlocks 32 len 3, h.size ≤ 31 := by
  intro h hh
  have hspan := (le_width_of_mem (w := Block.span) hh).trans
    (@width_initBlocks 32 len 3 (hlt.trans (by simp))).le
  have hpow : 2 ^ h.size < 2 ^ 32 := by
    rw [Block.span] at hspan
    omega
  exact Nat.le_of_lt_succ ((Nat.pow_lt_pow_iff_right Nat.one_lt_two).mp hpow)

theorem iter_initBody_done {spec : HeapSpec} {r : Ram} {a size fuel : ℕ} :
    Loop.iter (initBody spec) (fuel + 1) ⟨r, a, 0, size⟩ = some r :=
  Loop.iter_succ_of_inr (by simp [initBody]) fuel

/-- **The loop of `init_memory`** writes one header for every set bit of the length. The address
behind the last block is not used, and may be `2 ^ 32`. -/
theorem iter_initBody {spec : HeapSpec} (hlast : spec.last + 1 ≤ 2 ^ 32) {fuel : ℕ} :
    ∀ {r : Ram} {a len size : ℕ}, len < 2 ^ fuel → 3 ≤ size → len * 2 ^ size < 2 ^ 32 →
      a + len * 2 ^ size ≤ spec.last + 1 →
      Loop.iter (initBody spec) (fuel + 1) ⟨r, a, len, size⟩
        = some (writeBlocks r a (initBlocks fuel len size)) := by
  induction fuel with
  | zero =>
      intro r a len size hlen _ _ _
      obtain rfl : len = 0 := by omega
      exact iter_initBody_done
  | succ fuel ih =>
      intro r a len size hlen h3 hlt hend
      rcases Nat.eq_zero_or_pos len with rfl | hpos
      · rw [initBlocks_zero]
        exact iter_initBody_done
      have hmul : 2 ^ size ≤ len * 2 ^ size := Nat.le_mul_of_pos_left _ hpos
      have h8 : 2 ^ 3 ≤ 2 ^ size := Nat.pow_le_pow_right Nat.two_pos h3
      have hsize : size < 32 := (Nat.pow_lt_pow_iff_right Nat.one_lt_two).mp (hmul.trans_lt hlt)
      have hcond : a < spec.last ∧ 0 < len := ⟨by omega, hpos⟩
      have hhalf : len / 2 < 2 ^ fuel := by
        rw [Nat.pow_succ] at hlen
        omega
      have hmod : (size + 1) % 256 = size + 1 := Nat.mod_eq_of_lt (by omega)
      rw [initBlocks]
      by_cases hodd : len % 2 = 1
      · -- an odd length writes a block of the current size
        have hlen2 : len = 2 * (len / 2) + 1 := by omega
        have hsum : 2 ^ size + len / 2 * 2 ^ (size + 1) = len * 2 ^ size := by
          calc 2 ^ size + len / 2 * 2 ^ (size + 1) = (2 * (len / 2) + 1) * 2 ^ size := by ring
            _ = len * 2 ^ size := by rw [← hlen2]
        have hround : initBody spec ⟨r, a, len, size⟩
            = Sum.inl ⟨(r.setSize a size).setUsed a false, wrap32 (a + 2 ^ size), len / 2,
              size + 1⟩ := by
          rw [initBody, if_pos hcond, if_pos hodd]
          simp only [hmod, bit32_of_lt hsize]
        rw [Loop.iter_succ_of_inl hround, if_pos hodd, writeBlocks, Block.span]
        rcases Nat.eq_zero_or_pos (len / 2) with hzero | hrest
        · rw [hzero, initBlocks_zero]
          exact Loop.iter_mono (Nat.succ_le_succ (Nat.zero_le fuel)) iter_initBody_done
        · have hnext := Nat.two_pow_pos (size + 1)
          have hmul' : 2 ^ (size + 1) ≤ len / 2 * 2 ^ (size + 1) := Nat.le_mul_of_pos_left _ hrest
          rw [wrap32_of_lt (by omega)]
          exact ih hhalf (by omega) (by omega) (by omega)
      · -- an even length only moves on to the next size
        have hsum : len / 2 * 2 ^ (size + 1) = len * 2 ^ size := by
          have hlen2 : len = 2 * (len / 2) := by omega
          calc len / 2 * 2 ^ (size + 1) = 2 * (len / 2) * 2 ^ size := by ring
            _ = len * 2 ^ size := by rw [← hlen2]
        have hround : initBody spec ⟨r, a, len, size⟩
            = Sum.inl ⟨r, a, len / 2, size + 1⟩ := by
          rw [initBody, if_pos hcond, if_neg hodd]
          simp only [hmod]
        rw [Loop.iter_succ_of_inl hround, if_neg hodd]
        exact ih hhalf (by omega) (by omega) (by omega)

/-- **`init_memory`** on any heap. -/
theorem initMemory_eq {r : Ram} {spec : HeapSpec} (hle : spec.start ≤ spec.last)
    (hlast : spec.last < 2 ^ 32) :
    initMemory r spec = some (writeBlocks r spec.start
      (initBlocks 32 (sub32 (spec.last + 1) spec.start / 8) 3)) := by
  have hmin : bit32 minBlockSize = 8 := rfl
  obtain ⟨hlt, hunits⟩ : sub32 (spec.last + 1) spec.start / 8 * 2 ^ 3 < 2 ^ 32 ∧
      spec.start + sub32 (spec.last + 1) spec.start / 8 * 2 ^ 3 ≤ spec.last + 1 := by
    rw [sub32]
    omega
  rw [initMemory, hmin]
  exact @iter_initBody spec (by omega) 32 r spec.start _ 3 (by omega) (le_refl 3) hlt hunits

/-- **`init_memory`** writes the blocks of the whole 8-byte units of the heap, from its
start on, and changes no other byte. -/
theorem initMemory_spec {r : Ram} {spec : HeapSpec} (hle : spec.start ≤ spec.last)
    (hlast : spec.last + 1 < 2 ^ 32) :
    ∃ r', initMemory r spec = some r' ∧
      Initialized r r' spec.start (initBlocks 32 ((spec.last + 1 - spec.start) / 8) 3)
        (spec.start + (spec.last + 1 - spec.start) / 8 * 8) := by
  have heq := @initMemory_eq r spec hle (by omega)
  rw [sub32_of_le (by omega) hlast] at heq
  refine ⟨_, heq, ?_⟩
  have hwidth := @width_initBlocks 32 ((spec.last + 1 - spec.start) / 8) 3 (by omega)
  have hinit := @initialized_writeBlocks r spec.start
    (initBlocks 32 ((spec.last + 1 - spec.start) / 8) 3) fun h hh =>
      ⟨initBlocks_unused h hh, initBlocks_size h hh, initBlocks_size_le (by omega) h hh⟩
  rwa [hwidth] at hinit

end LoofOS
