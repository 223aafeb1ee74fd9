import LoofOS.BuddyTiling
import LoofOS.Coalesce

/-!
# Merging Buddies

`coalesce_block` as it is meant to be called: with the header of an unused block, on a heap in which
every block stands at a multiple of its span from the start. The loop then keeps to headers: what it
takes for the buddy is one, in every round. It ends with a heap of the same kind, in which a run of
unused blocks around the given one has become one block (`Merges`), whose buddy can not be merged
with it.

## Main results

* `Merges.step`: one round of the loop.
* `coalesceBlock_merges`: the whole loop.
-/

namespace LoofOS

open Tiling

/-- In the memory `r'` the unused blocks `mid` of the heap `bs`, the one at `b` among them, have
become one block of size `k`. What was written, and what has changed, are headers of these
blocks. -/
structure Merges (r : Ram) (start m b : ℕ) (bs : List Block) (r' : Ram)
    (pre mid post : List Block) (k : ℕ) : Prop where
  blocks : bs = pre ++ mid ++ post
  unused : ∀ h ∈ mid, h.used = false
  absorbed : ∃ h, (b, h) ∈ layout Block.span (start + width Block.span pre) mid
  tiles : Tiles r' start (pre ++ ⟨k, false⟩ :: post) (start + 2 ^ m)
  aligned : SelfAligned Block.span start (pre ++ ⟨k, false⟩ :: post)
  written : ∃ written, r'.stamped = written ++ r.stamped ∧
    ∀ x ∈ written, ∃ h, (x, h) ∈ layout Block.span (start + width Block.span pre) mid
  byte : ∀ x, (∀ h, (x, h) ∉ layout Block.span (start + width Block.span pre) mid) →
    r'.byte x = r.byte x

/-- Inversion of the round that leaves the loop: the buddy is in use or of another size. -/
theorem coalesceBody_stops {offset block : ℕ} {r r' : Ram}
    (h : coalesceBody offset (r, block) = Sum.inr r') :
    r.header (buddyOf offset block (r.size block)) ≠ ⟨r.size block, false⟩ := by
  intro hhead
  obtain ⟨hsize, hused⟩ := Block.mk.inj hhead
  simp only [coalesceBody, hsize, hused, Bool.not_false, beq_self_eq_true, Bool.and_self,
    if_true] at h
  split at h <;> cases h

section Steps

variable {r r' : Ram} {start m b k : ℕ} {bs pre mid post : List Block}

theorem mem_layout_middle (start : ℕ) (pre : List Block) (c : Block) (post : List Block) :
    (start + width Block.span pre, c) ∈ layout Block.span start (pre ++ c :: post) := by
  rw [layout_append]
  exact List.mem_append_right _ List.mem_cons_self

/-- Two blocks of one size in the memory, merged by writing the header of the first. -/
theorem Tiles.merge {e : ℕ} (h : Tiles r' start (pre ++ ⟨k, false⟩ :: ⟨k, false⟩ :: post) e)
    (hk : k < 31) :
    Tiles (r'.setSize (start + width Block.span pre) (k + 1)) start
      (pre ++ ⟨k + 1, false⟩ :: post) e where
  ends := by
    have hends := h.ends
    simp only [width_append, width_cons, Block.span, Nat.pow_succ] at hends ⊢
    omega
  header x blk hx := by
    have hother : ∀ y c, (y, c) ∈ layout Block.span start pre ∨
        (y, c) ∈ layout Block.span (start + width Block.span pre + 2 ^ (k + 1)) post →
        (r'.setSize (start + width Block.span pre) (k + 1)).header y = c := by
      intro y c hy
      have hpos := c.span_pos
      have hpow := Nat.two_pow_pos (k + 1)
      have hne : y ≠ start + width Block.span pre := by
        rcases apart_of_mem_around hy with hle | hle <;> omega
      rw [Ram.header_congr (Ram.byte_setSize_of_ne (k + 1) hne)]
      refine h.header y c ?_
      rw [layout_append, layout_cons, layout_cons, List.mem_append, List.mem_cons, List.mem_cons]
      rcases hy with hy | hy
      · exact Or.inl hy
      · refine Or.inr (Or.inr (Or.inr ?_))
        rwa [Nat.pow_succ, Nat.mul_two, ← Nat.add_assoc] at hy
    rw [layout_append, layout_cons, List.mem_append, List.mem_cons] at hx
    rcases hx with hx | hx | hx
    · exact hother x blk (Or.inl hx)
    · obtain ⟨rfl, rfl⟩ := Prod.mk.inj hx
      have hused : r'.used (start + width Block.span pre) = false :=
        congrArg Block.used (h.header _ _ (mem_layout_middle _ _ _ _))
      rw [Ram.header, Ram.size_setSize_self, Ram.used_setSize_self, hused,
        Nat.mod_eq_of_lt (by omega)]
    · exact hother x blk (Or.inr hx)
  size blk hblk := by
    rcases List.mem_append.mp hblk with hpre | hblk
    · exact h.size blk (List.mem_append_left _ hpre)
    rcases List.mem_cons.mp hblk with rfl | hpost
    · have hsize := h.size ⟨k, false⟩ (List.mem_append_right _ List.mem_cons_self)
      simp only at hsize ⊢
      omega
    · exact h.size blk (List.mem_append_right _ (List.mem_cons_of_mem _
        (List.mem_cons_of_mem _ hpost)))

/-- The first of the merged blocks. -/
theorem Merges.mem_first (h : Merges r start m b bs r' pre mid post k) :
    ∃ c, (start + width Block.span pre, c)
      ∈ layout Block.span (start + width Block.span pre) mid := by
  obtain ⟨c, hc⟩ := h.absorbed
  cases mid with
  | nil => cases hc
  | cons d mid => exact ⟨d, List.mem_cons_self⟩

/-- The block spans the merged ones. -/
theorem Merges.width_mid (h : Merges r start m b bs r' pre mid post k)
    (hT : Tiles r start bs (start + 2 ^ m)) : width Block.span mid = 2 ^ k := by
  have hends := hT.ends
  have hends' := h.tiles.ends
  rw [h.blocks] at hends
  simp only [width_append, width_cons, Block.span] at hends hends'
  omega

/-- The blocks of the heap: those around the merged block, and those it was merged from. -/
theorem Merges.mem_old (h : Merges r start m b bs r' pre mid post k)
    (hT : Tiles r start bs (start + 2 ^ m)) {x : ℕ} {c : Block} :
    (x, c) ∈ layout Block.span start bs ↔
      ((x, c) ∈ layout Block.span start pre ∨
        (x, c) ∈ layout Block.span (start + width Block.span pre + 2 ^ k) post) ∨
      (x, c) ∈ layout Block.span (start + width Block.span pre) mid := by
  rw [h.blocks]
  exact mem_layout_replace (h.width_mid hT)

/-- The headers of the merged heap are headers of the old one. -/
theorem Merges.mem_header (h : Merges r start m b bs r' pre mid post k)
    (hT : Tiles r start bs (start + 2 ^ m)) {x : ℕ} {c : Block}
    (hx : (x, c) ∈ layout Block.span start (pre ++ ⟨k, false⟩ :: post)) :
    ∃ d, (x, d) ∈ layout Block.span start bs := by
  rw [layout_append, layout_cons, List.mem_append, List.mem_cons] at hx
  rcases hx with hx | hx | hx
  · exact ⟨c, (h.mem_old hT).mpr (Or.inl (Or.inl hx))⟩
  · obtain ⟨rfl, -⟩ := Prod.mk.inj hx
    obtain ⟨d, hd⟩ := h.mem_first
    exact ⟨d, (h.mem_old hT).mpr (Or.inr hd)⟩
  · exact ⟨c, (h.mem_old hT).mpr (Or.inl (Or.inr hx))⟩

/-- Every block in use stays where it is. -/
theorem Merges.mem_used (h : Merges r start m b bs r' pre mid post k)
    (hT : Tiles r start bs (start + 2 ^ m)) {x : ℕ} {c : Block}
    (hx : (x, c) ∈ layout Block.span start bs) (hc : c.used = true) :
    (x, c) ∈ layout Block.span start (pre ++ ⟨k, false⟩ :: post) := by
  rw [layout_append, layout_cons, List.mem_append, List.mem_cons]
  rcases (h.mem_old hT).mp hx with (hx | hx) | hx
  · exact Or.inl hx
  · exact Or.inr (Or.inr hx)
  · rw [h.unused c (mem_of_mem_layout hx)] at hc
    cases hc

/-- **Only headers of unused blocks change.** -/
theorem Merges.frame (h : Merges r start m b bs r' pre mid post k)
    (hT : Tiles r start bs (start + 2 ^ m)) {x : ℕ}
    (hx : ∀ c, (x, c) ∈ layout Block.span start bs → c.used = true) :
    r'.byte x = r.byte x := by
  refine h.byte x fun c hc => ?_
  have hused := hx c ((h.mem_old hT).mpr (Or.inr hc))
  rw [h.unused c (mem_of_mem_layout hc)] at hused
  cases hused

/-- With a block in use the merged block is not the whole heap. -/
theorem Merges.size_lt (h : Merges r start m b bs r' pre mid post k)
    (hused : ∃ c ∈ bs, c.used = true) : k < m := by
  obtain ⟨c, hc, hcu⟩ := hused
  have hends := h.tiles.ends
  have hpos := c.span_pos
  rw [h.blocks, List.append_assoc, List.mem_append, List.mem_append] at hc
  simp only [width_append, width_cons, Block.span] at hends
  refine (Nat.pow_lt_pow_iff_right Nat.one_lt_two).mp ?_
  rcases hc with hc | hc | hc
  · have hle : c.span ≤ width Block.span pre := le_width_of_mem hc
    omega
  · rw [h.unused c hc] at hcu
    cases hcu
  · have hle : c.span ≤ width Block.span post := le_width_of_mem hc
    omega

/-! ### One round -/

/-- The size that the header of the merged block shows. -/
theorem Merges.size_eq (h : Merges r start m b bs r' pre mid post k) :
    r'.size (start + width Block.span pre) = k :=
  congrArg Block.size (h.tiles.header _ _ (mem_layout_middle _ _ _ _))

/-- **The buddy of the merged block is a header**, of a block that is not larger. -/
theorem Merges.buddy (h : Merges r start m b bs r' pre mid post k) (hk : k < m)
    (hend : start + 2 ^ m ≤ 2 ^ 32) (hm : m ≤ 31) :
    buddyOf start (start + width Block.span pre) k
        = start + (width Block.span pre ^^^ 2 ^ k) ∧
      ∃ c, (start + (width Block.span pre ^^^ 2 ^ k), c)
        ∈ layout Block.span start (pre ++ ⟨k, false⟩ :: post) ∧ c.size ≤ k := by
  have hends := h.tiles.ends
  have hpow := Nat.two_pow_pos k
  have hhere := mem_layout_middle start pre ⟨k, false⟩ post
  have hbounds := (mem_layout_bounds hhere).2
  rw [hends] at hbounds
  simp only [Block.span] at hbounds
  have hwidth : width Block.span (pre ++ ⟨k, false⟩ :: post) = 2 ^ m := by omega
  have hxor : width Block.span pre ^^^ 2 ^ k < 2 ^ m :=
    Nat.xor_lt_two_pow (by omega) (Nat.pow_lt_pow_right Nat.one_lt_two hk)
  constructor
  · rw [buddyOf, sub32_of_le (by omega) (by omega), Nat.add_sub_cancel_left, bit32_of_lt (by omega),
      wrap32_of_lt (by omega), Nat.add_comm]
  · obtain ⟨c, hc, hsize⟩ := exists_buddy (fun _ => rfl) h.aligned hwidth hhere hk
    rw [Nat.add_sub_cancel_left] at hc
    exact ⟨c, hc, hsize⟩

/-- A multiple of `2 ^ k` with bit `k` clear is one of `2 ^ (k + 1)`. -/
theorem dvd_succ_of_testBit_false {n : ℕ} (h : 2 ^ k ∣ n) (hbit : n.testBit k = false) :
    2 ^ (k + 1) ∣ n := by
  obtain ⟨q, rfl⟩ := h
  rw [Nat.testBit_eq_decide_div_mod_eq, Nat.mul_div_cancel_left _ (Nat.two_pow_pos k),
    decide_eq_false_iff_not] at hbit
  obtain ⟨t, rfl⟩ : 2 ∣ q := by omega
  exact ⟨t, by rw [Nat.pow_succ, Nat.mul_assoc]⟩

/-- Two unused blocks of the heap next to each other become one: the merged block, and the block at
`pre'` that grows. -/
theorem Merges.grow {pre' mid' post' : List Block}
    (h : Merges r start m b bs r' pre mid post k) (hk : k < 31)
    (hlist : pre ++ ⟨k, false⟩ :: post = pre' ++ ⟨k, false⟩ :: ⟨k, false⟩ :: post')
    (hblocks : bs = pre' ++ mid' ++ post') (hunused : ∀ c ∈ mid', c.used = false)
    (hmid : ∀ x c, (x, c) ∈ layout Block.span (start + width Block.span pre) mid →
      (x, c) ∈ layout Block.span (start + width Block.span pre') mid')
    (hfirst : ∃ c, (start + width Block.span pre', c)
      ∈ layout Block.span (start + width Block.span pre') mid')
    (hbit : (width Block.span pre').testBit k = false) :
    Merges r start m b bs (r'.setSize (start + width Block.span pre') (k + 1)) pre' mid' post'
      (k + 1) := by
  have htiles := h.tiles
  have haligned := h.aligned
  rw [hlist] at htiles haligned
  have hdvd : 2 ^ k ∣ width Block.span pre' := by
    have hd := haligned _ _ (mem_layout_middle _ _ _ _)
    rwa [Nat.add_sub_cancel_left] at hd
  obtain ⟨first, hfirst⟩ := hfirst
  obtain ⟨written, hwritten, hheaders⟩ := h.written
  refine ⟨hblocks, hunused, ?_, htiles.merge hk, ?_,
    ⟨(start + width Block.span pre') :: written, ?_, ?_⟩, ?_⟩
  · obtain ⟨c, hc⟩ := h.absorbed
    exact ⟨c, hmid b c hc⟩
  · refine haligned.merge ?_ (dvd_succ_of_testBit_false hdvd hbit)
    rw [Block.span, Block.span, Nat.pow_succ, Nat.mul_two]
  · rw [Ram.stamped_setSize, hwritten, List.cons_append]
  · intro x hx
    rcases List.mem_cons.mp hx with rfl | hx
    · exact ⟨first, hfirst⟩
    · obtain ⟨c, hc⟩ := hheaders x hx
      exact ⟨c, hmid x c hc⟩
  · intro x hx
    have hne : x ≠ start + width Block.span pre' := by
      rintro rfl
      exact hx first hfirst
    rw [Ram.byte_setSize_of_ne _ hne]
    exact h.byte x fun c hc => hx c (hmid x c hc)

/-- **Merging with the block behind.** -/
theorem Merges.behind {rest : List Block} (h : Merges r start m b bs r' pre mid post k)
    (hk : k < 31) (hpost : post = ⟨k, false⟩ :: rest)
    (hbit : (width Block.span pre).testBit k = false) :
    Merges r start m b bs (r'.setSize (start + width Block.span pre) (k + 1)) pre
      (mid ++ [⟨k, false⟩]) rest (k + 1) := by
  have hmid : ∀ x c, (x, c) ∈ layout Block.span (start + width Block.span pre) mid →
      (x, c) ∈ layout Block.span (start + width Block.span pre) (mid ++ [⟨k, false⟩]) := by
    intro x c hx
    rw [layout_append]
    exact List.mem_append_left _ hx
  obtain ⟨first, hfirst⟩ := h.mem_first
  refine h.grow hk (by rw [hpost]) ?_ ?_ hmid ⟨first, hmid _ _ hfirst⟩ hbit
  · rw [h.blocks, hpost, List.append_assoc pre, List.append_assoc pre, List.append_assoc mid,
      List.singleton_append]
  · intro c hc
    rcases List.mem_append.mp hc with hc | hc
    · exact h.unused c hc
    · rw [List.mem_singleton.mp hc]

/-- **Merging with the block before.** -/
theorem Merges.before {rest : List Block} (h : Merges r start m b bs r' pre mid post k)
    (hk : k < 31) (hpre : pre = rest ++ [⟨k, false⟩])
    (hbit : (width Block.span rest).testBit k = false) :
    Merges r start m b bs (r'.setSize (start + width Block.span rest) (k + 1)) rest
      (⟨k, false⟩ :: mid) post (k + 1) := by
  have hwidth : start + width Block.span pre
      = start + width Block.span rest + Block.span ⟨k, false⟩ := by
    rw [hpre, width_append, width_cons, width_nil, Nat.add_zero, Nat.add_assoc]
  refine h.grow hk ?_ ?_ ?_ ?_ ⟨_, List.mem_cons_self⟩ hbit
  · rw [hpre, List.append_assoc, List.singleton_append]
  · rw [h.blocks, hpre, List.append_assoc rest, List.singleton_append]
  · intro c hc
    rcases List.mem_cons.mp hc with rfl | hc
    · rfl
    · exact h.unused c hc
  · intro x c hx
    rw [hwidth] at hx
    exact List.mem_cons_of_mem _ hx

/-- **One round of the loop** that goes on. -/
theorem Merges.step (h : Merges r start m b bs r' pre mid post k) (hk : k < m)
    (hend : start + 2 ^ m ≤ 2 ^ 32) (hm : m ≤ 31) {t : Ram × ℕ}
    (hround : coalesceBody start (r', start + width Block.span pre) = Sum.inl t) :
    ∃ pre' mid' post', t.2 = start + width Block.span pre' ∧
      Merges r start m b bs t.1 pre' mid' post' (k + 1) := by
  obtain ⟨hhead, hmin, hram⟩ := coalesceBody_inl hround
  obtain ⟨hbuddy, c, hc, -⟩ := h.buddy hk hend hm
  rw [h.size_eq, hbuddy] at hhead hmin
  rw [h.size_eq] at hram
  -- the buddy is an unused block of the same size
  obtain rfl : c = ⟨k, false⟩ := (h.tiles.header _ _ hc).symm.trans hhead
  have hpow := Nat.two_pow_pos k
  cases hbit : (width Block.span pre).testBit k with
  | false =>
      have hxor := xor_two_pow_of_testBit_false hbit
      rw [hxor] at hmin hc
      have hlow : t.2 = start + width Block.span pre := by omega
      obtain ⟨rest, hrest⟩ := eq_cons_of_mem_behind Block.span_pos
        (show (start + width Block.span pre + Block.span ⟨k, false⟩, (⟨k, false⟩ : Block)) ∈ _ by
          rwa [Nat.add_assoc])
      refine ⟨pre, mid ++ [⟨k, false⟩], rest, hlow, ?_⟩
      rw [hram, hlow]
      exact h.behind (by omega) hrest hbit
  | true =>
      have hxor := xor_two_pow_of_testBit_true hbit
      obtain ⟨rest, hrest⟩ := eq_concat_of_mem_before Block.span_pos hc (by
        rw [Block.span, Nat.add_assoc, hxor])
      have hwidth : width Block.span pre = width Block.span rest + 2 ^ k := by
        rw [hrest, width_append, width_cons, width_nil, Nat.add_zero, Block.span]
      have hlow : t.2 = start + width Block.span rest := by omega
      have hclear : (width Block.span rest).testBit k = false := by
        have hsame : width Block.span rest = width Block.span pre ^^^ 2 ^ k := by omega
        rw [hsame, Nat.testBit_xor, hbit, Nat.testBit_two_pow_self, Bool.xor_self]
      refine ⟨rest, ⟨k, false⟩ :: mid, post, hlow, ?_⟩
      rw [hram, hlow]
      exact h.before (by omega) hrest hclear

/-! ### The loop -/

/-- The loop starts with the given block alone. -/
theorem Tiles.merges {h : Block} (hT : Tiles r start bs (start + 2 ^ m))
    (hA : SelfAligned Block.span start bs) (hb : (b, h) ∈ layout Block.span start bs)
    (hfree : h.used = false) :
    ∃ pre post, b = start + width Block.span pre ∧
      Merges r start m b bs r pre [h] post h.size := by
  obtain ⟨pre, post, rfl, rfl⟩ := exists_append_of_mem_layout hb
  have hh : (⟨h.size, false⟩ : Block) = h := by rw [← hfree]
  refine ⟨pre, post, rfl, ?_, ?_, ⟨h, List.mem_cons_self⟩, by rwa [hh], by rwa [hh],
    ⟨[], rfl, ?_⟩, fun _ _ => rfl⟩
  · rw [List.append_assoc, List.singleton_append]
  · intro c hc
    rwa [List.mem_singleton.mp hc]
  · intro x hx
    cases hx

/-- What holds in every round, of the memory and of the block that is looked at. -/
theorem Merges.visits {h : Block} (hm : m ≤ 31) (hend : start + 2 ^ m ≤ 2 ^ 32)
    (hT : Tiles r start bs (start + 2 ^ m)) (hA : SelfAligned Block.span start bs)
    (hused : ∃ c ∈ bs, c.used = true) (hb : (b, h) ∈ layout Block.span start bs)
    (hfree : h.used = false) {s : Ram × ℕ} (hs : Loop.Visits (coalesceBody start) (r, b) s) :
    ∃ pre mid post k, s.2 = start + width Block.span pre ∧
      Merges r start m b bs s.1 pre mid post k := by
  refine Loop.Visits.invariant (I := fun s => ∃ pre mid post k,
    s.2 = start + width Block.span pre ∧ Merges r start m b bs s.1 pre mid post k) ?_ ?_ hs
  · rintro ⟨r₁, b₁⟩ s' ⟨pre, mid, post, k, hb₁, hmerges⟩ hround
    obtain rfl : b₁ = start + width Block.span pre := hb₁
    obtain ⟨pre', mid', post', hlow, hmerges'⟩ :=
      hmerges.step (hmerges.size_lt hused) hend hm hround
    exact ⟨pre', mid', post', k + 1, hlow, hmerges'⟩
  · obtain ⟨pre, post, hbe, hmerges⟩ := hT.merges hA hb hfree
    exact ⟨pre, [h], post, h.size, hbe, hmerges⟩

/-- **`coalesce_block` on headers.** Called with the header of an unused block of a heap in which
every block stands at a multiple of its span and at least one block is in use, it returns. In every
round both the block and what the loop takes for its buddy are headers of the heap, so nothing else
is read. In the end the block has been merged with unused ones around it, all other blocks and all
other bytes are as they were, and at the buddy of the merged block there stands another block than
an unused one of its size. -/
theorem coalesceBlock_merges {h : Block} (hm : m ≤ 31) (hend : start + 2 ^ m ≤ 2 ^ 32)
    (hT : Tiles r start bs (start + 2 ^ m)) (hA : SelfAligned Block.span start bs)
    (hused : ∃ c ∈ bs, c.used = true) (hb : (b, h) ∈ layout Block.span start bs)
    (hfree : h.used = false) :
    (∀ s, Loop.Visits (coalesceBody start) (r, b) s →
      (∃ c, (s.2, c) ∈ layout Block.span start bs) ∧
        ∃ c, (buddyOf start s.2 (s.1.size s.2), c) ∈ layout Block.span start bs) ∧
    ∃ r', coalesceBlock r b start = some r' ∧
      (∀ x, (∀ c, (x, c) ∈ layout Block.span start bs → c.used = true) →
        r'.byte x = r.byte x) ∧
      ∃ pre mid post k, Merges r start m b bs r' pre mid post k ∧
        (∀ x c, (x, c) ∈ layout Block.span start bs → c.used = true →
          (x, c) ∈ layout Block.span start (pre ++ ⟨k, false⟩ :: post)) ∧
        ∃ c, (buddyOf start (start + width Block.span pre) k, c)
            ∈ layout Block.span start (pre ++ ⟨k, false⟩ :: post) ∧ c ≠ ⟨k, false⟩ := by
  have hvisits : ∀ s, Loop.Visits (coalesceBody start) (r, b) s →
      ∃ pre mid post k, s.2 = start + width Block.span pre ∧
        Merges r start m b bs s.1 pre mid post k :=
    fun s hs => Merges.visits hm hend hT hA hused hb hfree hs
  constructor
  · rintro ⟨r₁, b₁⟩ hs
    obtain ⟨pre, mid, post, k, hb₁, hmerges⟩ := hvisits _ hs
    obtain rfl : b₁ = start + width Block.span pre := hb₁
    obtain ⟨hbuddy, c, hc, -⟩ := hmerges.buddy (hmerges.size_lt hused) hend hm
    refine ⟨hmerges.mem_header hT (mem_layout_middle _ _ _ _), ?_⟩
    simp only
    rw [hmerges.size_eq, hbuddy]
    exact hmerges.mem_header hT hc
  · have hbounds := mem_layout_bounds hb
    have hends := hT.ends
    have hpos := h.span_pos
    obtain ⟨r', hr'⟩ := @coalesceBlock_terminates r b start (by omega) (by omega)
    obtain ⟨⟨r₁, b₁⟩, hs, hstop⟩ := Loop.exists_visits_of_iter hr'
    obtain rfl := coalesceBody_inr hstop
    obtain ⟨pre, mid, post, k, hb₁, hmerges⟩ := hvisits _ hs
    obtain rfl : b₁ = start + width Block.span pre := hb₁
    obtain ⟨hbuddy, c, hc, -⟩ := hmerges.buddy (hmerges.size_lt hused) hend hm
    have hne := coalesceBody_stops hstop
    rw [hmerges.size_eq, hbuddy, hmerges.tiles.header _ _ hc] at hne
    rw [← hbuddy] at hc
    exact ⟨_, hr', fun x hx => hmerges.frame hT hx, pre, mid, post, k, hmerges,
      fun x c hx hcu => hmerges.mem_used hT hx hcu, c, hc, hne⟩

end Steps

/-! ### A heap with two buddies -/

/-- Two unused blocks of eight bytes, and one of sixteen in use. -/
def buddyBlocks : List Block := [⟨3, false⟩, ⟨3, false⟩, ⟨4, true⟩]

/-- A memory with these blocks at `0x1000`. -/
def buddyRam : Ram := { byte := fun x => if x = 0x1010 then 0x84 else 3 }

theorem buddyRam_tiles : Tiles buddyRam 0x1000 buddyBlocks (0x1000 + 2 ^ 5) where
  ends := by simp [buddyBlocks, Block.span]
  header x c hx := by
    simp only [buddyBlocks, layout_cons, layout_nil, Block.span, List.mem_cons, Prod.mk.injEq,
      List.not_mem_nil, or_false] at hx
    rcases hx with ⟨rfl, rfl⟩ | ⟨rfl, rfl⟩ | ⟨rfl, rfl⟩ <;> rfl
  size c hc := by
    simp only [buddyBlocks, List.mem_cons, List.not_mem_nil, or_false] at hc
    rcases hc with rfl | rfl | rfl <;> simp

theorem buddyBlocks_aligned : SelfAligned Block.span 0x1000 buddyBlocks := by
  intro x c hx
  simp only [buddyBlocks, layout_cons, layout_nil, Block.span, List.mem_cons, Prod.mk.injEq,
    List.not_mem_nil, or_false] at hx
  rcases hx with ⟨rfl, rfl⟩ | ⟨rfl, rfl⟩ | ⟨rfl, rfl⟩ <;> simp [Block.span]

/-- The second of the two blocks is merged with the first. -/
theorem coalesceBlock_merges_buddies :
    ∃ r', coalesceBlock buddyRam 0x1008 0x1000 = some r' ∧ ∃ pre mid post k,
      Merges buddyRam 0x1000 5 0x1008 buddyBlocks r' pre mid post k := by
  obtain ⟨-, r', hr', -, pre, mid, post, k, hmerges, -⟩ := coalesceBlock_merges (by omega)
    (by omega) buddyRam_tiles buddyBlocks_aligned ⟨⟨4, true⟩, by simp [buddyBlocks], rfl⟩
    (show (0x1008, (⟨3, false⟩ : Block)) ∈ layout Block.span 0x1000 buddyBlocks by
      simp [buddyBlocks, Block.span]) rfl
  exact ⟨r', hr', pre, mid, post, k, hmerges⟩

end LoofOS
