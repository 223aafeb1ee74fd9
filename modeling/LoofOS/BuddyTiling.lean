import LoofOS.Memory
import LoofOS.Tiling

/-!
# Self-Aligned Tilings

Tilings by blocks whose widths are powers of two, in which every block stands at a multiple of its
own width from the start (`SelfAligned`). The buddy of a block is what one gets by flipping the bit
of its width in its offset.

## Main results

* `exists_mem_layout`: every address of the range lies in a block.
* `exists_buddy`: at the buddy of a block that is not the whole range there starts a block, which is
  not larger.
* `eq_cons_of_mem_behind`, `eq_concat_of_mem_before`: the neighbours of a block in the list.
* `SelfAligned.merge`: two buddies replaced by one block of their width.
-/

namespace Tiling

variable {β : Type*} {w : β → ℕ} {a x y : ℕ} {b c d : β} {bs pre post : List β}

/-! ### Neighbours -/

/-- **Every address of the range lies in a block.** -/
theorem exists_mem_layout {p : ℕ} (hp : a ≤ p) (h : p < a + width w bs) :
    ∃ x b, (x, b) ∈ layout w a bs ∧ x ≤ p ∧ p < x + w b := by
  induction bs generalizing a with
  | nil =>
      rw [width_nil] at h
      omega
  | cons b bs ih =>
      by_cases hin : p < a + w b
      · exact ⟨a, b, List.mem_cons_self, hp, hin⟩
      · rw [width_cons] at h
        obtain ⟨x, c, hmem, hle, hlt⟩ := @ih (a + w b) (by omega) (by omega)
        exact ⟨x, c, List.mem_cons_of_mem _ hmem, hle, hlt⟩

/-- The block at the start of a list is its first one. -/
theorem eq_cons_of_mem_start (hpos : ∀ b, 0 < w b) (h : (a, c) ∈ layout w a bs) :
    ∃ rest, bs = c :: rest := by
  cases bs with
  | nil => cases h
  | cons b bs =>
      have hb : (a, b) ∈ layout w a (b :: bs) := List.mem_cons_self
      have hposb := hpos b
      have hposc := hpos c
      rcases layout_apart hb h with ⟨-, rfl⟩ | hle | hle
      · exact ⟨bs, rfl⟩
      · omega
      · omega

/-- A block that starts where another one ends stands behind it. -/
theorem eq_cons_of_mem_behind (hpos : ∀ b, 0 < w b)
    (h : (a + width w pre + w d, c) ∈ layout w a (pre ++ d :: post)) :
    ∃ rest, post = c :: rest := by
  have hposd := hpos d
  have hposc := hpos c
  rw [layout_append, layout_cons, List.mem_append, List.mem_cons] at h
  rcases h with h | h | h
  · have := (mem_layout_bounds h).2
    omega
  · have := congrArg Prod.fst h
    simp only at this
    omega
  · exact eq_cons_of_mem_start hpos h

/-- A block that ends where another one starts stands before it. -/
theorem eq_concat_of_mem_before (hpos : ∀ b, 0 < w b)
    (h : (x, c) ∈ layout w a (pre ++ d :: post)) (hx : x + w c = a + width w pre) :
    ∃ rest, pre = rest ++ [c] := by
  have hposc := hpos c
  rw [layout_append, layout_cons, List.mem_append, List.mem_cons] at h
  rcases h with h | h | h
  · obtain ⟨rest, behind, rfl, rfl⟩ := exists_append_of_mem_layout h
    rw [width_append, width_cons] at hx
    cases behind with
    | nil => exact ⟨rest, rfl⟩
    | cons e behind =>
        have hpose := hpos e
        rw [width_cons] at hx
        omega
  · have := congrArg Prod.fst h
    simp only at this
    omega
  · have := (mem_layout_bounds h).1
    omega

/-! ### Self-aligned tilings -/

/-- Every block stands at a multiple of its width. -/
def SelfAligned (w : β → ℕ) (a : ℕ) (bs : List β) : Prop :=
  ∀ x b, (x, b) ∈ layout w a bs → w b ∣ x - a

section Buddies

variable {size : β → ℕ} {m : ℕ}

/-- An offset and its buddy lie in the same block of a larger width. -/
theorem xor_div_of_lt {off k j : ℕ} (hkj : k < j) : (off ^^^ 2 ^ k) / 2 ^ j = off / 2 ^ j := by
  rw [Nat.xor_div_two_pow, Nat.div_eq_of_lt (Nat.pow_lt_pow_right Nat.one_lt_two hkj), Nat.xor_zero]

/-- The buddy of a multiple of a width is one of every smaller width. -/
theorem dvd_xor_of_le {off k j : ℕ} (hjk : j ≤ k) (h : 2 ^ k ∣ off) : 2 ^ j ∣ off ^^^ 2 ^ k := by
  have hoff : off % 2 ^ j = 0 := Nat.mod_eq_zero_of_dvd ((Nat.pow_dvd_pow 2 hjk).trans h)
  have hpow : 2 ^ k % 2 ^ j = 0 := Nat.mod_eq_zero_of_dvd (Nat.pow_dvd_pow 2 hjk)
  apply Nat.dvd_of_mod_eq_zero
  rw [Nat.xor_mod_two_pow, hoff, hpow, Nat.xor_zero]

/-- An aligned block is the set of the offsets with one quotient. -/
theorem mem_block_iff {z j n : ℕ} (h : 2 ^ j ∣ z) :
    z ≤ n ∧ n < z + 2 ^ j ↔ n / 2 ^ j = z / 2 ^ j := by
  obtain ⟨t, rfl⟩ := h
  have hpos := Nat.two_pow_pos j
  rw [Nat.mul_div_cancel_left _ hpos, Nat.div_eq_iff hpos]
  rw [Nat.mul_comm t]
  omega

/-- **At the buddy of a block there starts a block**, which is not larger. -/
theorem exists_buddy (hw : ∀ b, w b = 2 ^ size b) (hA : SelfAligned w a bs)
    (hwidth : width w bs = 2 ^ m) (hb : (x, b) ∈ layout w a bs) (hlt : size b < m) :
    ∃ c, (a + ((x - a) ^^^ 2 ^ size b), c) ∈ layout w a bs ∧ size c ≤ size b := by
  have hbounds := mem_layout_bounds hb
  have hoff : 2 ^ size b ∣ x - a := hw b ▸ hA x b hb
  have hposb := Nat.two_pow_pos (size b)
  rw [hw, hwidth] at hbounds
  have hin : (x - a) ^^^ 2 ^ size b < 2 ^ m :=
    Nat.xor_lt_two_pow (by omega) (Nat.pow_lt_pow_right Nat.one_lt_two hlt)
  obtain ⟨z, c, hc, hle, hltc⟩ := @exists_mem_layout β w a bs (a + ((x - a) ^^^ 2 ^ size b))
    (Nat.le_add_right _ _) (by rw [hwidth]; omega)
  have haz := (mem_layout_bounds hc).1
  have hz : 2 ^ size c ∣ z - a := hw c ▸ hA z c hc
  rw [hw] at hltc
  have hquot := (mem_block_iff (n := (x - a) ^^^ 2 ^ size b) hz).mp ⟨by omega, by omega⟩
  by_cases hsize : size c ≤ size b
  · -- the block that contains the buddy starts there
    refine ⟨c, ?_, hsize⟩
    have hstart : (x - a) ^^^ 2 ^ size b = z - a := by
      rw [← Nat.div_mul_cancel (dvd_xor_of_le hsize hoff), ← Nat.div_mul_cancel hz, hquot]
    rw [hstart, Nat.add_sub_cancel' haz]
    exact hc
  · -- a larger one would contain the block itself
    rw [xor_div_of_lt (by omega)] at hquot
    have hcontains := (mem_block_iff hz).mpr hquot
    rcases layout_apart hb hc with ⟨-, rfl⟩ | hle' | hle'
    · omega
    · rw [hw] at hle'
      omega
    · rw [hw] at hle'
      omega

/-- **Two buddies replaced by one block.** -/
theorem SelfAligned.merge (hA : SelfAligned w a (pre ++ b :: c :: post)) (hbc : w d = w b + w c)
    (hd : w d ∣ width w pre) : SelfAligned w a (pre ++ d :: post) := by
  intro x e he
  rw [layout_append, layout_cons, List.mem_append, List.mem_cons] at he
  have hmem : ∀ y f, (y, f) ∈ layout w a (pre ++ b :: c :: post) ↔
      (y, f) ∈ layout w a pre ∨ (y, f) = (a + width w pre, b) ∨
        (y, f) = (a + width w pre + w b, c) ∨
          (y, f) ∈ layout w (a + width w pre + w b + w c) post := fun y f => by
    rw [layout_append, layout_cons, layout_cons, List.mem_append, List.mem_cons, List.mem_cons]
  rcases he with he | he | he
  · exact hA x e ((hmem x e).mpr (Or.inl he))
  · obtain ⟨rfl, rfl⟩ := Prod.mk.inj he
    rwa [Nat.add_sub_cancel_left]
  · rw [hbc, ← Nat.add_assoc] at he
    exact hA x e ((hmem x e).mpr (Or.inr (Or.inr (Or.inr he))))

end Buddies

end Tiling
