import Mathlib.Data.Nat.Notation
import Mathlib.Tactic.Common

/-!
# Tilings of an Address Range

Blocks of type `β`, each with a width `w b`, are laid out one after the other from an
address `a`. `layout w a bs` lists the blocks with the addresses they start at, `width`
is the total length. Nothing is assumed about the blocks, not even that their widths are
positive.

## Main results

* `layout_append`, `exists_append_of_mem_layout`: a layout is cut at any of its blocks.
* `mem_layout_bounds`: every block lies in the range.
* `layout_apart`: two blocks of one layout are the same block or do not overlap.
* `mem_layout_replace`: what stays when some blocks are replaced.
-/

namespace Tiling

variable {β : Type*}

/-- The total width of a list of blocks. -/
def width (w : β → ℕ) : List β → ℕ
  | [] => 0
  | b :: bs => w b + width w bs

/-- The blocks with the addresses they start at, the first one at `a`. -/
def layout (w : β → ℕ) : ℕ → List β → List (ℕ × β)
  | _, [] => []
  | a, b :: bs => (a, b) :: layout w (a + w b) bs

variable {w : β → ℕ}

@[simp] theorem width_nil : width w [] = 0 := rfl

@[simp] theorem width_cons (b : β) (bs : List β) : width w (b :: bs) = w b + width w bs := rfl

@[simp] theorem width_append (bs cs : List β) :
    width w (bs ++ cs) = width w bs + width w cs := by
  induction bs with
  | nil => simp
  | cons b bs ih => simp [ih, Nat.add_assoc]

@[simp] theorem layout_nil (a : ℕ) : layout w a [] = [] := rfl

@[simp] theorem layout_cons (a : ℕ) (b : β) (bs : List β) :
    layout w a (b :: bs) = (a, b) :: layout w (a + w b) bs := rfl

@[simp] theorem layout_append (a : ℕ) (bs cs : List β) :
    layout w a (bs ++ cs) = layout w a bs ++ layout w (a + width w bs) cs := by
  induction bs generalizing a with
  | nil => simp
  | cons b bs ih => simp [ih, Nat.add_assoc]

@[simp] theorem length_layout (a : ℕ) (bs : List β) : (layout w a bs).length = bs.length := by
  induction bs generalizing a with
  | nil => rfl
  | cons b bs ih => rw [layout_cons, List.length_cons, List.length_cons, ih]

/-- A list of blocks that are at least one wide is no longer than wide. -/
theorem length_le_width {bs : List β} (h : ∀ b ∈ bs, 1 ≤ w b) : bs.length ≤ width w bs := by
  induction bs with
  | nil => simp
  | cons b bs ih =>
      have hb := h b List.mem_cons_self
      have hbs := ih fun c hc => h c (List.mem_cons_of_mem _ hc)
      simp only [List.length_cons, width_cons]
      omega

theorem le_width_of_mem {b : β} {bs : List β} (h : b ∈ bs) : w b ≤ width w bs := by
  induction bs with
  | nil => cases h
  | cons c bs ih =>
      rw [width_cons]
      rcases List.mem_cons.mp h with rfl | h
      · exact Nat.le_add_right _ _
      · exact Nat.le_trans (ih h) (Nat.le_add_left _ _)

/-- Every block of a layout lies in the range of the layout. -/
theorem mem_layout_bounds {a x : ℕ} {b : β} {bs : List β} (h : (x, b) ∈ layout w a bs) :
    a ≤ x ∧ x + w b ≤ a + width w bs := by
  induction bs generalizing a with
  | nil => simp at h
  | cons c bs ih =>
      simp only [layout_cons, List.mem_cons, Prod.mk.injEq] at h
      rw [width_cons]
      rcases h with ⟨rfl, rfl⟩ | h
      · omega
      · have := ih h
        omega

theorem mem_of_mem_layout {a x : ℕ} {b : β} {bs : List β} (h : (x, b) ∈ layout w a bs) :
    b ∈ bs := by
  induction bs generalizing a with
  | nil => simp at h
  | cons c bs ih =>
      simp only [layout_cons, List.mem_cons, Prod.mk.injEq] at h
      rcases h with ⟨-, rfl⟩ | h
      · exact List.mem_cons_self
      · exact List.mem_cons_of_mem _ (ih h)

/-- Behind a block of a layout comes another one, or the end. -/
theorem mem_layout_next {a x : ℕ} {b : β} {bs : List β} (h : (x, b) ∈ layout w a bs) :
    (∃ c, (x + w b, c) ∈ layout w a bs) ∨ x + w b = a + width w bs := by
  induction bs generalizing a with
  | nil => simp at h
  | cons c bs ih =>
      simp only [layout_cons, List.mem_cons, Prod.mk.injEq] at h
      rcases h with ⟨rfl, rfl⟩ | h
      · cases bs with
        | nil => exact Or.inr (by simp)
        | cons d bs => exact Or.inl ⟨d, by simp⟩
      · rcases ih h with ⟨d, hd⟩ | hend
        · exact Or.inl ⟨d, List.mem_cons_of_mem _ hd⟩
        · exact Or.inr (by rw [hend, width_cons, Nat.add_assoc])

/-- A list is cut at any block of its layout. -/
theorem exists_append_of_mem_layout {a x : ℕ} {b : β} {bs : List β}
    (h : (x, b) ∈ layout w a bs) :
    ∃ pre post, bs = pre ++ b :: post ∧ x = a + width w pre := by
  induction bs generalizing a with
  | nil => simp at h
  | cons c bs ih =>
      simp only [layout_cons, List.mem_cons, Prod.mk.injEq] at h
      rcases h with ⟨rfl, rfl⟩ | h
      · exact ⟨[], bs, rfl, rfl⟩
      · obtain ⟨pre, post, rfl, rfl⟩ := ih h
        exact ⟨c :: pre, post, rfl, by rw [width_cons, Nat.add_assoc]⟩

/-- **Two blocks of one layout are the same block or do not overlap.** -/
theorem layout_apart {a x y : ℕ} {b c : β} {bs : List β} (hb : (x, b) ∈ layout w a bs)
    (hc : (y, c) ∈ layout w a bs) :
    (x = y ∧ b = c) ∨ x + w b ≤ y ∨ y + w c ≤ x := by
  induction bs generalizing a with
  | nil => simp at hb
  | cons d bs ih =>
      simp only [layout_cons, List.mem_cons, Prod.mk.injEq] at hb hc
      rcases hb with ⟨rfl, rfl⟩ | hb <;> rcases hc with ⟨rfl, rfl⟩ | hc
      · exact Or.inl ⟨rfl, rfl⟩
      · exact Or.inr (Or.inl (mem_layout_bounds hc).1)
      · exact Or.inr (Or.inr (mem_layout_bounds hb).1)
      · exact ih hb hc

/-! ### Replacing some blocks by others of the same total width -/

/-- The layout after the blocks in the middle were replaced. -/
theorem mem_layout_replace {a n x : ℕ} {b : β} {pre mid post : List β} (hn : width w mid = n) :
    (x, b) ∈ layout w a (pre ++ mid ++ post) ↔
      ((x, b) ∈ layout w a pre ∨ (x, b) ∈ layout w (a + width w pre + n) post) ∨
        (x, b) ∈ layout w (a + width w pre) mid := by
  rw [layout_append, layout_append, width_append, hn, ← Nat.add_assoc]
  simp only [List.mem_append]
  exact or_right_comm

/-- The blocks around the middle do not overlap it. -/
theorem apart_of_mem_around {a n x : ℕ} {b : β} {pre post : List β}
    (h : (x, b) ∈ layout w a pre ∨ (x, b) ∈ layout w (a + width w pre + n) post) :
    x + w b ≤ a + width w pre ∨ a + width w pre + n ≤ x := by
  rcases h with h | h
  · exact Or.inl (mem_layout_bounds h).2
  · exact Or.inr (mem_layout_bounds h).1

end Tiling
