import Mathlib.Data.List.Nodup
import Mathlib.Logic.Function.Basic
import Mathlib.Tactic.Common

/-!
# Singly Linked Chains

Nodes of a type `α` are linked by a function `next`. `Chain next a l e` says that a walk
along the links, started at `a`, goes through the nodes of `l` and arrives at `e`. The
chain may be threaded through the nodes themselves, as in a free list, or kept in a table.

## Main results

* `Chain.congr`: a chain depends on the links of its nodes only.
* `Chain.push`: a node is put in front.
* `Chain.next_inj`: in a chain without repetitions the links are injective.
* `chain_ofList`: a table that links the nodes of a list.
-/

namespace LinkedChain

variable {α : Type*}

/-- A walk from `a` goes through the nodes of `l` and arrives at `e`. -/
def Chain (next : α → α) : α → List α → α → Prop
  | a, [], e => a = e
  | a, x :: l, e => a = x ∧ Chain next (next x) l e

variable {next next' : α → α} {a e : α} {l m : List α}

/-- A chain depends on the links of its nodes only. -/
theorem Chain.congr (h : Chain next a l e) (heq : ∀ x ∈ l, next' x = next x) :
    Chain next' a l e := by
  induction l generalizing a with
  | nil => exact h
  | cons x l ih =>
      refine ⟨h.1, ?_⟩
      rw [heq x List.mem_cons_self]
      exact ih h.2 fun y hy => heq y (List.mem_cons_of_mem _ hy)

/-- **Pushing a node**: it is linked to the old first node. -/
theorem Chain.push (h : Chain next a l e) {x : α} (hx : next' x = a)
    (heq : ∀ y ∈ l, next' y = next y) : Chain next' x (x :: l) e :=
  ⟨rfl, by rw [hx]; exact h.congr heq⟩

/-- Only the node at its place of the chain has a given link. -/
theorem Chain.mem_of_next (h : Chain next a l e) {x : α} (hx : x ∈ l) :
    next x = e ∨ next x ∈ l.tail := by
  induction l generalizing a with
  | nil => cases hx
  | cons y l ih =>
      obtain ⟨rfl, h⟩ := h
      cases l with
      | nil =>
          obtain rfl := List.mem_singleton.mp hx
          exact Or.inl h
      | cons z l =>
          rcases List.mem_cons.mp hx with rfl | hx
          · rw [h.1]
            exact Or.inr List.mem_cons_self
          · exact (ih h hx).imp_right fun hm => List.mem_cons_of_mem _ hm

/-- **In a chain without repetitions** that does not come back from its end, different nodes
have different links. -/
theorem Chain.next_inj (h : Chain next a l e) (hnodup : l.Nodup) (he : e ∉ l) {x y : α}
    (hx : x ∈ l) (hy : y ∈ l) (hxy : next x = next y) : x = y := by
  induction l generalizing a with
  | nil => cases hx
  | cons z l ih =>
      obtain ⟨rfl, h⟩ := h
      obtain ⟨hz, hnodup⟩ := List.nodup_cons.mp hnodup
      have he' : e ∉ l := fun hm => he (List.mem_cons_of_mem _ hm)
      -- the first node is linked to the second one, no later node is
      have hfirst : ∀ w ∈ l, next w ≠ next a := by
        intro w hw heq
        cases l with
        | nil => cases hw
        | cons b l =>
            rw [h.1] at heq
            rcases h.mem_of_next hw with hend | hlater
            · exact he' (by rw [← hend, heq]; exact List.mem_cons_self)
            · rw [heq] at hlater
              exact (List.nodup_cons.mp hnodup).1 hlater
      rcases List.mem_cons.mp hx with hxa | hx'
      · rcases List.mem_cons.mp hy with hya | hy'
        · rw [hxa, hya]
        · rw [hxa] at hxy
          exact absurd hxy.symm (hfirst y hy')
      · rcases List.mem_cons.mp hy with hya | hy'
        · rw [hya] at hxy
          exact absurd hxy (hfirst x hx')
        · exact ih h hnodup he' hx' hy'

/-- Two chains through the same nodes agree up to the link of the last node. -/
theorem Chain.next_eq {b e' : α} (h : Chain next a l e) (h' : Chain next' b l e') {x : α}
    (hx : x ∈ l) : next' x = next x ∨ (next x = e ∧ next' x = e') := by
  induction l generalizing a b with
  | nil => cases hx
  | cons y l ih =>
      obtain ⟨rfl, h⟩ := h
      obtain ⟨rfl, h'⟩ := h'
      rcases List.mem_cons.mp hx with rfl | hx
      · cases l with
        | nil => exact Or.inr ⟨h, h'⟩
        | cons z l => exact Or.inl (h'.1.trans h.1.symm)
      · exact ih h h' hx

/-- The nodes of a list are linked in a table, the last one to `e`. -/
def ofList [DecidableEq α] (e : α) (table : α → α) : List α → α → α
  | [] => table
  | [x] => Function.update table x e
  | x :: y :: l => Function.update (ofList e table (y :: l)) x y

theorem ofList_of_not_mem [DecidableEq α] {table : α → α} {x : α} (hx : x ∉ l) :
    ofList e table l x = table x := by
  induction l with
  | nil => rfl
  | cons y l ih =>
      obtain ⟨hne, hx⟩ := not_or.mp (List.mem_cons.not.mp hx)
      cases l with
      | nil => exact Function.update_of_ne hne _ _
      | cons z l => exact (Function.update_of_ne hne _ _).trans (ih hx)

/-- **Linking the nodes of a list.** -/
theorem chain_ofList [DecidableEq α] (table : α → α) {x : α} (hnodup : (x :: l).Nodup) :
    Chain (ofList e table (x :: l)) x (x :: l) e := by
  induction l generalizing x with
  | nil => exact ⟨rfl, Function.update_self _ _ _⟩
  | cons y l ih =>
      obtain ⟨hx, hnodup⟩ := List.nodup_cons.mp hnodup
      refine ⟨rfl, ?_⟩
      have hself : ofList e table (x :: y :: l) x = y := Function.update_self _ _ _
      rw [hself]
      refine (ih hnodup).congr fun z hz => Function.update_of_ne ?_ _ _
      rintro rfl
      exact hx hz

/-- What such a table holds. -/
theorem ofList_mem [DecidableEq α] (table : α → α) (x : α) :
    ofList e table l x = table x ∨ ofList e table l x = e ∨ ofList e table l x ∈ l := by
  induction l with
  | nil => exact Or.inl rfl
  | cons y l ih =>
      by_cases hx : x = y
      · subst hx
        cases l with
        | nil => exact Or.inr (Or.inl (Function.update_self _ _ _))
        | cons z l =>
            have hself : ofList e table (x :: z :: l) x = z := Function.update_self _ _ _
            rw [hself]
            exact Or.inr (Or.inr (List.mem_cons_of_mem _ List.mem_cons_self))
      · cases l with
        | nil => exact Or.inl (Function.update_of_ne hx _ _)
        | cons z l =>
            have hother : ofList e table (y :: z :: l) x = ofList e table (z :: l) x :=
              Function.update_of_ne hx _ _
            rw [hother]
            exact ih.imp_right fun h => h.imp_right fun h => List.mem_cons_of_mem _ h

end LinkedChain
