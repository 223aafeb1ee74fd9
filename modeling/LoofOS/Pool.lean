import Mathlib.Data.List.Nodup
import Mathlib.Tactic.Common

/-!
# Pools of Resources

Resources of a type `α` are kept in a pool, a list from whose front they are taken, and held by
holders of a type `ι`. `Apart` says that no resource is in two places; `Accounts S` says that the
resources of `S`, and no others, are somewhere.

## Main results

* `Apart.take`, `Accounts.take`: the first resource of the pool goes to a holder.
* `Apart.exactly_one`: a resource that is accounted for is in exactly one place.
-/

namespace Pool

variable {α ι : Type*} {S : α → Prop} {pool : List α} {holds holds' : ι → α → Prop} {a : α} {i : ι}

/-- No resource is in two places. -/
structure Apart (pool : List α) (holds : ι → α → Prop) : Prop where
  nodup : pool.Nodup
  free : ∀ i a, holds i a → a ∉ pool
  inj : ∀ i j a, holds i a → holds j a → i = j

/-- Every resource of `S` is in the pool or held, and there are no others. -/
structure Accounts (S : α → Prop) (pool : List α) (holds : ι → α → Prop) : Prop where
  lost : ∀ a, S a → a ∈ pool ∨ ∃ i, holds i a
  pool : ∀ a ∈ pool, S a
  held : ∀ i a, holds i a → S a

theorem Apart.congr (h : Apart pool holds) (heq : ∀ i a, holds' i a ↔ holds i a) :
    Apart pool holds' where
  nodup := h.nodup
  free i a hi := h.free i a ((heq i a).mp hi)
  inj i j a hi hj := h.inj i j a ((heq i a).mp hi) ((heq j a).mp hj)

theorem Accounts.congr (h : Accounts S pool holds) (heq : ∀ i a, holds' i a ↔ holds i a) :
    Accounts S pool holds' where
  lost a ha := (h.lost a ha).imp_right fun ⟨i, hi⟩ => ⟨i, (heq i a).mpr hi⟩
  pool := h.pool
  held i a hi := h.held i a ((heq i a).mp hi)

/-- **Taking a resource** from the front of the pool. -/
theorem Apart.take (h : Apart (a :: pool) holds)
    (hnew : ∀ j b, holds' j b ↔ holds j b ∨ (j = i ∧ b = a)) : Apart pool holds' := by
  obtain ⟨hnot, hnodup⟩ := List.nodup_cons.mp h.nodup
  refine ⟨hnodup, fun j b hj => ?_, fun j k b hj hk => ?_⟩
  · rcases (hnew j b).mp hj with hj | ⟨-, rfl⟩
    · exact fun hb => h.free j b hj (List.mem_cons_of_mem _ hb)
    · exact hnot
  · have hfirst : ∀ l, ¬ holds l a := fun l hl => h.free l a hl List.mem_cons_self
    rcases (hnew j b).mp hj with hj | ⟨rfl, rfl⟩ <;> rcases (hnew k b).mp hk with hk | ⟨rfl, he⟩
    · exact h.inj j k b hj hk
    · exact absurd (he ▸ hj) (hfirst j)
    · exact absurd hk (hfirst k)
    · rfl

theorem Accounts.take (h : Accounts S (a :: pool) holds)
    (hnew : ∀ j b, holds' j b ↔ holds j b ∨ (j = i ∧ b = a)) : Accounts S pool holds' := by
  refine ⟨fun b hb => ?_, fun b hb => h.pool b (List.mem_cons_of_mem _ hb), fun j b hj => ?_⟩
  · rcases h.lost b hb with hmem | ⟨j, hj⟩
    · rcases List.mem_cons.mp hmem with rfl | hmem
      · exact Or.inr ⟨i, (hnew i b).mpr (Or.inr ⟨rfl, rfl⟩)⟩
      · exact Or.inl hmem
    · exact Or.inr ⟨j, (hnew j b).mpr (Or.inl hj)⟩
  · rcases (hnew j b).mp hj with hj | ⟨-, rfl⟩
    · exact h.held j b hj
    · exact h.pool b List.mem_cons_self

/-- **Exactly one place**: in the pool once and held by nobody, or held by exactly one. -/
theorem Apart.exactly_one [DecidableEq α] (h : Apart pool holds) (hS : Accounts S pool holds)
    (ha : S a) : (pool.count a = 1 ∧ ∀ i, ¬ holds i a) ∨ (pool.count a = 0 ∧ ∃! i, holds i a) := by
  by_cases hmem : a ∈ pool
  · exact Or.inl ⟨List.count_eq_one_of_mem h.nodup hmem, fun i hi => h.free i a hi hmem⟩
  · obtain ⟨i, hi⟩ := (hS.lost a ha).resolve_left hmem
    exact Or.inr ⟨List.count_eq_zero_of_not_mem hmem, i, hi, fun j hj => h.inj j i a hj hi⟩

end Pool
