import Mathlib.Tactic.Common

/-!
# Loops as Fuelled Iteration

A `while` loop of an imperative program is a *body* `σ → σ ⊕ ρ`: `Sum.inl s` means the
loop goes round again in state `s`, `Sum.inr r` means it is left with result `r`.
`iter body fuel s` runs at most `fuel` rounds and returns `none` when the loop is still
going. Fuel is scaffolding, not behaviour: a result found at some fuel is the result at
every larger fuel (`iter_mono`), so a loop terminates exactly when some fuel suffices, and it
runs forever exactly when no fuel does.

## Main results

* `iter_mono`, `iter_unique`: the result does not depend on the fuel.
* `iter_sound`: the partial-correctness rule for a loop invariant.
* `iter_total`: the total-correctness rule, an invariant together with a measure.
* `iter_diverges`: the rule for loops that are never left.
* `Visits`: the states in which the body is evaluated, with its invariant rule.
* `exists_visits_of_iter`: the state in which a result is returned.
-/

namespace Loop

variable {σ ρ : Type*}

/-- At most `fuel` rounds of the loop with the given body, `none` if it is still going. -/
def iter (body : σ → σ ⊕ ρ) : ℕ → σ → Option ρ
  | 0, _ => none
  | fuel + 1, s =>
      match body s with
      | Sum.inl s' => iter body fuel s'
      | Sum.inr r => some r

variable {body : σ → σ ⊕ ρ}

/-- A round that goes on hands the remaining fuel to the next state. -/
theorem iter_succ_of_inl {s s' : σ} (h : body s = Sum.inl s') (fuel : ℕ) :
    iter body (fuel + 1) s = iter body fuel s' := by
  simp only [iter, h]

/-- A round that leaves the loop returns its result. -/
theorem iter_succ_of_inr {s : σ} {r : ρ} (h : body s = Sum.inr r) (fuel : ℕ) :
    iter body (fuel + 1) s = some r := by
  simp only [iter, h]

/-- **Fuel monotonicity**: a result is unchanged by more fuel. -/
theorem iter_mono {fuel fuel' : ℕ} {s : σ} {r : ρ} (hle : fuel ≤ fuel')
    (h : iter body fuel s = some r) : iter body fuel' s = some r := by
  induction fuel generalizing fuel' s with
  | zero => simp only [iter, reduceCtorEq] at h
  | succ fuel ih =>
      obtain ⟨fuel', rfl⟩ : ∃ k, fuel' = k + 1 := ⟨fuel' - 1, by omega⟩
      cases hb : body s with
      | inl s' =>
          rw [iter_succ_of_inl hb] at h ⊢
          exact ih (by omega) h
      | inr r' =>
          rw [iter_succ_of_inr hb] at h ⊢
          exact h

/-- **Fuel independence**: two results of one loop are equal. -/
theorem iter_unique {fuel fuel' : ℕ} {s : σ} {r r' : ρ}
    (h : iter body fuel s = some r) (h' : iter body fuel' s = some r') : r = r' := by
  have e : iter body (max fuel fuel') s = some r := iter_mono (Nat.le_max_left _ _) h
  have e' : iter body (max fuel fuel') s = some r' := iter_mono (Nat.le_max_right _ _) h'
  exact Option.some.inj (e.symm.trans e')

/-- **Partial correctness.** An invariant kept by every round that goes on, and strong
enough for the postcondition at every round that leaves, gives the postcondition. -/
theorem iter_sound {I : σ → Prop} {Q : ρ → Prop}
    (hgo : ∀ s s', I s → body s = Sum.inl s' → I s')
    (hret : ∀ s r, I s → body s = Sum.inr r → Q r)
    {fuel : ℕ} {s : σ} {r : ρ} (hI : I s) (h : iter body fuel s = some r) : Q r := by
  induction fuel generalizing s with
  | zero => simp only [iter, reduceCtorEq] at h
  | succ fuel ih =>
      cases hb : body s with
      | inl s' =>
          rw [iter_succ_of_inl hb] at h
          exact ih (hgo s s' hI hb) h
      | inr r' =>
          rw [iter_succ_of_inr hb] at h
          obtain rfl := Option.some.inj h
          exact hret s r' hI hb

/-- **Total correctness.** If moreover every round that goes on decreases a measure, the
loop is left within `μ s + 1` rounds. -/
theorem iter_total {I : σ → Prop} {Q : ρ → Prop} (μ : σ → ℕ)
    (hgo : ∀ s s', I s → body s = Sum.inl s' → I s' ∧ μ s' < μ s)
    (hret : ∀ s r, I s → body s = Sum.inr r → Q r)
    {s : σ} (hI : I s) (fuel : ℕ) (hfuel : μ s < fuel) :
    ∃ r, iter body fuel s = some r ∧ Q r := by
  induction fuel generalizing s with
  | zero => omega
  | succ fuel ih =>
      cases hb : body s with
      | inl s' =>
          obtain ⟨hI', hlt⟩ := hgo s s' hI hb
          rw [iter_succ_of_inl hb]
          exact ih hI' (by omega)
      | inr r => exact ⟨r, iter_succ_of_inr hb fuel, hret s r hI hb⟩

/-- **Divergence.** A set of states that the loop never leaves gives no result at any
fuel. -/
theorem iter_diverges {I : σ → Prop} (hgo : ∀ s, I s → ∃ s', body s = Sum.inl s' ∧ I s')
    {s : σ} (hI : I s) (fuel : ℕ) : iter body fuel s = none := by
  induction fuel generalizing s with
  | zero => rfl
  | succ fuel ih =>
      obtain ⟨s', hb, hI'⟩ := hgo s hI
      rw [iter_succ_of_inl hb]
      exact ih hI'

/-! ### The states a loop goes through -/

/-- The states in which the body is evaluated when the loop is entered at `s`. -/
inductive Visits (body : σ → σ ⊕ ρ) (s : σ) : σ → Prop
  | refl : Visits body s s
  | step {t t' : σ} : Visits body s t → body t = Sum.inl t' → Visits body s t'

/-- An invariant of the rounds that go on holds in every visited state. -/
theorem Visits.invariant {I : σ → Prop} (hgo : ∀ s s', I s → body s = Sum.inl s' → I s')
    {s t : σ} (hI : I s) (h : Visits body s t) : I t := by
  induction h with
  | refl => exact hI
  | step _ hb ih => exact hgo _ _ ih hb

/-- The states visited from a state one round later are visited from the state itself. -/
theorem Visits.head {s s' t : σ} (hb : body s = Sum.inl s') (h : Visits body s' t) :
    Visits body s t := by
  induction h with
  | refl => exact Visits.refl.step hb
  | step _ hb' ih => exact ih.step hb'

/-- From a visited state on, the loop has the result it has from the start. -/
theorem Visits.iter_eq {s t : σ} (h : Visits body s t) {fuel : ℕ} {r : ρ}
    (hr : iter body fuel t = some r) : ∃ fuel', iter body fuel' s = some r := by
  induction h generalizing fuel with
  | refl => exact ⟨fuel, hr⟩
  | step _ hb ih => exact ih (by rw [iter_succ_of_inl hb fuel]; exact hr)

/-- A result is returned in a visited state. -/
theorem exists_visits_of_iter {fuel : ℕ} {s : σ} {r : ρ} (h : iter body fuel s = some r) :
    ∃ t, Visits body s t ∧ body t = Sum.inr r := by
  induction fuel generalizing s with
  | zero => simp only [iter, reduceCtorEq] at h
  | succ fuel ih =>
      cases hb : body s with
      | inl s' =>
          rw [iter_succ_of_inl hb] at h
          obtain ⟨t, hvisits, ht⟩ := ih h
          exact ⟨t, hvisits.head hb, ht⟩
      | inr r' =>
          rw [iter_succ_of_inr hb] at h
          exact ⟨s, Visits.refl, by rw [hb, Option.some.inj h]⟩

end Loop
