import LoofOS.Loop
import LoofOS.Run

/-!
# Forward Simulation

One system is carried out by another one when every step of the first, in related states, is a run
of the second that ends in related states. A run of the first is then a run of the second
(`Run.exec_simulates`), and what holds in the states that the second system reaches can be used for
the first. Loops are compared round by round (`Loop.iter_map`).

## Main results

* `Run.exec_simulates`: the simulation rule for runs.
* `Loop.iter_map`: a loop and its image have the same result.
-/

namespace Run

variable {σ τ α β : Type*} {step : σ → α → Option σ} {step' : τ → β → Option τ} {P : σ → α → Prop}
  {Q : τ → β → Prop} {R : σ → τ → Prop}

/-- The steps of a system that `P` allows are runs of another one, each step of which `Q` allows. -/
def Simulates (step : σ → α → Option σ) (P : σ → α → Prop) (step' : τ → β → Option τ)
    (Q : τ → β → Prop) (R : σ → τ → Prop) : Prop :=
  ∀ s t op s', R s t → P s op → step s op = some s' →
    ∃ ops t', Meets step' Q t ops ∧ exec step' t ops = some t' ∧ R s' t'

/-- A step that the other system does not notice. -/
theorem Simulates.stutter {s' : σ} {t : τ} (h : R s' t) :
    ∃ ops t', Meets step' Q t ops ∧ exec step' t ops = some t' ∧ R s' t' :=
  ⟨[], t, trivial, rfl, h⟩

/-- A step that is one step of the other system. -/
theorem Simulates.single {s' : σ} {t t' : τ} {op : β} (hQ : Q t op) (hstep : step' t op = some t')
    (h : R s' t') : ∃ ops t', Meets step' Q t ops ∧ exec step' t ops = some t' ∧ R s' t' :=
  ⟨[op], t', ⟨hQ, fun _ _ => trivial⟩, by rw [exec_cons hstep, exec_nil], h⟩

/-- **The simulation rule**: runs are simulated when steps are. -/
theorem exec_simulates (hsim : Simulates step P step' Q R) {s s' : σ} {t : τ} {ops : List α}
    (hR : R s t) (hP : Meets step P s ops) (h : exec step s ops = some s') :
    ∃ ops' t', Meets step' Q t ops' ∧ exec step' t ops' = some t' ∧ R s' t' := by
  induction ops generalizing s t with
  | nil =>
      obtain rfl := Option.some.inj h
      exact Simulates.stutter hR
  | cons op ops ih =>
      obtain ⟨u, hu, hrest⟩ := exec_cons_inv h
      obtain ⟨ops₁, t₁, hmeets₁, hexec₁, hR₁⟩ := hsim s t op u hR hP.1 hu
      obtain ⟨ops₂, t₂, hmeets₂, hexec₂, hR₂⟩ := ih hR₁ (hP.2 u hu) hrest
      refine ⟨ops₁ ++ ops₂, t₂, meets_append.mpr ⟨hmeets₁, fun t' ht' => ?_⟩, ?_, hR₂⟩
      · obtain rfl := Option.some.inj (hexec₁.symm.trans ht')
        exact hmeets₂
      · rw [exec_append, hexec₁, Option.bind_some, hexec₂]

end Run

namespace Loop

variable {σ τ ρ ρ' : Type*} {body : σ → σ ⊕ ρ} {body' : τ → τ ⊕ ρ'} {f : σ → τ} {g : ρ → ρ'}
  {I : σ → Prop}

/-- **A loop and its image**: where every round commutes with `f` and `g`, so does the loop. -/
theorem iter_map (hround : ∀ s, I s → body' (f s) = (body s).map f g)
    (hgo : ∀ s s', I s → body s = Sum.inl s' → I s') {s : σ} (hI : I s) (fuel : ℕ) :
    iter body' fuel (f s) = (iter body fuel s).map g := by
  induction fuel generalizing s with
  | zero => rfl
  | succ fuel ih =>
      have hr := hround s hI
      cases hb : body s with
      | inl s' =>
          rw [hb, Sum.map_inl] at hr
          rw [iter_succ_of_inl hb, iter_succ_of_inl hr, ih (hgo s s' hI hb)]
      | inr r =>
          rw [hb, Sum.map_inr] at hr
          rw [iter_succ_of_inr hb, iter_succ_of_inr hr, Option.map_some]

end Loop
