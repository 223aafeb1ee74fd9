import Mathlib.Tactic.Common

/-!
# Runs of a Deterministic System

A system is a partial step function `σ → α → Option σ`: from a state and an operation to
the next state, `none` when the operation is not possible there (or does not return).
`exec step s ops` performs a list of operations. A property of every reachable state is a
property of the final state of every run, since the prefixes of a run are runs.

`Meets P` says that each operation of a run is performed in a state in which `P` allows
it, which is how a condition on the single steps is put on a whole run.

## Main results

* `exec_append`: a run is performed in two parts.
* `exec_invariant`: an invariant of the steps holds after every run.
* `exec_invariant_of_meets`: the same when the steps need not keep the invariant in
  general, but do where `P` allows them.
* `Meets.imp_of_invariant`: what an invariant says about single steps holds of every step
  of a run.
-/

namespace Run

variable {σ α : Type*}

/-- The state after a list of operations. -/
def exec (step : σ → α → Option σ) : σ → List α → Option σ
  | s, [] => some s
  | s, op :: ops => (step s op).bind fun s' => exec step s' ops

/-- Every operation of the run is performed in a state in which `P` allows it. -/
def Meets (step : σ → α → Option σ) (P : σ → α → Prop) : σ → List α → Prop
  | _, [] => True
  | s, op :: ops => P s op ∧ ∀ s', step s op = some s' → Meets step P s' ops

variable {step : σ → α → Option σ} {P : σ → α → Prop}

@[simp] theorem exec_nil (s : σ) : exec step s [] = some s := rfl

theorem exec_cons {s s' : σ} {op : α} (h : step s op = some s') (ops : List α) :
    exec step s (op :: ops) = exec step s' ops := by
  simp only [exec, h, Option.bind_some]

/-- The first step of a nonempty run. -/
theorem exec_cons_inv {s t : σ} {op : α} {ops : List α}
    (h : exec step s (op :: ops) = some t) :
    ∃ s', step s op = some s' ∧ exec step s' ops = some t :=
  Option.bind_eq_some_iff.mp h

/-- A run is performed in two parts. -/
theorem exec_append (s : σ) (ops ops' : List α) :
    exec step s (ops ++ ops') = (exec step s ops).bind fun t => exec step t ops' := by
  induction ops generalizing s with
  | nil => rfl
  | cons op ops ih =>
      rw [List.cons_append]
      cases h : step s op with
      | none => simp [exec, h]
      | some s' => rw [exec_cons h, exec_cons h, ih]

/-- A run extended by one operation. -/
theorem exec_concat {s t u : σ} {ops : List α} {op : α} (h : exec step s ops = some t)
    (hstep : step t op = some u) : exec step s (ops ++ [op]) = some u := by
  rw [exec_append, h, Option.bind_some, exec_cons hstep, exec_nil]

/-- **The invariant rule**, for steps allowed by `P`. -/
theorem exec_invariant_of_meets {I : σ → Prop}
    (hstep : ∀ s op s', I s → P s op → step s op = some s' → I s')
    {s t : σ} {ops : List α} (hI : I s) (hP : Meets step P s ops)
    (h : exec step s ops = some t) : I t := by
  induction ops generalizing s with
  | nil =>
      obtain rfl := Option.some.inj h
      exact hI
  | cons op ops ih =>
      obtain ⟨s', hs, hrest⟩ := exec_cons_inv h
      exact ih (hstep s op s' hI hP.1 hs) (hP.2 s' hs) hrest

/-- **The invariant rule.** -/
theorem exec_invariant {I : σ → Prop} (hstep : ∀ s op s', I s → step s op = some s' → I s')
    {s t : σ} {ops : List α} (hI : I s) (h : exec step s ops = some t) : I t := by
  induction ops generalizing s with
  | nil =>
      obtain rfl := Option.some.inj h
      exact hI
  | cons op ops ih =>
      obtain ⟨s', hs, hrest⟩ := exec_cons_inv h
      exact ih (hstep s op s' hI hs) hrest

/-- **The invariant rule for total runs**: if the steps allowed by `P` are possible where
the invariant holds, and keep it, then the whole run is possible. -/
theorem exec_total {I : σ → Prop}
    (hstep : ∀ s op, I s → P s op → ∃ s', step s op = some s' ∧ I s') {s : σ} {ops : List α}
    (hI : I s) (hP : Meets step P s ops) : ∃ t, exec step s ops = some t ∧ I t := by
  induction ops generalizing s with
  | nil => exact ⟨s, rfl, hI⟩
  | cons op ops ih =>
      obtain ⟨s', hs, hI'⟩ := hstep s op hI hP.1
      obtain ⟨t, ht, hIt⟩ := ih hI' (hP.2 s' hs)
      exact ⟨t, by rw [exec_cons hs, ht], hIt⟩

/-- The property holds in every state of the run, the first and the last one included. -/
def Throughout (step : σ → α → Option σ) (I : σ → Prop) : σ → List α → Prop
  | s, [] => I s
  | s, op :: ops => I s ∧ ∀ s', step s op = some s' → Throughout step I s' ops

theorem Throughout.head {I : σ → Prop} {s : σ} {ops : List α} (h : Throughout step I s ops) :
    I s := by
  cases ops with
  | nil => exact h
  | cons op ops => exact h.1

instance Throughout.decidable {I : σ → Prop} [∀ s, Decidable (I s)] :
    ∀ (s : σ) (ops : List α), Decidable (Throughout step I s ops)
  | s, [] => inferInstanceAs (Decidable (I s))
  | s, op :: ops =>
      match h : step s op with
      | none => decidable_of_iff (I s) (by simp [Throughout, h])
      | some s' =>
          have := Throughout.decidable (I := I) s' ops
          decidable_of_iff (I s ∧ Throughout step I s' ops) (by simp [Throughout, h])

/-! ### Conditions on the steps of a run -/

/-- A condition that is decidable on the steps is decidable on a run. -/
instance Meets.decidable [∀ s op, Decidable (P s op)] :
    ∀ (s : σ) (ops : List α), Decidable (Meets step P s ops)
  | _, [] => isTrue trivial
  | s, op :: ops =>
      match h : step s op with
      | none => decidable_of_iff (P s op) ⟨fun hP => ⟨hP, by simp [h]⟩, fun hP => hP.1⟩
      | some s' =>
          have := Meets.decidable s' ops
          decidable_of_iff (P s op ∧ Meets step P s' ops) (by simp [Meets, h])

/-- The condition holds of every step that the run reaches. -/
theorem Meets.of_exec {s t : σ} {ops ops' : List α} {op : α}
    (hP : Meets step P s (ops ++ op :: ops')) (h : exec step s ops = some t) : P t op := by
  induction ops generalizing s with
  | nil =>
      obtain rfl := Option.some.inj h
      exact hP.1
  | cons op' ops ih =>
      obtain ⟨s', hs, hrest⟩ := exec_cons_inv h
      exact ih (hP.2 s' hs) hrest

/-- A condition on a run in two parts. -/
theorem meets_append {s : σ} {ops ops' : List α} :
    Meets step P s (ops ++ ops') ↔
      Meets step P s ops ∧ ∀ t, exec step s ops = some t → Meets step P t ops' := by
  induction ops generalizing s with
  | nil => simp [Meets]
  | cons op ops ih =>
      rw [List.cons_append]
      constructor
      · intro h
        refine ⟨⟨h.1, fun s' hs => (ih.mp (h.2 s' hs)).1⟩, fun t ht => ?_⟩
        obtain ⟨s', hs, hrest⟩ := exec_cons_inv ht
        exact (ih.mp (h.2 s' hs)).2 t hrest
      · rintro ⟨h, hrest⟩
        refine ⟨h.1, fun s' hs => ih.mpr ⟨h.2 s' hs, fun t ht => hrest t ?_⟩⟩
        rw [exec_cons hs, ht]

/-- A condition on the operations alone. -/
theorem Meets.of_forall_mem {ops : List α} (h : ∀ op ∈ ops, ∀ s, P s op) (s : σ) :
    Meets step P s ops := by
  induction ops generalizing s with
  | nil => trivial
  | cons op ops ih =>
      exact ⟨h op List.mem_cons_self s,
        fun s' _ => ih (fun op' hop => h op' (List.mem_cons_of_mem _ hop)) s'⟩

theorem Meets.and {Q : σ → α → Prop} {ops : List α} {s : σ} (hP : Meets step P s ops)
    (hQ : Meets step Q s ops) : Meets step (fun s op => P s op ∧ Q s op) s ops := by
  induction ops generalizing s with
  | nil => trivial
  | cons op ops ih =>
      exact ⟨⟨hP.1, hQ.1⟩, fun s' hs => ih (hP.2 s' hs) (hQ.2 s' hs)⟩

/-- **What an invariant says about the steps**: if the steps allowed by `P` keep the
invariant and have property `Q` in the states where it holds, then every step of a run
allowed by `P` has property `Q`. -/
theorem Meets.imp_of_invariant {I : σ → Prop} {Q : σ → α → Prop}
    (hstep : ∀ s op s', I s → P s op → step s op = some s' → I s')
    (hQ : ∀ s op, I s → P s op → Q s op) {s : σ} {ops : List α} (hI : I s)
    (hP : Meets step P s ops) : Meets step Q s ops := by
  induction ops generalizing s with
  | nil => trivial
  | cons op ops ih =>
      exact ⟨hQ s op hI hP.1, fun s' hs => ih (hstep s op s' hI hP.1 hs) (hP.2 s' hs)⟩

end Run
