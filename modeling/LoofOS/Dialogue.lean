import LoofOS.Loop

/-!
# Programs That Ask

A program that works with an environment which is not part of it: now and then it asks a
question, and what it does next depends on the answer. `Dialogue Q A α` are the programs with
questions in `Q`, answers in `A` and results in `α`; a program may also stop without a result. An
environment is a function `σ → Q → A × σ` with states of its own, so it may answer the same
question in different ways.

`run env p s` is the record of a run: the questions with their answers, the state in which the
environment is left, and the result. A loop gets a number of rounds, as in `Loop`, and stops when
they are used up.

## Main results

* `run_bind`: the record of one program after another.
* `run_loop_of_inl`, `run_loop_of_inr`: one round of a loop.
* `loop_total`: the total-correctness rule, an invariant together with a measure.
* `Asks.said`: a program whose questions all have a property asks only such ones.
* `Computes.bind`, `computes_loop`: programs whose result does not depend on the state of the
  environment.
-/

/-- A program with questions `Q`, answers `A` and results `α`. -/
inductive Dialogue (Q A α : Type) : Type where
  | ret (a : α)
  | ask (q : Q) (next : A → Dialogue Q A α)
  | stop

namespace Dialogue

variable {Q A α β σ τ ρ : Type}

/-- One program after another. -/
def bind : Dialogue Q A α → (α → Dialogue Q A β) → Dialogue Q A β
  | ret a, f => f a
  | ask q next, f => ask q fun x => (next x).bind f
  | stop, _ => stop

instance : Monad (Dialogue Q A) where
  pure := ret
  bind := bind

@[simp] theorem pure_eq (a : α) : (pure a : Dialogue Q A α) = ret a := rfl

@[simp] theorem bind_eq (p : Dialogue Q A α) (f : α → Dialogue Q A β) : p >>= f = p.bind f := rfl

@[simp] theorem ret_bind (a : α) (f : α → Dialogue Q A β) : (ret a).bind f = f a := rfl

@[simp] theorem ask_bind (q : Q) (next : A → Dialogue Q A α) (f : α → Dialogue Q A β) :
    (ask q next).bind f = ask q fun x => (next x).bind f := rfl

@[simp] theorem stop_bind (f : α → Dialogue Q A β) : (stop : Dialogue Q A α).bind f = stop := rfl

/-- At most `fuel` rounds of the loop with the given body. -/
def loop (body : τ → Dialogue Q A (τ ⊕ ρ)) : ℕ → τ → Dialogue Q A ρ
  | 0, _ => stop
  | fuel + 1, t =>
      (body t).bind fun
        | Sum.inl t' => loop body fuel t'
        | Sum.inr r => ret r

/-! ### Runs -/

/-- What was said in a run, the state in which it left the environment, and its result. -/
structure Record (Q A σ α : Type) where
  said : List (Q × A)
  state : σ
  result : Option α

/-- The record of a run that goes on behind a record with a result. -/
def Record.bind (o : Record Q A σ α) (f : α → σ → Record Q A σ β) : Record Q A σ β :=
  match o.result with
  | none => ⟨o.said, o.state, none⟩
  | some a => { f a o.state with said := o.said ++ (f a o.state).said }

/-- **The run** of a program in an environment. -/
def run (env : σ → Q → A × σ) : Dialogue Q A α → σ → Record Q A σ α
  | ret a, s => ⟨[], s, some a⟩
  | ask q next, s =>
      let o := run env (next (env s q).1) (env s q).2
      { o with said := (q, (env s q).1) :: o.said }
  | stop, s => ⟨[], s, none⟩

variable {env : σ → Q → A × σ} {p : Dialogue Q A α} {s : σ}

@[simp] theorem run_ret (a : α) : (ret a : Dialogue Q A α).run env s = ⟨[], s, some a⟩ := rfl

@[simp] theorem run_stop : (stop : Dialogue Q A α).run env s = ⟨[], s, none⟩ := rfl

@[simp] theorem run_ask (q : Q) (next : A → Dialogue Q A α) :
    (ask q next).run env s
      = { (next (env s q).1).run env (env s q).2 with
          said := (q, (env s q).1) :: ((next (env s q).1).run env (env s q).2).said } := rfl

theorem Record.bind_of_none {o : Record Q A σ α} (h : o.result = none)
    (f : α → σ → Record Q A σ β) : o.bind f = ⟨o.said, o.state, none⟩ := by
  simp only [Record.bind, h]

theorem Record.bind_of_some {o : Record Q A σ α} {a : α} (h : o.result = some a)
    (f : α → σ → Record Q A σ β) :
    o.bind f = { f a o.state with said := o.said ++ (f a o.state).said } := by
  simp only [Record.bind, h]

/-- What was said first stays in front. -/
theorem Record.bind_cons (e : Q × A) (o : Record Q A σ α) (f : α → σ → Record Q A σ β) :
    Record.bind { o with said := e :: o.said } f
      = { o.bind f with said := e :: (o.bind f).said } := by
  cases h : o.result with
  | none => simp only [Record.bind, h]
  | some a => simp only [Record.bind, h, List.cons_append]

/-- **One program after another.** -/
theorem run_bind (p : Dialogue Q A α) (f : α → Dialogue Q A β) (s : σ) :
    (p.bind f).run env s = (p.run env s).bind fun a s => (f a).run env s := by
  induction p generalizing s with
  | ret a => rfl
  | ask q next ih => rw [ask_bind, run_ask, run_ask, ih, Record.bind_cons]
  | stop => rfl

/-- A program after one that has a result. -/
theorem run_bind_of_some {a : α} (h : (p.run env s).result = some a)
    (f : α → Dialogue Q A β) :
    (p.bind f).run env s
      = { (f a).run env (p.run env s).state with
          said := (p.run env s).said ++ ((f a).run env (p.run env s).state).said } := by
  rw [run_bind, Record.bind_of_some h]

/-- Nothing comes after a program without a result. -/
theorem run_bind_of_none (h : (p.run env s).result = none) (f : α → Dialogue Q A β) :
    (p.bind f).run env s = ⟨(p.run env s).said, (p.run env s).state, none⟩ := by
  rw [run_bind, Record.bind_of_none h]

/-! ### Loops -/

section Loops

variable {body : τ → Dialogue Q A (τ ⊕ ρ)} {t t' : τ} {r : ρ}

/-- A round that goes on. -/
theorem run_loop_of_inl (h : ((body t).run env s).result = some (Sum.inl t')) (fuel : ℕ) :
    (loop body (fuel + 1) t).run env s
      = { (loop body fuel t').run env ((body t).run env s).state with
          said := ((body t).run env s).said
            ++ ((loop body fuel t').run env ((body t).run env s).state).said } :=
  run_bind_of_some h _

/-- A round that leaves the loop. -/
theorem run_loop_of_inr (h : ((body t).run env s).result = some (Sum.inr r)) (fuel : ℕ) :
    (loop body (fuel + 1) t).run env s
      = { (body t).run env s with result := some r } := by
  rw [loop, run_bind_of_some h]
  simp only [run_ret, List.append_nil]

/-- **Total correctness.** An invariant of the state of the loop, the state of the environment and
what was said so far, and a measure that every round that goes on decreases. -/
theorem loop_total {I : τ → σ → List (Q × A) → Prop} {R : ρ → σ → List (Q × A) → Prop} (μ : τ → ℕ)
    (hround : ∀ t s h, I t s h →
      (∃ t', ((body t).run env s).result = some (Sum.inl t') ∧ μ t' < μ t ∧
        I t' ((body t).run env s).state (h ++ ((body t).run env s).said)) ∨
      ∃ r, ((body t).run env s).result = some (Sum.inr r) ∧
        R r ((body t).run env s).state (h ++ ((body t).run env s).said))
    {h : List (Q × A)} (hI : I t s h) {fuel : ℕ} (hfuel : μ t < fuel) :
    ∃ r, ((loop body fuel t).run env s).result = some r ∧
      R r ((loop body fuel t).run env s).state (h ++ ((loop body fuel t).run env s).said) := by
  induction fuel generalizing t s h with
  | zero => omega
  | succ fuel ih =>
      rcases hround t s h hI with ⟨t', ht', hlt, hI'⟩ | ⟨r, hr, hR⟩
      · obtain ⟨r, hr, hR⟩ := ih hI' (by omega)
        rw [run_loop_of_inl ht', ← List.append_assoc]
        exact ⟨r, hr, hR⟩
      · rw [run_loop_of_inr hr]
        exact ⟨r, rfl, hR⟩

end Loops

/-! ### What a program asks -/

/-- Every question that the program can ask, whatever the answers are, has the property `P`. -/
def Asks (P : Q → Prop) : Dialogue Q A α → Prop
  | ret _ => True
  | ask q next => P q ∧ ∀ x, Asks P (next x)
  | stop => True

section Asks

variable {P : Q → Prop}

/-- Both parts ask only what is allowed. -/
theorem Asks.bind {f : α → Dialogue Q A β} (hp : p.Asks P) (hf : ∀ a, (f a).Asks P) :
    (p.bind f).Asks P := by
  induction p with
  | ret a => exact hf a
  | ask q next ih => exact ⟨hp.1, fun x => ih x (hp.2 x)⟩
  | stop => trivial

/-- A loop asks what its body asks. -/
theorem asks_loop {body : τ → Dialogue Q A (τ ⊕ ρ)} (hbody : ∀ t, (body t).Asks P) (fuel : ℕ)
    (t : τ) : (loop body fuel t).Asks P := by
  induction fuel generalizing t with
  | zero => trivial
  | succ fuel ih =>
      refine (hbody t).bind fun r => ?_
      cases r with
      | inl t' => exact ih t'
      | inr r => trivial

/-- Only such questions are asked in a run. -/
theorem Asks.said (hp : p.Asks P) : ∀ e ∈ (p.run env s).said, P e.1 := by
  induction p generalizing s with
  | ret a => exact fun e he => absurd he List.not_mem_nil
  | ask q next ih =>
      intro e he
      rcases List.mem_cons.mp he with rfl | he
      · exact hp.1
      · exact ih _ (hp.2 _) e he
  | stop => exact fun e he => absurd he List.not_mem_nil

end Asks

/-! ### Results that do not depend on the state of the environment -/

/-- The program has the result `r` from every state of the environment. -/
def Computes (env : σ → Q → A × σ) (p : Dialogue Q A α) (r : Option α) : Prop :=
  ∀ s, (p.run env s).result = r

theorem computes_ret (a : α) : Computes env (ret a) (some a) := fun _ => rfl

theorem computes_stop : Computes env (stop : Dialogue Q A α) none := fun _ => rfl

/-- The second part goes on from the first one's result. -/
theorem Computes.bind {f : α → Dialogue Q A β} {a : α} {r : Option β}
    (hp : Computes env p (some a)) (hf : Computes env (f a) r) : Computes env (p.bind f) r := by
  intro s
  rw [run_bind_of_some (hp s)]
  exact hf _

/-- A first part without a result gives none. -/
theorem Computes.bind_none {f : α → Dialogue Q A β} (hp : Computes env p none) :
    Computes env (p.bind f) none := by
  intro s
  rw [run_bind_of_none (hp s)]

/-- A function of the result. -/
theorem Computes.map {f : α → β} {r : Option α} (hp : Computes env p r) :
    Computes env (p.bind fun a => ret (f a)) (r.map f) := by
  cases r with
  | none => exact hp.bind_none
  | some a => exact hp.bind (computes_ret _)

/-- What a round of a loop comes to, when the loop can also be left without a result. -/
def outcome : τ ⊕ Option ρ → Option (τ ⊕ ρ)
  | Sum.inl t => some (Sum.inl t)
  | Sum.inr r => r.map Sum.inr

/-- A loop whose rounds do not depend on the state of the environment is a loop without
questions. -/
theorem computes_loop {body : τ → Dialogue Q A (τ ⊕ ρ)} {body' : τ → τ ⊕ Option ρ}
    (hbody : ∀ t, Computes env (body t) (outcome (body' t))) (fuel : ℕ) (t : τ) :
    Computes env (loop body fuel t) (Loop.iter body' fuel t).join := by
  induction fuel generalizing t with
  | zero => exact computes_stop
  | succ fuel ih =>
      intro s
      have hround := hbody t s
      cases hb : body' t with
      | inl t' =>
          rw [hb] at hround
          rw [run_loop_of_inl hround, Loop.iter_succ_of_inl hb]
          exact ih t' _
      | inr r =>
          rw [hb] at hround
          rw [Loop.iter_succ_of_inr hb, Option.join_some]
          cases r with
          | none => rw [loop, run_bind_of_none hround]
          | some r => rw [run_loop_of_inr hround]

end Dialogue
