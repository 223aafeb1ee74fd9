import Mathlib.Tactic.Common

/-!
# Round Robin

A queue is a list whose head is the member that was served last. The other members are
tried in their order, and then the head, unless it leaves; the first one that is not halted
is served next (`Turn`). New members are put at the end.

`Phase p q` describes such a queue between two turns of `p`: which side of `p` the member
`q` is on tells whether `q` has been served since the first of them. `Waiting p n` describes the
members behind the head when `p` is served within `n` turns.

## Main results

* `Phase.enqueue`: a new member does not matter.
* `Phase.turn`: what one turn does to the phase.
* `Waiting.turn`: a turn brings every member closer that is not halted.
-/

namespace RoundRobin

variable {α : Type*}

/-- The members in the order in which they are tried. -/
def candidates (stays : Bool) : List α → List α
  | [] => []
  | c :: l => if stays then l ++ [c] else l

/-- The first candidate that is not halted becomes the head, and the halted ones before it
go to the end. -/
inductive Turn (halted : α → Prop) : List α → List α → Prop
  | intro (pre : List α) (y : α) (post : List α) (hpre : ∀ z ∈ pre, halted z)
      (hy : ¬ halted y) : Turn halted (pre ++ y :: post) (y :: (post ++ pre))

/-- The queue since `p` was served, with the number of times that `q` was served since. -/
inductive Phase (p q : α) : List α → ℕ → Prop
  | start (l : List α) (hq : q ∈ l) : Phase p q (p :: l) 0
  | before (c : α) (a b : List α) (hq : q ∈ a) : Phase p q (c :: (a ++ p :: b)) 0
  | after (c : α) (a b : List α) (hq : q ∈ c :: b) : Phase p q (c :: (a ++ p :: b)) 1

/-- Where the cut of a list lies relative to a member. -/
theorem append_cons_cases {pre post a r : List α} {y p : α}
    (h : pre ++ y :: post = a ++ p :: r) :
    (∃ m, a = pre ++ y :: m ∧ post = m ++ p :: r) ∨ (pre = a ∧ y = p ∧ post = r) ∨
      ∃ m, pre = a ++ p :: m ∧ r = m ++ y :: post := by
  rcases List.append_eq_append_iff.mp h with ⟨m, rfl, hm⟩ | ⟨m, rfl, hm⟩
  · cases m with
    | nil =>
        obtain ⟨rfl, rfl⟩ := List.cons.inj hm
        exact Or.inr (Or.inl ⟨(List.append_nil pre).symm, rfl, rfl⟩)
    | cons z m =>
        obtain ⟨rfl, rfl⟩ := List.cons.inj hm
        exact Or.inl ⟨m, rfl, rfl⟩
  · cases m with
    | nil =>
        obtain ⟨rfl, rfl⟩ := List.cons.inj hm
        exact Or.inr (Or.inl ⟨List.append_nil a, rfl, rfl⟩)
    | cons z m =>
        obtain ⟨rfl, rfl⟩ := List.cons.inj hm
        exact Or.inr (Or.inr ⟨m, rfl, rfl⟩)

/-- The candidates beyond a member that is not the head. -/
theorem candidates_split (stays : Bool) (c : α) (a b : List α) (p : α) :
    ∃ r, candidates stays (c :: (a ++ p :: b)) = a ++ p :: r := by
  cases stays with
  | false => exact ⟨b, rfl⟩
  | true => exact ⟨b ++ [c], List.append_assoc a (p :: b) [c]⟩

/-- What is on the far side of `p` is not on its near side. -/
theorem not_mem_near {c p q : α} {a b : List α} (h : (c :: (a ++ p :: b)).Nodup)
    (hq : q ∈ c :: p :: b) : q ∉ a := by
  intro hqa
  obtain ⟨hc, hrest⟩ := List.nodup_cons.mp h
  rcases List.mem_cons.mp hq with rfl | hq
  · exact hc (List.mem_append_left _ hqa)
  · exact (List.nodup_append.mp hrest).2.2 q hqa q hq rfl

namespace Phase

variable {p q c : α} {l : List α} {n : ℕ}

/-- **A new member** is put behind all others. -/
theorem enqueue (h : Phase p q (c :: l) n) (x : α) : Phase p q (c :: (l ++ [x])) n := by
  cases h with
  | start l hq => exact start _ (List.mem_append_left _ hq)
  | before c a b hq =>
      rw [List.append_assoc]
      exact before c a (b ++ [x]) hq
  | after c a b hq =>
      rw [List.append_assoc]
      refine after c a (b ++ [x]) ?_
      exact (List.mem_cons.mp hq).elim (fun he => he ▸ List.mem_cons_self)
        fun hb => List.mem_cons_of_mem _ (List.mem_append_left _ hb)

variable {halted : α → Prop} [DecidableEq α]

/-- The next member is found on the near side of `p`, where `q` is waiting. -/
theorem turn_near {pre m b : List α} {y : α} (hpre : ∀ z ∈ pre, halted z) (hrun : ¬ halted q)
    (hq : q ∈ pre ++ y :: m) :
    Phase p q (y :: (m ++ p :: (b ++ pre))) (if y = q then 1 else 0) := by
  rcases List.mem_append.mp hq with hq | hq
  · exact absurd (hpre q hq) hrun
  split
  · subst y
    exact after q m _ List.mem_cons_self
  · exact before y m _ ((List.mem_cons.mp hq).resolve_left (Ne.symm ‹_›))

/-- **One turn**, after which `p` and `q` are still there: it is the turn of `p`, and `q`
was served once; or `p` is halted; or the phase goes on. -/
theorem turn {stays : Bool} {y : α} {m : List α} (h : Phase p q (c :: l) n)
    (hnodup : (c :: l).Nodup) (hturn : Turn halted (candidates stays (c :: l)) (y :: m))
    (hp : p ∈ y :: m) (hq : q ∈ y :: m) (hqp : q ≠ p) (hrun : ¬ halted q) :
    (y = p ∧ n = 1) ∨ (y ≠ p ∧ halted p) ∨
      (y ≠ p ∧ Phase p q (y :: m) (n + if y = q then 1 else 0)) := by
  generalize hcand : candidates stays (c :: l) = xs at hturn
  generalize hys : y :: m = ys at hturn hp hq
  obtain ⟨pre, y', post, hpre, hy⟩ := hturn
  obtain ⟨rfl, rfl⟩ := List.cons.inj hys
  cases h with
  | start l hql =>
      cases stays with
      | false =>
          -- `p` would have left
          have hmem : p ∈ pre ++ y :: post := by
            simp only [List.mem_cons, List.mem_append] at hp ⊢
            tauto
          rw [← hcand] at hmem
          exact absurd hmem (List.nodup_cons.mp hnodup).1
      | true =>
          have hr : l ++ [p] = pre ++ y :: post := hcand
          rcases append_cons_cases hr.symm with ⟨m, rfl, rfl⟩ | ⟨rfl, -, -⟩ | ⟨m, -, hm⟩
          · have hne : y ≠ p := by
              rintro rfl
              exact (List.nodup_cons.mp hnodup).1 (by simp)
            refine Or.inr (Or.inr ⟨hne, ?_⟩)
            rw [Nat.zero_add, List.append_assoc]
            exact turn_near (b := []) hpre hrun hql
          · exact absurd (hpre q hql) hrun
          · cases m <;> cases hm
  | before c a b hqa =>
      obtain ⟨r, hr⟩ := candidates_split stays c a b p
      rcases append_cons_cases (hcand.symm.trans hr) with ⟨m, rfl, rfl⟩ | ⟨rfl, -, -⟩ | ⟨m, rfl, -⟩
      · have hne : y ≠ p := by
          rintro rfl
          exact not_mem_near hnodup (List.mem_cons_of_mem c List.mem_cons_self) (by simp)
        refine Or.inr (Or.inr ⟨hne, ?_⟩)
        rw [Nat.zero_add, List.append_assoc]
        exact turn_near hpre hrun hqa
      · exact absurd (hpre q hqa) hrun
      · have hhalted := hpre p (by simp)
        exact Or.inr (Or.inl ⟨fun he => hy (he ▸ hhalted), hhalted⟩)
  | after c a b hqb =>
      obtain ⟨r, hr⟩ := candidates_split stays c a b p
      rcases append_cons_cases (hcand.symm.trans hr) with ⟨m, rfl, rfl⟩ | ⟨-, rfl, -⟩ | ⟨m, rfl, -⟩
      · have hne : y ≠ p := by
          rintro rfl
          exact not_mem_near hnodup (List.mem_cons_of_mem c List.mem_cons_self) (by simp)
        -- `q` is on the far side of `p`, where it stays
        have hfar : q ∉ pre ++ y :: m := by
          refine not_mem_near hnodup ?_
          exact (List.mem_cons.mp hqb).elim (fun he => he ▸ List.mem_cons_self)
            fun hb => List.mem_cons_of_mem c (List.mem_cons_of_mem p hb)
        have hyq : y ≠ q := by
          rintro rfl
          exact hfar (by simp)
        refine Or.inr (Or.inr ⟨hne, ?_⟩)
        rw [if_neg hyq, Nat.add_zero, List.append_assoc]
        refine after y m (r ++ pre) ?_
        simp only [List.mem_append, List.mem_cons, not_or] at hq hfar ⊢
        tauto
      · exact Or.inl ⟨rfl, rfl⟩
      · have hhalted := hpre p (by simp)
        exact Or.inr (Or.inl ⟨fun he => hy (he ▸ hhalted), hhalted⟩)

end Phase

/-- `p` is among the first `n` members. -/
def Waiting (p : α) (n : ℕ) (l : List α) : Prop := ∃ a b, l = a ++ p :: b ∧ a.length < n

namespace Waiting

variable {halted : α → Prop} {p c y : α} {l m : List α} {n : ℕ} {stays : Bool}

/-- A member of the queue waits for its length at most. -/
theorem of_mem (h : p ∈ l) : Waiting p l.length l := by
  obtain ⟨a, b, rfl⟩ := List.append_of_mem h
  refine ⟨a, b, rfl, ?_⟩
  rw [List.length_append, List.length_cons]
  omega

/-- Who waits is in the queue. -/
theorem mem (h : Waiting p n l) : p ∈ l := by
  obtain ⟨a, b, rfl, -⟩ := h
  exact List.mem_append_right _ List.mem_cons_self

/-- **One turn** serves `p` or brings it closer, unless it is halted. -/
theorem turn (h : Waiting p (n + 1) l) (hturn : Turn halted (candidates stays (c :: l)) (y :: m))
    (hrun : ¬ halted p) : y = p ∨ Waiting p n m := by
  obtain ⟨a, b, rfl, hlt⟩ := h
  obtain ⟨r, hr⟩ := candidates_split stays c a b p
  generalize hcand : candidates stays (c :: (a ++ p :: b)) = xs at hturn
  generalize hys : y :: m = ys at hturn
  obtain ⟨pre, y', post, hpre, -⟩ := hturn
  obtain ⟨rfl, rfl⟩ := List.cons.inj hys
  rcases append_cons_cases (hcand.symm.trans hr) with ⟨m, rfl, rfl⟩ | ⟨-, rfl, -⟩ | ⟨m, rfl, -⟩
  · refine Or.inr ⟨m, r ++ pre, List.append_assoc m (p :: r) pre, ?_⟩
    rw [List.length_append, List.length_cons] at hlt
    omega
  · exact Or.inl rfl
  · exact absurd (hpre p (List.mem_append_right _ List.mem_cons_self)) hrun

end Waiting

end RoundRobin
