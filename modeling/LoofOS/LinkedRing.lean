import LoofOS.Loop
import Mathlib.Data.List.Nodup
import Mathlib.Tactic.Common

/-!
# Doubly Linked Rings

Nodes of a type `α` are linked by two functions `next` and `prev`. `Path next prev a l b`
says that the links lead from `a` through the nodes of `l` to `b`, forwards by `next` and
backwards by `prev`; a ring with head `c` is a path from `c` back to `c` without
repetitions. Nothing is said about the links of nodes outside the ring.

The operations are given by what they do to the single links, so they apply to any
representation of the nodes.

## Main results

* `IsRing.next_mem`, `IsRing.prev_next`, `IsRing.next_prev`: the links of the members.
* `IsRing.rotate`, `IsRing.exists_rotate`: every member can be the head.
* `IsRing.insert`: inserting a node before the head.
* `IsRing.remove`: removing the head.
* `IsRing.iter_advance`: a search into the ring finds the first member it looks for.
* `IsRing.iter_advance_eq_none`: a search for what is not there is never left.
-/

namespace LinkedRing

variable {α : Type*}

/-- The links lead from `a` through `l` to `b` and back. -/
def Path (next prev : α → α) : α → List α → α → Prop
  | a, [], b => next a = b ∧ prev b = a
  | a, x :: l, b => next a = x ∧ prev x = a ∧ Path next prev x l b

/-- The nodes of `c :: l`, all different, are linked in this order into a ring. -/
structure IsRing (next prev : α → α) (c : α) (l : List α) : Prop where
  path : Path next prev c l c
  nodup : (c :: l).Nodup

variable {next prev next' prev' : α → α}

/-! ### Paths -/

theorem path_append {a b x : α} {l m : List α} :
    Path next prev a (l ++ x :: m) b ↔ Path next prev a l x ∧ Path next prev x m b := by
  induction l generalizing a with
  | nil => simp only [List.nil_append, Path, and_assoc]
  | cons y l ih => simp only [List.cons_append, Path, ih, and_assoc]

/-- A path depends on the forward links of all but its last node and on the backward
links of all but its first. -/
theorem Path.congr {a b : α} {l : List α} (h : Path next prev a l b)
    (hnext : ∀ x ∈ a :: l, next' x = next x) (hprev : ∀ x ∈ l ++ [b], prev' x = prev x) :
    Path next' prev' a l b := by
  induction l generalizing a with
  | nil =>
      exact ⟨(hnext a List.mem_cons_self).trans h.1, (hprev b (by simp)).trans h.2⟩
  | cons x l ih =>
      refine ⟨(hnext a List.mem_cons_self).trans h.1, (hprev x (by simp)).trans h.2.1, ?_⟩
      exact ih h.2.2 (fun y hy => hnext y (List.mem_cons_of_mem _ hy))
        fun y hy => hprev y (List.mem_cons_of_mem _ hy)

/-- The forward link of a node of a path goes to a later node, whose backward link comes
back. -/
theorem Path.next_mem {a b x : α} {l : List α} (h : Path next prev a l b)
    (hx : x ∈ a :: l) : next x ∈ l ++ [b] ∧ prev (next x) = x := by
  induction l generalizing a with
  | nil =>
      obtain rfl := List.mem_singleton.mp hx
      exact ⟨by simp [h.1], by rw [h.1, h.2]⟩
  | cons y l ih =>
      rcases List.mem_cons.mp hx with rfl | hx
      · exact ⟨by simp [h.1], by rw [h.1, h.2.1]⟩
      · have := ih h.2.2 hx
        exact ⟨List.mem_cons_of_mem _ this.1, this.2⟩

/-- The backward link of a node of a path goes to an earlier node, whose forward link
comes back. -/
theorem Path.prev_mem {a b x : α} {l : List α} (h : Path next prev a l b)
    (hx : x ∈ l ++ [b]) : prev x ∈ a :: l ∧ next (prev x) = x := by
  induction l generalizing a with
  | nil =>
      obtain rfl := List.mem_singleton.mp hx
      exact ⟨by simp [h.2], by rw [h.2, h.1]⟩
  | cons y l ih =>
      rcases List.mem_cons.mp hx with rfl | hx
      · exact ⟨by simp [h.2.1], by rw [h.2.1, h.1]⟩
      · have := ih h.2.2 hx
        exact ⟨List.mem_cons_of_mem _ this.1, this.2⟩

/-! ### Members of a ring -/

namespace IsRing

variable {c d : α} {l : List α}

theorem mem_iff (x : α) : x ∈ l ++ [c] ↔ x ∈ c :: l := by
  simp only [List.mem_append, List.mem_cons, List.not_mem_nil, or_false]
  exact or_comm

theorem next_mem (h : IsRing next prev c l) {x : α} (hx : x ∈ c :: l) : next x ∈ c :: l :=
  (mem_iff _).mp (h.path.next_mem hx).1

theorem prev_mem (h : IsRing next prev c l) {x : α} (hx : x ∈ c :: l) : prev x ∈ c :: l :=
  (h.path.prev_mem ((mem_iff _).mpr hx)).1

theorem prev_next (h : IsRing next prev c l) {x : α} (hx : x ∈ c :: l) : prev (next x) = x :=
  (h.path.next_mem hx).2

theorem next_prev (h : IsRing next prev c l) {x : α} (hx : x ∈ c :: l) : next (prev x) = x :=
  (h.path.prev_mem ((mem_iff _).mpr hx)).2

/-- A node linked to itself is a ring. -/
theorem singleton (hnext : next c = c) (hprev : prev c = c) : IsRing next prev c [] where
  path := ⟨hnext, hprev⟩
  nodup := List.nodup_singleton c

/-- The head is its own successor in a ring of one node only. -/
theorem next_eq_self_iff (h : IsRing next prev c l) : next c = c ↔ l = [] := by
  constructor
  · intro hself
    cases l with
    | nil => rfl
    | cons d l =>
        have hd : next c = d := h.path.1
        have hne := (List.nodup_cons.mp h.nodup).1
        exact absurd (hself ▸ hd ▸ List.mem_cons_self) hne
  · rintro rfl
    exact h.path.1

/-- A ring is unchanged when the links of its members are. -/
theorem congr (h : IsRing next prev c l) (hnext : ∀ x ∈ c :: l, next' x = next x)
    (hprev : ∀ x ∈ c :: l, prev' x = prev x) : IsRing next' prev' c l where
  path := h.path.congr hnext fun x hx => hprev x ((mem_iff x).mp hx)
  nodup := h.nodup

/-! ### Rotation -/

/-- The second node can be the head. -/
theorem rotate (h : IsRing next prev c (d :: l)) : IsRing next prev d (l ++ [c]) where
  path := path_append.mpr ⟨h.path.2.2, h.path.1, h.path.2.1⟩
  nodup := by
    have hperm : (d :: (l ++ [c])).Perm (c :: d :: l) :=
      (List.perm_append_singleton c (d :: l))
    exact hperm.nodup_iff.mpr h.nodup

/-- **Every cut** of a ring gives a ring. -/
theorem cut {pre post : List α} {x : α} (h : IsRing next prev c l)
    (hcut : c :: l = pre ++ x :: post) : IsRing next prev x (post ++ pre) := by
  cases pre with
  | nil =>
      obtain ⟨rfl, rfl⟩ := List.cons.inj hcut
      rw [List.append_nil]
      exact h
  | cons y pre =>
      obtain ⟨rfl, rfl⟩ := List.cons.inj hcut
      obtain ⟨hpre, hpost⟩ := path_append.mp h.path
      refine ⟨path_append.mpr ⟨hpost, hpre⟩, ?_⟩
      have hperm : (c :: pre ++ x :: post).Perm (x :: post ++ c :: pre) := List.perm_append_comm
      exact hperm.nodup_iff.mp h.nodup

/-- **Every member can be the head.** -/
theorem exists_rotate (h : IsRing next prev c l) {x : α} (hx : x ∈ c :: l) :
    ∃ m, IsRing next prev x m ∧ (x :: m).Perm (c :: l) := by
  obtain ⟨pre, post, hcut⟩ := List.append_of_mem hx
  refine ⟨post ++ pre, h.cut hcut, ?_⟩
  rw [hcut]
  exact (@List.perm_append_comm α pre (x :: post)).symm

/-! ### Insertion and removal -/

/-- **Insertion before the head.** The new node points to the head and to the node that
was before it, these two point to the new node, and no other link changes. -/
theorem insert {p : α} (h : IsRing next prev c l) (hp : p ∉ c :: l) (hpn : next' p = c)
    (hpp : prev' p = prev c) (hcp : prev' c = p) (hln : next' (prev c) = p)
    (hnext : ∀ x, x ≠ p → x ≠ prev c → next' x = next x)
    (hprev : ∀ x, x ≠ p → x ≠ c → prev' x = prev x) : IsRing next' prev' c (l ++ [p]) := by
  -- all links of the old path stay but the one that closes it
  have hopen : ∀ {a : α} {m : List α}, Path next prev a m c → (a :: m).Nodup → p ∉ a :: m →
      c ∉ m → Path next' prev' a m p := by
    intro a m hpath hnodup hpm hcm
    induction m generalizing a with
    | nil =>
        obtain ⟨-, hca⟩ := hpath
        rw [hca] at hln hpp
        exact ⟨hln, hpp⟩
    | cons x m ih =>
        obtain ⟨hax, hxa, hrest⟩ := hpath
        have hlast : prev c ∈ x :: m := (hrest.prev_mem (by simp)).1
        have hne : a ≠ prev c := fun he => (List.nodup_cons.mp hnodup).1 (he ▸ hlast)
        have hap : a ≠ p := fun he => hpm (he ▸ List.mem_cons_self)
        have hxp : x ≠ p := fun he => hpm (he ▸ List.mem_cons_of_mem _ List.mem_cons_self)
        have hxc : x ≠ c := fun he => hcm (he ▸ List.mem_cons_self)
        refine ⟨(hnext a hap hne).trans hax, (hprev x hxp hxc).trans hxa, ?_⟩
        exact ih hrest (List.nodup_cons.mp hnodup).2
          (fun hm => hpm (List.mem_cons_of_mem _ hm)) fun hm => hcm (List.mem_cons_of_mem _ hm)
  refine ⟨path_append.mpr ⟨hopen h.path h.nodup hp (List.nodup_cons.mp h.nodup).1, hpn, hcp⟩, ?_⟩
  have hperm : (c :: (l ++ [p])).Perm (p :: c :: l) := List.perm_append_singleton p (c :: l)
  exact hperm.nodup_iff.mpr (List.nodup_cons.mpr ⟨hp, h.nodup⟩)

/-- **Removal of the head.** Its two neighbours point to each other, and no other link
changes. -/
theorem remove (h : IsRing next prev c (d :: l)) (hln : next' (prev c) = next c)
    (hnp : prev' (next c) = prev c) (hnext : ∀ x, x ≠ prev c → next' x = next x)
    (hprev : ∀ x, x ≠ next c → prev' x = prev x) : IsRing next' prev' d l := by
  obtain ⟨hcd, hdc, hpath⟩ := h.path
  rw [hcd] at hln hnp hprev
  have hnodup := (List.nodup_cons.mp h.nodup).2
  -- all links of the rest of the path stay but the one to the old head
  have hclose : ∀ {a : α} {m : List α}, Path next prev a m c → (a :: m).Nodup → d ∉ m →
      Path next' prev' a m d := by
    intro a m hpath hnodup hdm
    induction m generalizing a with
    | nil =>
        obtain ⟨-, hca⟩ := hpath
        rw [hca] at hln hnp
        exact ⟨hln, hnp⟩
    | cons x m ih =>
        obtain ⟨hax, hxa, hrest⟩ := hpath
        have hlast : prev c ∈ x :: m := (hrest.prev_mem (by simp)).1
        have hne : a ≠ prev c := fun he => (List.nodup_cons.mp hnodup).1 (he ▸ hlast)
        have hxd : x ≠ d := fun he => hdm (he ▸ List.mem_cons_self)
        refine ⟨(hnext a hne).trans hax, (hprev x hxd).trans hxa, ?_⟩
        exact ih hrest (List.nodup_cons.mp hnodup).2 fun hm => hdm (List.mem_cons_of_mem _ hm)
  exact ⟨hclose hpath hnodup (List.nodup_cons.mp hnodup).1, hnodup⟩

end IsRing

/-! ### Searching along the ring -/

/-- One round of `do x = x->next; while (P x)`. -/
def advance (next : α → α) (P : α → Bool) (x : α) : α ⊕ α :=
  if P (next x) then Sum.inl (next x) else Sum.inr (next x)

/-- **A search along a path** ends at the first node that it looks for. -/
theorem Path.iter_advance {P : α → Bool} {a b : α} {l : List α} (h : Path next prev a l b)
    (hex : ∃ y ∈ l ++ [b], P y = false) {fuel : ℕ} (hfuel : l.length < fuel) :
    ∃ pre y post, l ++ [b] = pre ++ y :: post ∧ (∀ z ∈ pre, P z = true) ∧ P y = false ∧
      Loop.iter (advance next P) fuel a = some y := by
  induction l generalizing a fuel with
  | nil =>
      obtain ⟨y, hy, hPy⟩ := hex
      obtain rfl := List.mem_singleton.mp hy
      rw [List.length_nil] at hfuel
      obtain ⟨fuel, rfl⟩ : ∃ k, fuel = k + 1 := ⟨fuel - 1, by omega⟩
      refine ⟨[], y, [], rfl, fun z hz => absurd hz List.not_mem_nil, hPy,
        Loop.iter_succ_of_inr ?_ fuel⟩
      rw [advance, h.1, hPy, if_neg (by simp)]
  | cons x l ih =>
      rw [List.length_cons] at hfuel
      obtain ⟨fuel, rfl⟩ : ∃ k, fuel = k + 1 := ⟨fuel - 1, by omega⟩
      cases hPx : P x with
      | false =>
          refine ⟨[], x, l ++ [b], rfl, fun z hz => absurd hz List.not_mem_nil, hPx,
            Loop.iter_succ_of_inr ?_ fuel⟩
          rw [advance, h.1, hPx, if_neg (by simp)]
      | true =>
          have hround : advance next P a = Sum.inl x := by rw [advance, h.1, hPx, if_pos rfl]
          obtain ⟨y, hy, hPy⟩ := hex
          have hrest : y ∈ l ++ [b] := by
            rcases List.mem_cons.mp hy with rfl | hy
            · rw [hPx] at hPy
              cases hPy
            · exact hy
          have hlt : l.length < fuel := by omega
          obtain ⟨pre, z, post, hcut, hpre, hPz, hiter⟩ := ih h.2.2 ⟨y, hrest, hPy⟩ hlt
          rw [← Loop.iter_succ_of_inl hround] at hiter
          refine ⟨x :: pre, z, post, by rw [List.cons_append, hcut]; rfl, fun w hw => ?_, hPz,
            hiter⟩
          rcases List.mem_cons.mp hw with rfl | hw
          · exact hPx
          · exact hpre w hw

/-- **A search into a ring** ends at the first member that it looks for, if there is one.
The node it starts from need not be a member itself. -/
theorem IsRing.iter_advance {P : α → Bool} {a d : α} {m : List α} (h : IsRing next prev d m)
    (ha : next a = d) (hex : ∃ y ∈ d :: m, P y = false) {fuel : ℕ}
    (hfuel : m.length + 1 < fuel) :
    ∃ pre y post, d :: m = pre ++ y :: post ∧ (∀ z ∈ pre, P z = true) ∧ P y = false ∧
      Loop.iter (advance next P) fuel a = some y := by
  obtain ⟨fuel, rfl⟩ : ∃ k, fuel = k + 1 := ⟨fuel - 1, by omega⟩
  cases hP : P d with
  | false =>
      refine ⟨[], d, m, rfl, fun z hz => absurd hz List.not_mem_nil, hP,
        Loop.iter_succ_of_inr ?_ fuel⟩
      rw [advance, ha, hP, if_neg (by simp)]
  | true =>
      have hround : advance next P a = Sum.inl d := by rw [advance, ha, hP, if_pos rfl]
      obtain ⟨y, hy, hPy⟩ := hex
      obtain ⟨pre, z, post, hcut, hpre, hPz, hiter⟩ := h.path.iter_advance
        ⟨y, (IsRing.mem_iff y).mpr hy, hPy⟩ (show m.length < fuel by omega)
      rw [← Loop.iter_succ_of_inl hround] at hiter
      -- the node found is not the last one of the path, which is the first one of the ring
      rcases List.append_eq_append_iff.mp hcut with ⟨k, rfl, hk⟩ | ⟨k, rfl, hk⟩
      · cases k with
        | nil =>
            obtain rfl := (List.cons.inj hk).1
            rw [hP] at hPz
            cases hPz
        | cons w k => cases k <;> cases hk
      · cases k with
        | nil =>
            obtain rfl := (List.cons.inj hk).1
            rw [hP] at hPz
            cases hPz
        | cons w k =>
            obtain ⟨rfl, -⟩ := List.cons.inj hk
            refine ⟨d :: pre, z, k, rfl, fun w hw => ?_, hPz, hiter⟩
            rcases List.mem_cons.mp hw with rfl | hw
            · exact hP
            · exact hpre w hw

/-- **A search for what no member is** goes on forever. -/
theorem IsRing.iter_advance_eq_none {P : α → Bool} {a c : α} {l : List α}
    (h : IsRing next prev c l) (ha : next a ∈ c :: l) (hall : ∀ y ∈ c :: l, P y = true)
    (fuel : ℕ) : Loop.iter (advance next P) fuel a = none := by
  refine Loop.iter_diverges (I := fun x => next x ∈ c :: l) ?_ ha fuel
  intro x hx
  exact ⟨next x, by rw [advance, if_pos (hall _ hx)], h.next_mem hx⟩

/-- Whatever a search into a ring returns is a member that it looks for. -/
theorem IsRing.mem_of_iter_advance {P : α → Bool} {a c y : α} {l : List α} {fuel : ℕ}
    (h : IsRing next prev c l) (ha : next a ∈ c :: l)
    (hiter : Loop.iter (advance next P) fuel a = some y) : y ∈ c :: l ∧ P y = false := by
  refine Loop.iter_sound (I := fun x => next x ∈ c :: l)
    (Q := fun y => y ∈ c :: l ∧ P y = false) ?_ ?_ ha hiter
  · intro x x' hx hround
    rw [advance] at hround
    split at hround
    · obtain rfl := Sum.inl.inj hround
      exact h.next_mem hx
    · cases hround
  · intro x y hx hround
    rw [advance] at hround
    split at hround
    · cases hround
    · obtain rfl := Sum.inr.inj hround
      exact ⟨hx, Bool.eq_false_iff.mpr ‹_›⟩

end LinkedRing
