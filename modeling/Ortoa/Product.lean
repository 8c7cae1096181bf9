/-
# Products of lists

The product of several lists has one list for each choice of a position in
each of them: the elements there, in order. The choices stand in lexicographic
order, so that an element that a list has twice is chosen twice. There is one
product (`IsProduct.unique`), and it is found from that of all lists but the
first (`IsProduct.cons`).

Key definitions: `Positions`, `Positions.pick`, `IsProduct`.
Key theorems: `IsProduct.unique`, `IsProduct.nil`, `IsProduct.cons`.
-/
import Mathlib.Data.List.FinRange
import Mathlib.Order.Fin.Tuple

namespace Ortoa

variable {α : Type*} {l : List α} {lst : List (List α)}

/-- A position in each of the lists. -/
abbrev Positions (lst : List (List α)) := (k : Fin lst.length) → Fin (lst.get k).length

namespace Positions

/-- The elements at the positions. -/
def pick (p : Positions lst) : List α := List.ofFn fun k => (lst.get k).get (p k)

/-- The lexicographic order. -/
def Before : Positions lst → Positions lst → Prop := Pi.Lex (· < ·) (· < ·)

/-- A position in one more list, in front. -/
def cons (i : Fin l.length) (p : Positions lst) : Positions (l :: lst) :=
  @Fin.cons lst.length (fun k => Fin ((l :: lst).get k).length) i p

theorem exists_cons (q : Positions (l :: lst)) : ∃ i p, q = cons i p :=
  ⟨q 0, fun k => q k.succ, (Fin.cons_self_tail q).symm⟩

theorem pick_cons (i : Fin l.length) (p : Positions lst) : (cons i p).pick = l.get i :: p.pick := by
  unfold pick
  rw [List.ofFn_succ]
  rfl

theorem before_cons_iff {i j : Fin l.length} {p q : Positions lst} :
    (cons i p).Before (cons j q) ↔ i < j ∨ i = j ∧ p.Before q :=
  Fin.pi_lex_lt_cons_cons fun {_} => (· < ·)

theorem Before.asymm {p q : Positions lst} (h : p.Before q) : ¬ q.Before p :=
  lt_asymm (show toLex p < toLex q from h)

end Positions

/-- The product of the lists: what each choice of positions picks, in
lexicographic order. -/
def IsProduct (lst : List (List α)) (combinations : List (List α)) : Prop :=
  ∃ choices : List (Positions lst), choices.Pairwise Positions.Before ∧ (∀ p, p ∈ choices) ∧
    combinations = choices.map Positions.pick

namespace IsProduct

variable {combinations combinations' : List (List α)}

/-- The order determines the choices, and these the product. -/
theorem unique (h : IsProduct lst combinations) (h' : IsProduct lst combinations') :
    combinations = combinations' := by
  obtain ⟨choices, hsorted, hall, rfl⟩ := h
  obtain ⟨choices', hsorted', hall', rfl⟩ := h'
  have hnodup : ∀ cs : List (Positions lst), cs.Pairwise Positions.Before → cs.Nodup := by
    intro cs hcs
    refine hcs.imp fun hlt heq => ?_
    subst heq
    exact hlt.asymm hlt
  have hperm : choices.Perm choices' :=
    (List.perm_ext_iff_of_nodup (hnodup _ hsorted) (hnodup _ hsorted')).mpr fun p => by
      simp only [hall, hall']
  rw [hperm.eq_of_pairwise (fun p q _ _ hpq hqp => absurd hqp hpq.asymm) hsorted hsorted']

/-- There is one way to choose from no lists. -/
theorem nil : IsProduct ([] : List (List α)) [[]] := by
  refine ⟨[fun k => k.elim0], List.pairwise_singleton _ _, fun p => ?_, rfl⟩
  rw [List.mem_singleton]
  funext k
  exact k.elim0

/-- Each element of the first list with the product of the others behind it. -/
theorem cons (h : IsProduct lst combinations) :
    IsProduct (l :: lst) (l.flatMap fun x => combinations.map (x :: ·)) := by
  obtain ⟨choices, hsorted, hall, rfl⟩ := h
  refine ⟨(List.finRange l.length).flatMap fun i => choices.map (Positions.cons i), ?_, fun q => ?_, ?_⟩
  · rw [List.pairwise_flatMap]
    constructor
    · intro i _
      rw [List.pairwise_map]
      exact hsorted.imp fun hlt => Positions.before_cons_iff.mpr (Or.inr ⟨rfl, hlt⟩)
    · refine (List.pairwise_lt_finRange _).imp fun hlt => ?_
      simp only [List.forall_mem_map]
      exact fun p _ q _ => Positions.before_cons_iff.mpr (Or.inl hlt)
  · obtain ⟨i, p, rfl⟩ := q.exists_cons
    exact List.mem_flatMap.mpr ⟨i, List.mem_finRange i, List.mem_map_of_mem (hall p)⟩
  · -- the elements of a list are those at its positions
    conv_lhs => rw [← List.map_get_finRange l]
    rw [List.flatMap_map, List.map_flatMap]
    congr 1
    funext i
    rw [List.map_map, List.map_map]
    apply List.map_congr_left
    intro p _
    exact (Positions.pick_cons i p).symm

end IsProduct

end Ortoa
