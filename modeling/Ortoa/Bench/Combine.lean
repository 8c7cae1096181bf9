/-
# `combine`: a work list that is changed in place

`combine` walks its lists with an index and one list `curr`, to which it
appends an element before each recursive call and from which it pops one after
it; at the end of the lists it adds a copy of `curr`. Reading past a list and
popping an empty one are errors, and `pop` takes whatever is last. The calls
give `curr` back as they got it, so that the element popped is the one
appended (`backtrackAt_eq`), and what is collected is the product of the lists
(`combine_isProduct`).

Python's bound on the depth of calls is left out.

Key definitions: `IndexError`, `backtrackAt`.
Key theorems: `backtrackAt_eq`, `choices_isProduct`, `combine_isProduct`.
-/
import Ortoa.Bench.Experiment
import Ortoa.Bytes
import Ortoa.Product
import Mathlib.Algebra.BigOperators.Ring.List

namespace Ortoa
namespace Bench

variable {α : Type}

/-- `IndexError`: "list index out of range" or "pop from empty list". -/
inductive IndexError where
  | outOfRange
  | popFromEmpty
  deriving DecidableEq, Repr

/-- `l[i]` -/
def getItem (l : List α) (i : ℕ) : Except IndexError α :=
  match l[i]? with
  | some x => .ok x
  | none => .error .outOfRange

/-- `l.pop()`: what is left. -/
def pop : List α → Except IndexError (List α)
  | [] => .error .popFromEmpty
  | x :: l => .ok (x :: l).dropLast

/-- One pass of the loop of `backtrack`, around the recursive call. -/
def pass (call : List α × List (List α) → Except IndexError (List α × List (List α))) (l : List α) (i : ℕ) :
    List α × List (List α) → Except IndexError (List α × List (List α))
  | (curr, combinations) => do
    let x ← getItem l i
    let (curr, combinations) ← call (curr ++ [x], combinations)
    let curr ← pop curr
    .ok (curr, combinations)

/-- `backtrack(curr, idx)`, on `curr` and `combinations`; lists are values, so
that `curr[:]` is `curr`. -/
def backtrackAt (lst : List (List α)) (idx : ℕ) : List α × List (List α) →
    Except IndexError (List α × List (List α))
  | (curr, combinations) =>
    if idx = lst.length then .ok (curr, combinations ++ [curr])
    else if h : idx < lst.length then
      forRange 0 lst[idx].length (curr, combinations) (pass (backtrackAt lst (idx + 1)) lst[idx])
    else .error .outOfRange
termination_by lst.length - idx

theorem getItem_of_lt {l : List α} {i : ℕ} (h : i < l.length) : getItem l i = .ok l[i] := by
  unfold getItem
  rw [List.getElem?_eq_getElem h]

theorem pop_concat (l : List α) (x : α) : pop (l ++ [x]) = .ok l := by
  have hlast : (l ++ [x]).dropLast = l := List.dropLast_concat
  cases l with
  | nil => rfl
  | cons y l => exact congrArg Except.ok hlast

/-- The choices when one element more of the first list is counted. -/
theorem choices_take_succ {l : List α} {i : ℕ} (hi : i < l.length) (lst : List (List α)) :
    choices (l.take (i + 1) :: lst) = choices (l.take i :: lst) ++ (choices lst).map (l[i] :: ·) := by
  rw [List.take_succ_eq_append_getElem hi, choices, List.flatMap_append, List.flatMap_singleton]
  rfl

section Loop

variable {call : List α × List (List α) → Except IndexError (List α × List (List α))} {rest : List (List α)}
  {l : List α}

/-- A pass takes one element more, and gives `curr` back. -/
theorem pass_eq (hcall : ∀ s, call s = .ok (backtrack rest s)) {i : ℕ} (hi : i < l.length)
    (s : List α × List (List α)) :
    pass call l i (backtrack (l.take i :: rest) s) = .ok (backtrack (l.take (i + 1) :: rest) s) := by
  obtain ⟨curr, combinations⟩ := s
  rw [backtrack_eq, backtrack_eq, choices_take_succ hi]
  unfold pass
  simp only
  rw [getItem_of_lt hi, bind_of_ok rfl, hcall, bind_of_ok rfl, backtrack_eq]
  simp only
  rw [pop_concat, bind_of_ok rfl]
  simp

/-- The passes over a list do what `backtrack` does with it in front. -/
theorem forRange_pass (hcall : ∀ s, call s = .ok (backtrack rest s)) (s : List α × List (List α)) :
    forRange 0 l.length s (pass call l) = .ok (backtrack (l :: rest) s) := by
  have hloop := forRange_eq (fun i => backtrack (l.take i :: rest) s) (Nat.zero_le l.length)
    fun i _ hi => pass_eq hcall hi s
  rw [List.take_length] at hloop
  exact hloop

end Loop

/-- The calls from an index on do what `backtrack` does with the lists that are
left. -/
theorem backtrackAt_eq (lst : List (List α)) {idx : ℕ} (hidx : idx ≤ lst.length)
    (s : List α × List (List α)) : backtrackAt lst idx s = .ok (backtrack (lst.drop idx) s) := by
  induction hleft : lst.length - idx generalizing idx s with
  | zero =>
    have hend : idx = lst.length := by omega
    rw [backtrackAt, if_pos hend, hend, List.drop_length]
    rfl
  | succ n ih =>
    have hlt : idx < lst.length := by omega
    rw [backtrackAt, if_neg hlt.ne, dif_pos hlt, List.drop_eq_getElem_cons hlt]
    exact forRange_pass (fun s => ih hlt s (by omega)) s

/-- The choices are the product. -/
theorem choices_isProduct : ∀ lst : List (List α), IsProduct lst (choices lst)
  | [] => IsProduct.nil
  | _ :: lst => (choices_isProduct lst).cons

theorem choices_eq_nil_iff {lst : List (List α)} : choices lst = [] ↔ [] ∈ lst := by
  rw [← List.length_eq_zero_iff, choices_length, List.prod_eq_zero_iff]
  simp

/-- **`combine` returns the product of its lists**, and the work list is empty
again. -/
theorem combine_isProduct (lst : List (List α)) :
    backtrackAt lst 0 ([], []) = .ok ([], combine lst) ∧
    (∀ combinations, IsProduct lst combinations ↔ combinations = combine lst) ∧
    (combine lst).length = (lst.map List.length).prod ∧
    combine ([] : List (List α)) = [[]] ∧ (combine lst = [] ↔ [] ∈ lst) := by
  have hproduct := choices_isProduct lst
  rw [combine_eq_choices]
  refine ⟨?_, fun combinations => ⟨fun h => h.unique hproduct, fun h => h ▸ hproduct⟩, choices_length lst, rfl,
    choices_eq_nil_iff⟩
  rw [backtrackAt_eq lst (Nat.zero_le _), List.drop_zero, backtrack_eq]
  simp

example : combine [[1, 2], [3, 4]] = [[1, 3], [1, 4], [2, 3], [2, 4]] := by decide

end Bench
end Ortoa
