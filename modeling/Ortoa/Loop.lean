/-
# Loops that may not end

A loop whose body either goes on, with a new state, or leaves, with a result,
is run with fuel (`loop`); it returns a result if enough fuel gives it
(`Returns`). The result does not depend on the fuel (`Returns.unique`); a state
in which the body goes on to a state of the same kind is never left
(`not_returns_of_inv`); and what a `while` returns is the first iterate of its
body that fails the test (`returns_whileStep_iff`).

Key definitions: `loop`, `Returns`, `whileStep`, `collectWhile`.
Key theorems: `Returns.unique`, `not_returns_of_inv`, `returns_whileStep_iff`,
`collectWhile_iff`.
-/
import Mathlib.Logic.Function.Iterate
import Mathlib.Data.Nat.Find

namespace Ortoa

variable {σ τ : Type}

/-- A loop: the body gives the next state, or a result and the end. -/
def loop (body : σ → σ ⊕ τ) : ℕ → σ → Option τ
  | 0, _ => none
  | fuel + 1, s =>
    match body s with
    | .inl s' => loop body fuel s'
    | .inr t => some t

/-- The loop ends, with the result `t`. -/
def Returns (body : σ → σ ⊕ τ) (s : σ) (t : τ) : Prop := ∃ fuel, loop body fuel s = some t

section Rules

variable {body : σ → σ ⊕ τ} {s s' : σ} {t t' : τ}

/-- One pass. -/
theorem returns_of_inl (h : body s = .inl s') : Returns body s t ↔ Returns body s' t := by
  constructor
  · rintro ⟨fuel, hfuel⟩
    cases fuel with
    | zero => cases hfuel
    | succ fuel =>
      rw [loop, h] at hfuel
      exact ⟨fuel, hfuel⟩
  · rintro ⟨fuel, hfuel⟩
    refine ⟨fuel + 1, ?_⟩
    rw [loop, h]
    exact hfuel

/-- The last pass. -/
theorem returns_of_inr (h : body s = .inr t') : Returns body s t ↔ t' = t := by
  constructor
  · rintro ⟨fuel, hfuel⟩
    cases fuel with
    | zero => cases hfuel
    | succ fuel =>
      rw [loop, h] at hfuel
      exact Option.some.inj hfuel
  · rintro rfl
    refine ⟨1, ?_⟩
    rw [loop, h]

theorem Returns.unique (h : Returns body s t) (h' : Returns body s t') : t = t' := by
  obtain ⟨fuel, hfuel⟩ := h
  induction fuel generalizing s with
  | zero => cases hfuel
  | succ fuel ih =>
    rw [loop] at hfuel
    cases hbody : body s with
    | inl s1 =>
      rw [hbody] at hfuel
      exact ih ((returns_of_inl hbody).mp h') hfuel
    | inr t1 =>
      rw [hbody] at hfuel
      exact (Option.some.inj hfuel).symm.trans ((returns_of_inr hbody).mp h')

/-- A loop that goes on from `I` to `I` does not end. -/
theorem not_returns_of_inv (I : σ → Prop) (hI : ∀ s, I s → ∃ s', body s = .inl s' ∧ I s') (h : I s) :
    ¬ Returns body s t := by
  rintro ⟨fuel, hfuel⟩
  induction fuel generalizing s with
  | zero => cases hfuel
  | succ fuel ih =>
    obtain ⟨s1, hbody, h1⟩ := hI s h
    rw [loop, hbody] at hfuel
    exact ih h1 hfuel

end Rules

/-! ### `while` -/

section While

variable (p : σ → Prop) [DecidablePred p] (f : σ → σ)

/-- The body of `while p: f`. -/
def whileStep (s : σ) : σ ⊕ σ := if p s then .inl (f s) else .inr s

variable {p f} {s t : σ}

theorem whileStep_true (h : p s) : whileStep p f s = .inl (f s) := if_pos h

theorem whileStep_false (h : ¬ p s) : whileStep p f s = .inr s := if_neg h

/-- A `while` returns the first iterate of its body that fails the test. -/
theorem returns_whileStep_iff : Returns (whileStep p f) s t ↔
    ∃ n, t = f^[n] s ∧ ¬ p t ∧ ∀ m < n, p (f^[m] s) := by
  constructor
  · rintro ⟨fuel, hfuel⟩
    induction fuel generalizing s with
    | zero => cases hfuel
    | succ fuel ih =>
      rw [loop, whileStep] at hfuel
      by_cases hp : p s
      · rw [if_pos hp] at hfuel
        obtain ⟨n, hn, ht, hfirst⟩ := ih hfuel
        refine ⟨n + 1, hn, ht, fun m hm => ?_⟩
        cases m with
        | zero => exact hp
        | succ m => exact hfirst m (by omega)
      · rw [if_neg hp] at hfuel
        have hst : s = t := Option.some.inj hfuel
        exact ⟨0, hst.symm, hst ▸ hp, fun m hm => absurd hm (Nat.not_lt_zero m)⟩
  · rintro ⟨n, rfl, hp, hfirst⟩
    induction n generalizing s with
    | zero => exact (returns_of_inr (whileStep_false hp)).mpr rfl
    | succ n ih =>
      have hs : p s := hfirst 0 (Nat.succ_pos n)
      rw [returns_of_inl (whileStep_true hs)]
      exact ih hp fun m hm => hfirst (m + 1) (by omega)

end While

/-! ### Collecting what a variable goes through -/

section Collect

variable {α : Type} (p : α → Prop) [DecidablePred p] (next : α → α)

/-- `res = []; while p(i): res.append(i); i = next(i)`. -/
def collectWhile (fuel : ℕ) (i : α) : Option (List α) :=
  (loop (whileStep (fun st : List α × α => p st.2) fun st => (st.1 ++ [st.2], next st.2)) fuel ([], i)).map
    (·.1)

variable {p next}

theorem iterate_append (i : α) (n : ℕ) :
    (fun st : List α × α => (st.1 ++ [st.2], next st.2))^[n] ([], i) =
      ((List.range n).map fun k => next^[k] i, next^[n] i) := by
  induction n with
  | zero => rfl
  | succ n ih =>
    rw [Function.iterate_succ_apply', ih, List.range_succ, List.map_append, Function.iterate_succ_apply']
    rfl

/-- What is collected is the orbit up to the first member that fails the test. -/
theorem collectWhile_iff {i : α} {res : List α} : (∃ fuel, collectWhile p next fuel i = some res) ↔
    ∃ n, res = (List.range n).map (fun k => next^[k] i) ∧ ¬ p (next^[n] i) ∧
      ∀ m < n, p (next^[m] i) := by
  constructor
  · rintro ⟨fuel, hfuel⟩
    obtain ⟨st, hst, rfl⟩ := Option.map_eq_some_iff.mp hfuel
    obtain ⟨n, rfl, hlast, hfirst⟩ := returns_whileStep_iff.mp ⟨fuel, hst⟩
    simp only [iterate_append] at hlast hfirst ⊢
    exact ⟨n, rfl, hlast, hfirst⟩
  · rintro ⟨n, rfl, hlast, hfirst⟩
    have hreturns : Returns (whileStep (fun st : List α × α => p st.2)
        fun st => (st.1 ++ [st.2], next st.2)) ([], i)
        ((List.range n).map fun k => next^[k] i, next^[n] i) := by
      refine returns_whileStep_iff.mpr ⟨n, (iterate_append i n).symm, hlast, fun m hm => ?_⟩
      rw [iterate_append]
      exact hfirst m hm
    obtain ⟨fuel, hfuel⟩ := hreturns
    exact ⟨fuel, by rw [collectWhile, hfuel]; rfl⟩

/-- Nothing is returned if no member of the orbit fails the test. -/
theorem collectWhile_eq_none {i : α} (h : ∀ n, p (next^[n] i)) (fuel : ℕ) :
    collectWhile p next fuel i = none := by
  refine Option.eq_none_iff_forall_ne_some.mpr fun res hres => ?_
  obtain ⟨n, -, hlast, -⟩ := collectWhile_iff.mp ⟨fuel, hres⟩
  exact hlast (h n)

end Collect

end Ortoa
