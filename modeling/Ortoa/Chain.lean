/-
# Updates in flight

A store is behind whoever sends it updates: what it holds, taken through the
updates that are still in flight, in order, is what the sender has in mind
(`Chain`). A new update goes at the end (`Chain.concat`); the store takes the
first (`Chain.cons`). Where updates of several objects share one list, those
of one object are a filter of it, and the list may be served out of order as
long as each object's own updates are served in order
(`filter_eraseIdx_of_first`, `filter_eraseIdx_of_not`).

Key definitions: `Chain`.
-/
import Mathlib.Data.List.Basic
import Mathlib.Data.Nat.Notation

namespace Ortoa

variable {σ μ : Type}

/-- From `s` the messages lead to `t`, each by a step of `R`. -/
inductive Chain (R : σ → μ → σ → Prop) : σ → List μ → σ → Prop
  | nil (s : σ) : Chain R s [] s
  | cons {s s' t : σ} {m : μ} {ms : List μ} : R s m s' → Chain R s' ms t → Chain R s (m :: ms) t

namespace Chain

variable {R R' : σ → μ → σ → Prop} {s t u : σ} {m : μ} {ms : List μ}

theorem concat (h : Chain R s ms t) (hm : R t m u) : Chain R s (ms ++ [m]) u := by
  induction h with
  | nil s => exact .cons hm (.nil u)
  | cons hs _ ih => exact .cons hs (ih hm)

theorem mono (hR : ∀ s m t, R s m t → R' s m t) (h : Chain R s ms t) : Chain R' s ms t := by
  induction h with
  | nil s => exact .nil s
  | cons hs _ ih => exact .cons (hR _ _ _ hs) ih

theorem eq_of_nil (h : Chain R s [] t) : s = t := by
  cases h
  rfl

end Chain

/-- Serving the first message that satisfies `p`. -/
theorem filter_eraseIdx_of_first {p : μ → Bool} : ∀ {l : List μ} {n : ℕ} {m : μ}, l[n]? = some m →
    p m = true → (∀ j < n, ∀ m', l[j]? = some m' → p m' = false) →
    l.filter p = m :: (l.eraseIdx n).filter p
  | [], _, _, h, _, _ => by cases h
  | x :: l, 0, m, h, hp, _ => by
    rw [List.getElem?_cons_zero, Option.some.injEq] at h
    subst h
    rw [List.filter_cons_of_pos hp, List.eraseIdx_cons_zero]
  | x :: l, n + 1, m, h, hp, hfirst => by
    have hx : p x = false := hfirst 0 (Nat.succ_pos n) x rfl
    rw [List.getElem?_cons_succ] at h
    rw [List.eraseIdx_cons_succ, List.filter_cons_of_neg (by simp [hx]),
      List.filter_cons_of_neg (by simp [hx])]
    exact filter_eraseIdx_of_first h hp fun j hj m' hm' => hfirst (j + 1) (by omega) m' hm'

/-- Serving a message that does not. -/
theorem filter_eraseIdx_of_not {p : μ → Bool} : ∀ {l : List μ} {n : ℕ} {m : μ}, l[n]? = some m →
    p m = false → (l.eraseIdx n).filter p = l.filter p
  | [], _, _, h, _ => by cases h
  | x :: l, 0, m, h, hp => by
    rw [List.getElem?_cons_zero, Option.some.injEq] at h
    subst h
    rw [List.eraseIdx_cons_zero, List.filter_cons_of_neg (by simp [hp])]
  | x :: l, n + 1, m, h, hp => by
    rw [List.getElem?_cons_succ] at h
    rw [List.eraseIdx_cons_succ, List.filter_cons, List.filter_cons, filter_eraseIdx_of_not h hp]

end Ortoa
