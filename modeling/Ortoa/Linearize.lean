/-
# Linearizability by linearization points

Calls of an object overlap. They are linearizable if there is one order of
them in which each answers as the sequential object would, and in which a
call that had returned before another was made comes first
(`Linearization`). A proof gives each call a point between its start and its
return at which it takes effect, once; the order is then the one in which a
run passes these points (`linearization_of_points`). Calls that give up take
no part in the order.

Key definitions: `Object`, `Status`, `Linearization`, `PointStep`.
Key theorems: `pointInv_run`, `linearization_of_points`.
-/
import Ortoa.Run
import Mathlib.Data.List.Nodup

namespace Ortoa

/-- A sequential object: operations `ο`, answers `ρ`, states `S`. -/
structure Object (ο ρ S : Type) where
  init : S
  apply : S → ο → S
  answer : S → ο → ρ

/-- Where a call is, as its client sees it. -/
inductive Status (ο ρ : Type)
  | fresh
  | running (x : ο)
  | returned (x : ο) (y : ρ)

variable {σ α ι ο ρ S : Type}

namespace Object

variable (O : Object ο ρ S)

/-- The state after the calls, taken one after the other. -/
def after (h : List (ι × ο × ρ)) : S := h.foldl (fun s e => O.apply s e.2.1) O.init

/-- Each call answers from what the calls before it have made. -/
def Legal (h : List (ι × ο × ρ)) : Prop :=
  ∀ pre e post, h = pre ++ e :: post → e.2.2 = O.answer (O.after pre) e.2.1

@[simp] theorem after_nil : O.after ([] : List (ι × ο × ρ)) = O.init := rfl

theorem after_concat (h : List (ι × ο × ρ)) (e : ι × ο × ρ) :
    O.after (h ++ [e]) = O.apply (O.after h) e.2.1 := by
  rw [after, List.foldl_append]
  rfl

theorem legal_nil : O.Legal ([] : List (ι × ο × ρ)) := fun pre e post h => by simp at h

theorem Legal.concat {O : Object ο ρ S} {h : List (ι × ο × ρ)} {e : ι × ο × ρ} (hl : O.Legal h)
    (he : e.2.2 = O.answer (O.after h) e.2.1) : O.Legal (h ++ [e]) := by
  intro pre e' post heq
  rcases List.eq_nil_or_concat' post with rfl | ⟨post, e'', rfl⟩
  · obtain ⟨rfl, hlast⟩ := List.append_inj' heq rfl
    rw [← List.head_eq_of_cons_eq hlast]
    exact he
  · rw [← List.cons_append, ← List.append_assoc] at heq
    exact hl pre e' post (List.append_inj' heq rfl).1

end Object

/-- `h` is an order of the calls of the run `as` from `s0` to `s`, those in
`xs` aside, that respects real time and is legal. -/
structure Linearization (next : σ → α → Option σ) (status : σ → ι → Status ο ρ)
    (O : Object ο ρ S) (xs : List ι) (s0 : σ) (as : List α) (s : σ) (h : List (ι × ο × ρ)) :
    Prop where
  once : (h.map Prod.fst).Nodup
  called : ∀ i x y, (i, x, y) ∈ h → status s i = .running x ∨ status s i = .returned x y
  complete : ∀ i x y, status s i = .returned x y → i ∈ xs ∨ (i, x, y) ∈ h
  apart : ∀ i x y, (i, x, y) ∈ h → i ∉ xs
  /-- If `i` has returned when `j` has not been called, `i` comes first. -/
  realTime : ∀ as1 as2 s1, as = as1 ++ as2 → run next s0 as1 = some s1 → ∀ i x y j e e',
    status s1 i = .returned x y → status s1 j = .fresh → e ∈ h → e.1 = i → e' ∈ h → e'.1 = j →
      ∃ h1 h2, h = h1 ++ h2 ∧ e ∈ h1 ∧ e' ∈ h2
  legal : O.Legal h

/-! ### Linearization points -/

/-- What a step does to the points that calls have passed: `point s i` is the
operation of call `i` and its answer once it has taken effect, or given up. -/
inductive PointStep (point : σ → ι → Option (ο × ρ)) (s s' : σ) (pts : List (ι × ο × ρ))
    (outs : List ι) : Prop
  | quiet : (∀ j, point s' j = point s j) → pts = [] → outs = [] → PointStep point s s' pts outs
  | pass (i : ι) (x : ο) (y : ρ) : point s i = none → point s' i = some (x, y) →
    (∀ j, j ≠ i → point s' j = point s j) → pts = [(i, x, y)] → outs = [] →
    PointStep point s s' pts outs
  | giveUp (i : ι) (x : ο) (y : ρ) : point s i = none → point s' i = some (x, y) →
    (∀ j, j ≠ i → point s' j = point s j) → pts = [] → outs = [i] → PointStep point s s' pts outs

/-- The calls that have passed their points are those of `h` and those of `xs`. -/
structure PointInv (point : σ → ι → Option (ο × ρ)) (s : σ) (h : List (ι × ο × ρ)) (xs : List ι) :
    Prop where
  once : (h.map Prod.fst).Nodup
  passed : ∀ e ∈ h, point s e.1 = some e.2
  gone : ∀ i ∈ xs, (point s i).isSome = true ∧ ∀ e ∈ h, e.1 ≠ i
  noted : ∀ i e, point s i = some e → i ∈ xs ∨ (i, e) ∈ h

variable {point : σ → ι → Option (ο × ρ)} {s s' : σ} {h pts : List (ι × ο × ρ)} {xs outs : List ι}

theorem pointInv_nil (h0 : ∀ i, point s i = none) : PointInv point s [] [] where
  once := List.nodup_nil
  passed _ he := by cases he
  gone _ hi := by cases hi
  noted i e hi := by rw [h0] at hi; cases hi

theorem PointInv.step (hI : PointInv point s h xs) (hs : PointStep point s s' pts outs) :
    PointInv point s' (h ++ pts) (xs ++ outs) := by
  cases hs with
  | quiet hsame hpts houts =>
    subst hpts houts
    rw [List.append_nil, List.append_nil]
    constructor
    · exact hI.once
    · exact fun e he => (hsame e.1).trans (hI.passed e he)
    · exact fun i hi => ⟨by rw [hsame]; exact (hI.gone i hi).1, (hI.gone i hi).2⟩
    · exact fun i e hi => hI.noted i e ((hsame i).symm.trans hi)
  | pass i x y hnone hsome hother hpts houts =>
    subst hpts houts
    rw [List.append_nil]
    have hne : ∀ e ∈ h, e.1 ≠ i := fun e he hei => by
      have := hI.passed e he
      rw [hei, hnone] at this
      cases this
    constructor
    · rw [List.map_append, List.nodup_append]
      refine ⟨hI.once, List.nodup_singleton _, ?_⟩
      rintro j hj k hk rfl
      obtain ⟨e, he, rfl⟩ := List.mem_map.mp hj
      exact hne e he (by simpa using hk)
    · intro e he
      rcases List.mem_append.mp he with he | he
      · rw [hother e.1 (hne e he)]
        exact hI.passed e he
      · rw [List.mem_singleton.mp he]
        exact hsome
    · intro j hj
      have hji : j ≠ i := by
        rintro rfl
        have := (hI.gone j hj).1
        rw [hnone] at this
        cases this
      refine ⟨by rw [hother j hji]; exact (hI.gone j hj).1, fun e he => ?_⟩
      rcases List.mem_append.mp he with he | he
      · exact (hI.gone j hj).2 e he
      · rw [List.mem_singleton.mp he]
        exact Ne.symm hji
    · intro j e hj
      by_cases hji : j = i
      · rw [hji, hsome, Option.some.injEq] at hj
        rw [hji, ← hj]
        exact Or.inr (List.mem_append_right _ List.mem_cons_self)
      · rw [hother j hji] at hj
        exact (hI.noted j e hj).imp_right fun hm => List.mem_append_left _ hm
  | giveUp i x y hnone hsome hother hpts houts =>
    subst hpts houts
    rw [List.append_nil]
    have hne : ∀ e ∈ h, e.1 ≠ i := fun e he hei => by
      have := hI.passed e he
      rw [hei, hnone] at this
      cases this
    constructor
    · exact hI.once
    · exact fun e he => (hother e.1 (hne e he)).trans (hI.passed e he)
    · intro j hj
      rcases List.mem_append.mp hj with hj' | hj'
      · have hji : j ≠ i := by
          rintro rfl
          have := (hI.gone j hj').1
          rw [hnone] at this
          cases this
        rw [hother j hji]
        exact hI.gone j hj'
      · rw [List.mem_singleton.mp hj']
        exact ⟨by rw [hsome]; rfl, hne⟩
    · intro j e hj
      by_cases hji : j = i
      · rw [hji]
        exact Or.inl (List.mem_append_right _ List.mem_cons_self)
      · rw [hother j hji] at hj
        exact (hI.noted j e hj).imp_left fun hm => List.mem_append_left _ hm

section Runs

variable {next : σ → α → Option σ} {C : σ → α → Prop} {s0 : σ}
  {points : σ → α → List (ι × ο × ρ)} {gaveUp : σ → α → List ι}

theorem pointInv_run (h0 : ∀ i, point s0 i = none)
    (hstep : ∀ as s a s', run next s0 as = some s → Along next C s0 as → C s a →
      next s a = some s' → PointStep point s s' (points s a) (gaveUp s a)) {as : List α} {s : σ}
    (hC : Along next C s0 as) (hrun : run next s0 as = some s) :
    PointInv point s (collect next points s0 as) (collect next gaveUp s0 as) := by
  refine (run_inv next (fun as s => Along next C s0 as ∧
    PointInv point s (collect next points s0 as) (collect next gaveUp s0 as))
    ⟨trivial, pointInv_nil h0⟩ ?_ hC hrun).2
  rintro as s a s' hrun ⟨hC, hI⟩ ha hnext
  refine ⟨(along_append next).mpr ⟨hC, fun t ht => ?_⟩, ?_⟩
  · rw [hrun, Option.some.injEq] at ht
    exact ht ▸ ⟨ha, fun _ _ => trivial⟩
  · rw [collect_concat next points hrun hnext, collect_concat next gaveUp hrun hnext]
    exact hI.step (hstep as s a s' hrun hC ha hnext)

/-- The order in which a run passes the points is a linearization, if the
points lie between the start and the return of their calls (`hfresh`,
`hpassed`, `hreturned`) and the calls answer from what is before them. -/
theorem linearization_of_points {status : σ → ι → Status ο ρ} {O : Object ο ρ S}
    (h0 : ∀ i, point s0 i = none)
    (hstep : ∀ as s a s', run next s0 as = some s → Along next C s0 as → C s a →
      next s a = some s' → PointStep point s s' (points s a) (gaveUp s a))
    (hfresh : ∀ s i, status s i = .fresh → point s i = none)
    (hpassed : ∀ s i x y, point s i = some (x, y) →
      status s i = .running x ∨ status s i = .returned x y)
    (hreturned : ∀ s i x y, status s i = .returned x y → point s i = some (x, y))
    {as : List α} {s : σ} (hC : Along next C s0 as) (hrun : run next s0 as = some s)
    (hlegal : O.Legal (collect next points s0 as)) :
    Linearization next status O (collect next gaveUp s0 as) s0 as s (collect next points s0 as) := by
  have hI := pointInv_run h0 hstep hC hrun
  constructor
  · exact hI.once
  · exact fun i x y he => hpassed s i x y (hI.passed _ he)
  · exact fun i x y hi => hI.noted i (x, y) (hreturned s i x y hi)
  · exact fun i x y he hi => (hI.gone i hi).2 _ he rfl
  · rintro as1 as2 s1 rfl hrun1 i x y j e e' hi hj he rfl he' rfl
    have hI1 := pointInv_run h0 hstep ((along_append next).mp hC).1 hrun1
    have hsplit : collect next points s0 (as1 ++ as2) = _ := collect_append next points hrun1
    have hsplit' : collect next gaveUp s0 (as1 ++ as2) = _ := collect_append next gaveUp hrun1
    refine ⟨_, _, hsplit, ?_, ?_⟩
    · -- `e` has passed by `s1`, and is in the order only once
      rcases hI1.noted e.1 (x, y) (hreturned s1 _ x y hi) with hx | hm
      · exact absurd rfl ((hI.gone e.1 (hsplit' ▸ List.mem_append_left _ hx)).2 e he)
      · have h2 := hI.passed _ (hsplit ▸ List.mem_append_left _ hm)
        rw [hI.passed e he, Option.some.injEq] at h2
        rw [show e = (e.1, (x, y)) from Prod.ext rfl h2]
        exact hm
    · rw [hsplit] at he'
      refine (List.mem_append.mp he').resolve_left fun hm => ?_
      have := hI1.passed e' hm
      rw [hfresh s1 _ hj] at this
      cases this
  · exact hlegal

end Runs

end Ortoa
