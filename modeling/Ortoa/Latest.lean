/-
# The last write to a key

What a key-value store is for: a read of a key returns the value of the last
write to it. `latest` is the map a list of writes makes, oldest first; a
model of a store is compared with it.

Key definitions: `latest`.
Key theorems: `latest_concat`, `latest_append_of_ne`, `latest_eq_some_iff`, `latest_isSome_iff`.
-/
import Mathlib.Data.List.Basic
import Mathlib.Data.List.Induction
import Mathlib.Logic.Function.Basic

namespace Ortoa

variable {κ υ : Type} [DecidableEq κ]

/-- The map after the writes. -/
def latest (writes : List (κ × υ)) : κ → Option υ :=
  writes.foldl (fun m w => Function.update m w.1 (some w.2)) fun _ => none

@[simp] theorem latest_nil (k : κ) : latest ([] : List (κ × υ)) k = none := rfl

theorem latest_concat (ws : List (κ × υ)) (w : κ × υ) :
    latest (ws ++ [w]) = Function.update (latest ws) w.1 (some w.2) := by
  rw [latest, List.foldl_append]
  rfl

@[simp] theorem latest_concat_self (ws : List (κ × υ)) (k : κ) (v : υ) :
    latest (ws ++ [(k, v)]) k = some v := by
  rw [latest_concat, Function.update_self]

theorem latest_concat_ne (ws : List (κ × υ)) {k k' : κ} (v : υ) (h : k' ≠ k) :
    latest (ws ++ [(k, v)]) k' = latest ws k' := by
  rw [latest_concat, Function.update_of_ne h]

/-- It is the value of a write to the key that no later one follows. -/
theorem latest_eq_some_iff {ws : List (κ × υ)} {k : κ} {v : υ} :
    latest ws k = some v ↔ ∃ pre post, ws = pre ++ (k, v) :: post ∧ ∀ w ∈ post, w.1 ≠ k := by
  induction ws using List.reverseRecOn with
  | nil => simp
  | append_singleton ws w ih =>
    obtain ⟨k', v'⟩ := w
    by_cases hk : k = k'
    · subst hk
      rw [latest_concat_self, Option.some.injEq]
      constructor
      · rintro rfl
        exact ⟨ws, [], rfl, by simp⟩
      · rintro ⟨pre, post, hws, hpost⟩
        rcases List.eq_nil_or_concat' post with rfl | ⟨post, w, rfl⟩
        · have := (List.append_inj' hws rfl).2
          simp only [List.cons.injEq, Prod.mk.injEq, true_and, and_true] at this
          exact this
        · rw [← List.cons_append, ← List.append_assoc] at hws
          have := (List.append_inj' hws rfl).2
          simp only [List.cons.injEq, and_true] at this
          exact absurd (by rw [← this]) (hpost w (by simp))
    · rw [latest_concat_ne _ _ hk, ih]
      constructor
      · rintro ⟨pre, post, rfl, hpost⟩
        refine ⟨pre, post ++ [(k', v')], by simp, fun w hw => ?_⟩
        rcases List.mem_append.mp hw with hw | hw
        · exact hpost w hw
        · rw [List.mem_singleton.mp hw]
          exact Ne.symm hk
      · rintro ⟨pre, post, hws, hpost⟩
        rcases List.eq_nil_or_concat' post with rfl | ⟨post, w, rfl⟩
        · have := (List.append_inj' hws rfl).2
          simp only [List.cons.injEq, Prod.mk.injEq, and_true] at this
          exact absurd this.1.symm hk
        · rw [← List.cons_append, ← List.append_assoc] at hws
          have hw := List.append_inj' hws rfl
          exact ⟨pre, post, hw.1, fun w hw' => hpost w (by simp [hw'])⟩

/-- A key has a value if it was written. -/
theorem latest_isSome_iff {ws : List (κ × υ)} {k : κ} :
    (latest ws k).isSome = true ↔ ∃ v, (k, v) ∈ ws := by
  induction ws using List.reverseRecOn with
  | nil => simp
  | append_singleton ws w ih =>
    obtain ⟨k', v'⟩ := w
    by_cases hk : k = k'
    · subst hk
      simp only [latest_concat_self, Option.isSome_some, true_iff]
      exact ⟨v', by simp⟩
    · rw [latest_concat_ne _ _ hk, ih]
      simp [hk]

theorem latest_mem {ws : List (κ × υ)} {k : κ} {v : υ} (h : latest ws k = some v) : (k, v) ∈ ws := by
  obtain ⟨pre, post, rfl, -⟩ := latest_eq_some_iff.mp h
  simp

end Ortoa
