/-
# Runs that end

Some actions of a system are its own (`D`), the others come from outside. If
a measure goes down with each of its own actions, then runs of these have a
bounded length, and every state can go on to one in which the system can do
nothing more of its own (`Halted`), whatever is chosen on the way. Threads
that each have so much left to do are measured by a sum (`sum_change`).

Key definitions: `Halted`.
Key theorems: `length_le_measure`, `exists_halted`, `sum_change`.
-/
import Ortoa.Run
import Mathlib.Algebra.BigOperators.Group.Finset.Piecewise
import Mathlib.Algebra.Order.BigOperators.Group.Finset
import Mathlib.Data.Int.ConditionallyCompleteOrder

namespace Ortoa

section Measured

variable {σ α : Type} (next : σ → α → Option σ)

/-- No action of the system's own is enabled. -/
def Halted (D : α → Prop) (s : σ) : Prop := ∀ a, D a → next s a = none

variable {D : α → Prop} {I : σ → Prop} {m : σ → ℕ}

/-- Every own action takes its share of the measure. -/
theorem length_le_measure (hs : ∀ s a s', I s → D a → next s a = some s' → I s' ∧ m s' < m s) :
    ∀ {as : List α} {s s' : σ}, I s → (∀ a ∈ as, D a) → run next s as = some s' →
      I s' ∧ as.length + m s' ≤ m s
  | [], s, s', hI, _, h => by
    simp only [run_nil, Option.some.injEq] at h
    subst h
    exact ⟨hI, by simp⟩
  | a :: as, s, s', hI, hD, h => by
    rw [run_cons, Option.bind_eq_some_iff] at h
    obtain ⟨s1, h1, h2⟩ := h
    obtain ⟨hI1, hlt⟩ := hs s a s1 hI (hD a List.mem_cons_self) h1
    obtain ⟨hI', hle⟩ := length_le_measure hs hI1 (fun b hb => hD b (List.mem_cons_of_mem _ hb)) h2
    refine ⟨hI', ?_⟩
    rw [List.length_cons]
    omega

/-- Some run of own actions ends where none is enabled. -/
theorem exists_halted (hs : ∀ s a s', I s → D a → next s a = some s' → I s' ∧ m s' < m s) {s : σ}
    (hI : I s) : ∃ as s', (∀ a ∈ as, D a) ∧ run next s as = some s' ∧ Halted next D s' := by
  induction hm : m s using Nat.strong_induction_on generalizing s with
  | _ k ih =>
    by_cases hH : Halted next D s
    · exact ⟨[], s, by simp, rfl, hH⟩
    · obtain ⟨a, hD, ha⟩ : ∃ a, D a ∧ next s a ≠ none := by
        simpa [Halted] using hH
      obtain ⟨s1, h1⟩ := Option.ne_none_iff_exists'.mp ha
      obtain ⟨hI1, hlt⟩ := hs s a s1 hI hD h1
      obtain ⟨as, s', hall, hrun, hH'⟩ := ih _ (hm ▸ hlt) hI1 rfl
      refine ⟨a :: as, s', fun b hb => ?_, ?_, hH'⟩
      · rcases List.mem_cons.mp hb with rfl | hb
        · exact hD
        · exact hall b hb
      · rw [run_cons, h1]
        exact hrun

end Measured

/-- One term of a sum changes. -/
theorem sum_change {ι M : Type} [DecidableEq ι] [AddCommMonoid M] {f f' : ι → M} {F : Finset ι} {i : ι}
    (hi : i ∈ F) (h : ∀ j ∈ F, j ≠ i → f' j = f j) : ∑ j ∈ F, f' j + f i = ∑ j ∈ F, f j + f' i := by
  have hothers : ∑ j ∈ F.erase i, f' j = ∑ j ∈ F.erase i, f j :=
    Finset.sum_congr rfl fun j hj => h j (Finset.mem_of_mem_erase hj) (Finset.ne_of_mem_erase hj)
  calc ∑ j ∈ F, f' j + f i = f' i + ∑ j ∈ F.erase i, f j + f i := by
        rw [← Finset.add_sum_erase F f' hi, hothers]
    _ = f i + ∑ j ∈ F.erase i, f j + f' i := by
        rw [add_right_comm, add_comm (f' i), add_right_comm]
    _ = ∑ j ∈ F, f j + f' i := by rw [Finset.add_sum_erase F f hi]

theorem sum_update {ι τ : Type} [DecidableEq ι] (g : τ → ℕ) (f : ι → τ) {F : Finset ι} {i : ι}
    (hi : i ∈ F) (x : τ) :
    ∑ j ∈ F, g (Function.update f i x j) + g (f i) = ∑ j ∈ F, g (f j) + g x := by
  have hchange := @sum_change _ _ _ _ (fun j => g (f j)) (fun j => g (Function.update f i x j)) F i hi
    fun j _ hj => by rw [Function.update_of_ne hj]
  rwa [Function.update_self] at hchange

end Ortoa
