/-
# `parameter.py`: the values of a range

`generate_values` collects `minimum` and what the step makes of it, again and
again, until it exceeds `maximum`. Nothing checks the step or the multiplier,
so the loop need not end, and where it ends it need not have seen every value
that does not exceed `maximum`. It does what a range promises if and only if
the step is positive or nothing is to be generated (`incrementRange_iff`,
`multiplyRange_iff`).

Python's integers have no bound, so they are `ℤ`.

Key definitions: `IntegerIncrementRange.generateValues`,
`IntegerMultiplyRange.generateValues`, `Generates`.
Key theorems: `incrementRange_iff`, `multiplyRange_iff`, `generate_values_iff`.
-/
import Ortoa.Loop
import Mathlib.Algebra.Order.Ring.Int
import Mathlib.Data.Int.ConditionallyCompleteOrder
import Mathlib.Tactic.Linarith
import Mathlib.Tactic.Ring

namespace Ortoa
namespace Bench

structure IntegerIncrementRange where
  minimum : ℤ
  maximum : ℤ
  step : ℤ
  deriving DecidableEq, Repr

structure IntegerMultiplyRange where
  minimum : ℤ
  maximum : ℤ
  multiplier : ℤ
  deriving DecidableEq, Repr

/-- `generate_values` of an increment range. -/
def IntegerIncrementRange.generateValues (r : IntegerIncrementRange) (fuel : ℕ) : Option (List ℤ) :=
  collectWhile (· ≤ r.maximum) (· + r.step) fuel r.minimum

/-- `generate_values` of a multiply range. -/
def IntegerMultiplyRange.generateValues (r : IntegerMultiplyRange) (fuel : ℕ) : Option (List ℤ) :=
  collectWhile (· ≤ r.maximum) (· * r.multiplier) fuel r.minimum

/-- A function that ends with the values of the sequence `v` that do not
exceed `maximum`, in increasing order. -/
def Generates (values : ℕ → Option (List ℤ)) (v : ℕ → ℤ) (maximum : ℤ) : Prop :=
  ∃ res, (∃ fuel, values fuel = some res) ∧ res.Pairwise (· < ·) ∧
    ∀ x, x ∈ res ↔ x ≤ maximum ∧ ∃ k, x = v k

section Orbit

variable {next : ℤ → ℤ} {minimum maximum : ℤ} {v : ℕ → ℤ}

/-- The loop stops at the first value that exceeds `maximum`; it is right if
the values before it increase and none after it is in range. -/
theorem generates_iff (hv : ∀ k, next^[k] minimum = v k) :
    Generates (fun fuel => collectWhile (· ≤ maximum) next fuel minimum) v maximum ↔
      ∃ n, maximum < v n ∧ (∀ m < n, v m ≤ maximum) ∧ ((List.range n).map v).Pairwise (· < ·) ∧
        ∀ k, v k ≤ maximum → ∃ m < n, v m = v k := by
  have hiff : ∀ res, (∃ fuel, collectWhile (· ≤ maximum) next fuel minimum = some res) ↔
      ∃ n, res = (List.range n).map v ∧ maximum < v n ∧ ∀ m < n, v m ≤ maximum := by
    intro res
    rw [collectWhile_iff]
    simp only [hv, not_le]
  have hmem : ∀ n x, x ∈ (List.range n).map v ↔ ∃ m < n, v m = x := by
    intro n x
    simp only [List.mem_map, List.mem_range]
  constructor
  · rintro ⟨res, hres, hinc, hexact⟩
    obtain ⟨n, rfl, hlast, hfirst⟩ := (hiff res).mp hres
    refine ⟨n, hlast, hfirst, hinc, fun k hk => (hmem n _).mp ?_⟩
    exact (hexact (v k)).mpr ⟨hk, k, rfl⟩
  · rintro ⟨n, hlast, hfirst, hinc, hall⟩
    refine ⟨_, (hiff _).mpr ⟨n, rfl, hlast, hfirst⟩, hinc, fun x => ?_⟩
    rw [hmem]
    constructor
    · rintro ⟨m, hm, rfl⟩
      exact ⟨hfirst m hm, m, rfl⟩
    · rintro ⟨hx, k, rfl⟩
      exact hall k hx

/-- A list has no value of a sequence that goes below every bound. -/
theorem not_generates_of_unbounded (hv : ∀ k, next^[k] minimum = v k) (hlow : ∀ B, ∃ k, v k < B) :
    ¬ Generates (fun fuel => collectWhile (· ≤ maximum) next fuel minimum) v maximum := by
  intro h
  obtain ⟨n, -, -, -, hall⟩ := (generates_iff hv).mp h
  obtain ⟨B, hB⟩ : ∃ B, ∀ m < n, B ≤ v m := by
    clear hall
    induction n with
    | zero => exact ⟨0, fun m hm => absurd hm (Nat.not_lt_zero m)⟩
    | succ n ih =>
      obtain ⟨B, hB⟩ := ih
      refine ⟨min B (v n), fun m hm => ?_⟩
      rcases Nat.lt_succ_iff_lt_or_eq.mp hm with hlt | rfl
      · exact (min_le_left _ _).trans (hB m hlt)
      · exact min_le_right _ _
  obtain ⟨k, hk⟩ := hlow (min B maximum)
  obtain ⟨m, hm, heq⟩ := hall k (hk.le.trans (min_le_right _ _))
  have hBm := hB m hm
  have hlt := hk.trans_le (min_le_left B maximum)
  omega

/-- A sequence that increases for good from a value in range is generated. -/
theorem generates_of_strictMono (hv : ∀ k, next^[k] minimum = v k) (hmono : StrictMono v) :
    Generates (fun fuel => collectWhile (· ≤ maximum) next fuel minimum) v maximum := by
  have hgrow : ∀ k : ℕ, v 0 + k ≤ v k := by
    intro k
    induction k with
    | zero => simp
    | succ k ih =>
      have hstep : v k < v (k + 1) := hmono (Nat.lt_succ_self k)
      push_cast
      omega
  have hlast : ∃ n, maximum < v n := by
    refine ⟨(maximum - v 0 + 1).toNat, ?_⟩
    have := hgrow (maximum - v 0 + 1).toNat
    omega
  refine (generates_iff hv).mpr ⟨Nat.find hlast, Nat.find_spec hlast, fun m hm => ?_, ?_, fun k hk => ?_⟩
  · exact not_lt.mp (Nat.find_min hlast hm)
  · rw [List.pairwise_map]
    exact List.pairwise_lt_range.imp fun h => hmono h
  · refine ⟨k, ?_, rfl⟩
    by_contra hge
    have := (Nat.find_spec hlast).trans_le (hmono.monotone (not_lt.mp hge))
    omega

/-- A sequence of two values is generated if and only if the second is out of
range. -/
theorem generates_of_two_values (hv : ∀ k, next^[k] minimum = v k) (htwo : ∀ k, v k = v 0 ∨ v k = v 1) :
    Generates (fun fuel => collectWhile (· ≤ maximum) next fuel minimum) v maximum ↔ maximum < v 1 := by
  rw [generates_iff hv]
  constructor
  · rintro ⟨n, hlast, hfirst, -, hall⟩
    by_contra hle
    obtain ⟨m, hm, -⟩ := hall 1 (not_lt.mp hle)
    have h0 : v 0 ≤ maximum := hfirst 0 (Nat.zero_lt_of_lt hm)
    rcases htwo n with h | h <;> omega
  · intro hlt
    by_cases h0 : v 0 ≤ maximum
    · refine ⟨1, hlt, fun m hm => ?_, by simp, fun k hk => ⟨0, Nat.one_pos, ?_⟩⟩
      · rw [Nat.lt_one_iff.mp hm]
        exact h0
      · rcases htwo k with h | h
        · exact h.symm
        · omega
    · refine ⟨0, not_le.mp h0, by simp, List.Pairwise.nil, fun k hk => ?_⟩
      rcases htwo k with h | h <;> omega

end Orbit

/-! ### The two ranges -/

theorem iterate_add (a step : ℤ) (k : ℕ) : (· + step)^[k] a = a + k * step := by
  rw [add_right_iterate]
  simp

theorem iterate_mul (a multiplier : ℤ) (k : ℕ) : (· * multiplier)^[k] a = a * multiplier ^ k := by
  rw [mul_right_iterate]

/-- An increment range keeps its promise if and only if the step is positive,
or zero with the minimum beyond the maximum. -/
theorem incrementRange_iff (r : IntegerIncrementRange) :
    Generates r.generateValues (fun k => r.minimum + k * r.step) r.maximum ↔
      0 < r.step ∨ r.step = 0 ∧ r.maximum < r.minimum := by
  have hv : ∀ k : ℕ, (· + r.step)^[k] r.minimum = r.minimum + k * r.step := iterate_add _ _
  rcases lt_trichotomy r.step 0 with hneg | hzero | hpos
  · have hnot := @not_generates_of_unbounded _ r.minimum r.maximum _ hv fun B => by
      refine ⟨(r.minimum - B + 1).toNat, ?_⟩
      have hk := Int.self_le_toNat (r.minimum - B + 1)
      nlinarith [Int.natCast_nonneg (r.minimum - B + 1).toNat]
    refine ⟨fun h => absurd h hnot, ?_⟩
    omega
  · have htwo := @generates_of_two_values _ r.minimum r.maximum _ hv fun k => by simp [hzero]
    apply htwo.trans
    rw [hzero]
    simp
  · refine ⟨fun _ => Or.inl hpos, fun _ => generates_of_strictMono hv fun a b hab => ?_⟩
    have hcast : (a : ℤ) < b := by exact_mod_cast hab
    have := mul_lt_mul_of_pos_right hcast hpos
    omega

/-- Powers of a factor above one carry a negative number below every bound. -/
theorem exists_mul_pow_lt {a b : ℤ} (ha : a < 0) (hb : 2 ≤ b) (B : ℤ) : ∃ k : ℕ, a * b ^ k < B := by
  have hgrow : ∀ k : ℕ, (k : ℤ) < b ^ k := by
    intro k
    induction k with
    | zero => simp
    | succ k ih =>
      rw [pow_succ]
      push_cast
      nlinarith
  refine ⟨(1 - B).toNat, ?_⟩
  have h1 := hgrow (1 - B).toNat
  have h2 := Int.self_le_toNat (1 - B)
  nlinarith

/-- The values of a multiply range that keep their size. -/
theorem mul_pow_two_values {a b : ℤ} (h : a = 0 ∨ b = 0 ∨ b = 1 ∨ b = -1) (k : ℕ) :
    a * b ^ k = a * b ^ 0 ∨ a * b ^ k = a * b ^ 1 := by
  rcases h with rfl | rfl | rfl | rfl
  · simp
  · cases k with
    | zero => simp
    | succ k => simp [pow_succ]
  · simp
  · rcases neg_one_pow_eq_or ℤ k with h | h <;> simp [h]

/-- The values of a multiply range that grow beyond every bound downwards. -/
theorem mul_pow_unbounded {a b : ℤ} (h : (2 ≤ b ∧ a < 0) ∨ (b ≤ -2 ∧ a ≠ 0)) (B : ℤ) :
    ∃ k : ℕ, a * b ^ k < B := by
  rcases h with ⟨hb, ha⟩ | ⟨hb, ha⟩
  · exact exists_mul_pow_lt ha hb B
  · -- every other value has the sign of the first, and one of the two signs is negative
    have hsq : 2 ≤ b ^ 2 := by nlinarith
    rcases lt_or_gt_of_ne ha with hneg | hpos
    · obtain ⟨k, hk⟩ := exists_mul_pow_lt hneg hsq B
      exact ⟨2 * k, by rwa [pow_mul]⟩
    · have hneg : a * b < 0 := mul_neg_of_pos_of_neg hpos (by omega)
      obtain ⟨k, hk⟩ := exists_mul_pow_lt hneg hsq B
      refine ⟨2 * k + 1, ?_⟩
      rw [pow_succ, pow_mul]
      linarith

/-- A multiply range keeps its promise if and only if multiplier and minimum
are at least two and one, or the multiplier or the minimum makes the values
repeat and the value that does is out of range. -/
theorem multiplyRange_iff (r : IntegerMultiplyRange) :
    Generates r.generateValues (fun k => r.minimum * r.multiplier ^ k) r.maximum ↔
      (2 ≤ r.multiplier ∧ 1 ≤ r.minimum) ∨ (r.multiplier = 1 ∧ r.maximum < r.minimum) ∨
        (r.multiplier = 0 ∧ r.maximum < 0) ∨ (r.multiplier = -1 ∧ r.maximum < -r.minimum) ∨
        (r.minimum = 0 ∧ r.maximum < 0) := by
  have hv : ∀ k : ℕ, (· * r.multiplier)^[k] r.minimum = r.minimum * r.multiplier ^ k := iterate_mul _ _
  by_cases hsame : r.minimum = 0 ∨ r.multiplier = 0 ∨ r.multiplier = 1 ∨ r.multiplier = -1
  · have htwo := @generates_of_two_values _ r.minimum r.maximum _ hv (mul_pow_two_values hsame)
    apply htwo.trans
    show r.maximum < r.minimum * r.multiplier ^ 1 ↔ _
    rw [pow_one]
    rcases hsame with h | h | h | h
    · have hprod : r.minimum * r.multiplier = 0 := by rw [h, zero_mul]
      omega
    · have hprod : r.minimum * r.multiplier = 0 := by rw [h, mul_zero]
      omega
    · have hprod : r.minimum * r.multiplier = r.minimum := by rw [h, mul_one]
      omega
    · have hprod : r.minimum * r.multiplier = -r.minimum := by rw [h, mul_neg_one]
      omega
  · by_cases hgrow : 2 ≤ r.multiplier ∧ 1 ≤ r.minimum
    · refine ⟨fun _ => Or.inl hgrow, fun _ => generates_of_strictMono hv fun a b hab => ?_⟩
      exact mul_lt_mul_of_pos_left (pow_lt_pow_right₀ (by omega) hab) (by omega)
    · have hnot := @not_generates_of_unbounded _ r.minimum r.maximum _ hv
        (mul_pow_unbounded (by omega))
      refine ⟨fun h => absurd h hnot, ?_⟩
      omega

/-- What the two ranges of an experiment file generate. -/
theorem generate_values_iff (r : IntegerIncrementRange) (r' : IntegerMultiplyRange) :
    (Generates r.generateValues (fun k => r.minimum + k * r.step) r.maximum ↔
      0 < r.step ∨ r.step = 0 ∧ r.maximum < r.minimum) ∧
    (Generates r'.generateValues (fun k => r'.minimum * r'.multiplier ^ k) r'.maximum ↔
      (2 ≤ r'.multiplier ∧ 1 ≤ r'.minimum) ∨ (r'.multiplier = 1 ∧ r'.maximum < r'.minimum) ∨
        (r'.multiplier = 0 ∧ r'.maximum < 0) ∨ (r'.multiplier = -1 ∧ r'.maximum < -r'.minimum) ∨
        (r'.minimum = 0 ∧ r'.maximum < 0)) :=
  ⟨incrementRange_iff r, multiplyRange_iff r'⟩

example : (IntegerMultiplyRange.mk 1 20 3).generateValues 4 = some [1, 3, 9] := by decide

/-- A step of zero never gets past the maximum, nor does doubling zero. -/
theorem zero_step_never_ends :
    (∀ fuel, (IntegerIncrementRange.mk 1 4 0).generateValues fuel = none) ∧
      (∀ fuel, (IntegerMultiplyRange.mk 0 4 2).generateValues fuel = none) ∧
      ¬ ∀ r : IntegerIncrementRange,
        Generates r.generateValues (fun k => r.minimum + k * r.step) r.maximum := by
  have hadd : ∀ fuel, (IntegerIncrementRange.mk 1 4 0).generateValues fuel = none :=
    collectWhile_eq_none fun n => by
      rw [iterate_add]
      norm_num
  have hmul : ∀ fuel, (IntegerMultiplyRange.mk 0 4 2).generateValues fuel = none :=
    collectWhile_eq_none fun n => by
      rw [iterate_mul]
      norm_num
  refine ⟨hadd, hmul, fun h => ?_⟩
  obtain ⟨res, ⟨fuel, hfuel⟩, -⟩ := h ⟨1, 4, 0⟩
  rw [hadd fuel] at hfuel
  cases hfuel

end Bench
end Ortoa
