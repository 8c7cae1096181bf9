/-
# Rounding to floating point

A binary floating-point number with a significand of `p` bits is an integer of
at most `p` bits times a power of two, and an operation rounds its exact result
to the nearest one, ties to even. The range of the exponent is left out: a
`double` or a `float` holds everything from `2 ^ -126` to `2 ^ 127`.

Integers of at most `p` bits are not changed (`roundBits_natCast`), and rounding
does not cross them (`le_roundBits`).

Key definitions: `roundHalfEven`, `roundBits`, `toDouble`, `toFloat`.
Key theorems: `roundBits_intCast`, `le_abs_roundBits`.
-/
import Mathlib.Data.Int.Log
import Mathlib.Data.Rat.Floor
import Mathlib.Algebra.Order.Field.Power
import Mathlib.Algebra.Order.Floor.Ring
import Mathlib.Tactic.Linarith
import Mathlib.Tactic.FieldSimp

namespace Ortoa

/-! ### The nearest integer -/

/-- The nearest integer; halfway, the even one. -/
def roundHalfEven (q : ℚ) : ℤ :=
  if Int.fract q < 1 / 2 ∨ (Int.fract q = 1 / 2 ∧ Even ⌊q⌋) then ⌊q⌋ else ⌊q⌋ + 1

theorem le_roundHalfEven {n : ℤ} {q : ℚ} (h : (n : ℚ) ≤ q) : n ≤ roundHalfEven q := by
  have hfloor : n ≤ ⌊q⌋ := Int.le_floor.mpr h
  unfold roundHalfEven
  split
  · exact hfloor
  · omega

theorem roundHalfEven_le {n : ℤ} {q : ℚ} (h : q ≤ n) : roundHalfEven q ≤ n := by
  have hfloor : ⌊q⌋ ≤ n := by
    have hle : (⌊q⌋ : ℚ) ≤ n := (Int.floor_le q).trans h
    exact_mod_cast hle
  unfold roundHalfEven
  split
  next => exact hfloor
  next hup =>
    -- rounding up, `q` is not an integer
    have hne : ⌊q⌋ ≠ n := by
      intro hn
      apply hup
      left
      have hfract : Int.fract q ≤ 0 := by
        rw [Int.fract, hn]
        linarith
      linarith
    omega

@[simp] theorem roundHalfEven_intCast (n : ℤ) : roundHalfEven (n : ℚ) = n :=
  le_antisymm (roundHalfEven_le le_rfl) (le_roundHalfEven le_rfl)

@[simp] theorem roundHalfEven_natCast (n : ℕ) : roundHalfEven (n : ℚ) = n := by
  have h := roundHalfEven_intCast n
  rwa [Int.cast_natCast] at h

/-! ### `p` bits -/

/-- A number that is not negative, rounded to `p` bits. -/
def roundNonneg (p : ℕ) (q : ℚ) : ℚ :=
  roundHalfEven (q / 2 ^ (Int.log 2 q - (p - 1))) * 2 ^ (Int.log 2 q - (p - 1))

/-- A number rounded to `p` bits. -/
def roundBits (p : ℕ) (q : ℚ) : ℚ := if 0 ≤ q then roundNonneg p q else -roundNonneg p (-q)

/-- The nearest `double`. -/
def toDouble (q : ℚ) : ℚ := roundBits 53 q

/-- The nearest `float`. -/
def toFloat (q : ℚ) : ℚ := roundBits 24 q

/-- In units that divide 1, a natural number is a natural number. -/
theorem natCast_div_zpow (n : ℕ) {e : ℤ} (he : e ≤ 0) : ∃ m : ℕ, (n : ℚ) / 2 ^ e = m := by
  obtain ⟨j, rfl⟩ : ∃ j : ℕ, e = -j := ⟨(-e).toNat, by omega⟩
  refine ⟨n * 2 ^ j, ?_⟩
  rw [zpow_neg, zpow_natCast, div_inv_eq_mul]
  push_cast
  rfl

theorem roundNonneg_zero (p : ℕ) : roundNonneg p 0 = 0 := by
  have h := roundHalfEven_natCast 0
  rw [Nat.cast_zero] at h
  rw [roundNonneg, zero_div, h, Nat.cast_zero, Int.cast_zero, zero_mul]

theorem roundNonneg_natCast {p n : ℕ} (h : n < 2 ^ p) : roundNonneg p n = n := by
  rcases Nat.eq_zero_or_pos n with rfl | hn
  · exact roundNonneg_zero p
  have hunit : (0 : ℚ) < 2 ^ (Int.log 2 (n : ℚ) - (p - 1)) := zpow_pos (by norm_num) _
  have hexp : Int.log 2 (n : ℚ) - (p - 1) ≤ 0 := by
    have hlog : Nat.log 2 n < p := (Nat.log_lt_iff_lt_pow (by decide) hn.ne').mpr h
    rw [Int.log_natCast]
    omega
  obtain ⟨m, hm⟩ := natCast_div_zpow n hexp
  rw [roundNonneg, hm, roundHalfEven_natCast, Int.cast_natCast, ← hm]
  exact div_mul_cancel₀ _ hunit.ne'

/-- Rounding does not cross a number of at most `p` bits. -/
theorem le_roundNonneg {p k : ℕ} {q : ℚ} (hk0 : 0 < k) (hk : k < 2 ^ p) (h : (k : ℚ) ≤ q) :
    (k : ℚ) ≤ roundNonneg p q := by
  have hunit : (0 : ℚ) < 2 ^ (Int.log 2 q - (p - 1)) := zpow_pos (by norm_num) _
  have hq : 0 < q := lt_of_lt_of_le (by exact_mod_cast hk0) h
  rcases le_or_gt (Int.log 2 q - (p - 1)) 0 with hexp | hexp
  · obtain ⟨m, hm⟩ := natCast_div_zpow k hexp
    have hround : (m : ℤ) ≤ roundHalfEven (q / 2 ^ (Int.log 2 q - (p - 1))) := by
      apply le_roundHalfEven
      rw [Int.cast_natCast, ← hm]
      exact div_le_div_of_nonneg_right h hunit.le
    have hcast : (m : ℚ) ≤ (roundHalfEven (q / 2 ^ (Int.log 2 q - (p - 1))) : ℚ) := by exact_mod_cast hround
    calc (k : ℚ) = m * 2 ^ (Int.log 2 q - (p - 1)) := by rw [← hm, div_mul_cancel₀ _ hunit.ne']
      _ ≤ roundNonneg p q := mul_le_mul_of_nonneg_right hcast hunit.le
  · -- the leading bit alone is worth more than `k`
    have hp : p ≠ 0 := by
      rintro rfl
      omega
    have hlead : (2 : ℚ) ^ Int.log 2 q = 2 ^ (p - 1) * 2 ^ (Int.log 2 q - (p - 1)) := by
      rw [← zpow_natCast, ← zpow_add₀ (by norm_num)]
      congr 1
      omega
    have hround : (2 : ℤ) ^ (p - 1) ≤ roundHalfEven (q / 2 ^ (Int.log 2 q - (p - 1))) := by
      apply le_roundHalfEven
      rw [le_div_iff₀ hunit]
      push_cast
      rw [← hlead]
      exact Int.zpow_log_le_self (by decide) hq
    have hcast : (2 : ℚ) ^ (p - 1) ≤ (roundHalfEven (q / 2 ^ (Int.log 2 q - (p - 1))) : ℚ) := by
      exact_mod_cast hround
    calc (k : ℚ) ≤ 2 ^ (p : ℤ) := by
          rw [zpow_natCast]
          exact_mod_cast hk.le
      _ ≤ 2 ^ Int.log 2 q := zpow_le_zpow_right₀ (by norm_num) (by omega)
      _ = 2 ^ (p - 1) * 2 ^ (Int.log 2 q - (p - 1)) := hlead
      _ ≤ roundNonneg p q := mul_le_mul_of_nonneg_right hcast hunit.le

theorem roundBits_natCast {p n : ℕ} (h : n < 2 ^ p) : roundBits p n = n := by
  rw [roundBits, if_pos (Nat.cast_nonneg n), roundNonneg_natCast h]

/-- A sign is kept. -/
theorem roundBits_neg {p : ℕ} {q : ℚ} : roundBits p (-q) = -roundBits p q := by
  unfold roundBits
  rcases lt_trichotomy q 0 with hq | rfl | hq
  · rw [if_pos (by linarith), if_neg (by linarith), neg_neg]
  · rw [neg_zero, if_pos le_rfl, if_pos le_rfl, roundNonneg_zero, neg_zero]
  · rw [if_neg (by linarith), if_pos hq.le, neg_neg]

theorem roundBits_intCast {p : ℕ} {n : ℤ} (h : n.natAbs < 2 ^ p) : roundBits p n = n := by
  have habs := roundBits_natCast h
  rcases Int.natAbs_eq n with hn | hn
  · rw [hn, Int.cast_natCast, habs]
  · rw [hn, Int.cast_neg, Int.cast_natCast, roundBits_neg, habs]

theorem le_abs_roundBits {p k : ℕ} {q : ℚ} (hk0 : 0 < k) (hk : k < 2 ^ p) (h : (k : ℚ) ≤ |q|) :
    (k : ℚ) ≤ |roundBits p q| := by
  unfold roundBits
  split
  next hq =>
    rw [abs_of_nonneg hq] at h
    exact (le_roundNonneg hk0 hk h).trans (le_abs_self _)
  next hq =>
    rw [abs_of_neg (not_le.mp hq)] at h
    rw [abs_neg]
    exact (le_roundNonneg hk0 hk h).trans (le_abs_self _)

end Ortoa
