/-
# Numbers as text

A C++ stream prints a floating-point number with six significant digits and
without the zeros behind them, and from `10 ^ 6` on with an exponent (the
format `%g`). Python's `float` reads every text that is so printed
(`pyFloat_text`), but `int` reads sign and digits only: a whole number below
`10 ^ 6` comes back as it was (`formatG_intCast`, `pyInt_intToString`), and
nothing from `10 ^ 6` on does (`exponent_mem_formatG`, `pyInt_chars`).

Key definitions: `Numeral`, `formatG`, `pyInt`, `pyFloat`.
Key theorems: `pyInt_intToString`, `pyInt_chars`, `pyFloat_text`, `formatG_intCast`,
`exponent_mem_formatG`.
-/
import Ortoa.Rounding
import Ortoa.Text
import Mathlib.Data.List.DropRight

namespace Ortoa

/-! ### Digits -/

def isDigit (c : UInt8) : Bool := 48 ≤ c ∧ c ≤ 57

theorem isDigit_iff {c : UInt8} : isDigit c = true ↔ 48 ≤ c ∧ c ≤ 57 := by
  unfold isDigit
  exact decide_eq_true_iff

theorem stdToString_isDigit {n : ℕ} {c : UInt8} (h : c ∈ stdToString n) : isDigit c = true :=
  isDigit_iff.mpr (stdToString_digits h)

/-- The last `w` decimal digits of a number. -/
def lastDigits : ℕ → ℕ → Bytes
  | 0, _ => []
  | w + 1, n => lastDigits w (n / 10) ++ [48 + UInt8.ofNat (n % 10)]

theorem digit_isDigit {d : ℕ} (h : d < 10) : isDigit (48 + UInt8.ofNat d) = true := by
  rw [isDigit_iff, UInt8.le_iff_toNat_le, UInt8.le_iff_toNat_le, UInt8.toNat_add, UInt8.toNat_ofNat']
  change 48 ≤ (48 + d % 256) % 256 ∧ (48 + d % 256) % 256 ≤ 57
  omega

theorem lastDigits_isDigit : ∀ (w n : ℕ), ∀ c ∈ lastDigits w n, isDigit c = true
  | 0, _, c, h => absurd h (List.not_mem_nil)
  | w + 1, n, c, h => by
    rcases List.mem_append.mp h with h | h
    · exact lastDigits_isDigit w (n / 10) c h
    · rw [List.mem_singleton.mp h]
      exact digit_isDigit (Nat.mod_lt _ (by decide))

/-- A multiple of `10 ^ w` ends with `w` zeros. -/
theorem lastDigits_mul_pow : ∀ (w n : ℕ), ∀ c ∈ lastDigits w (n * 10 ^ w), c = 48
  | 0, _, c, h => absurd h (List.not_mem_nil)
  | w + 1, n, c, h => by
    have hdiv : n * 10 ^ (w + 1) / 10 = n * 10 ^ w := by
      rw [pow_succ, ← mul_assoc, Nat.mul_div_cancel _ (by decide)]
    have hmod : n * 10 ^ (w + 1) % 10 = 0 := by
      rw [pow_succ, ← mul_assoc, Nat.mul_mod_left]
    unfold lastDigits at h
    rw [hdiv, hmod] at h
    rcases List.mem_append.mp h with h | h
    · exact lastDigits_mul_pow w n c h
    · exact List.mem_singleton.mp h

/-! ### Numerals -/

/-- A decimal numeral: digits, perhaps more digits behind a point, perhaps an
exponent. -/
structure Numeral where
  negative : Bool
  whole : Bytes
  fraction : Bytes
  exponent : Option ℤ
  whole_ne_nil : whole ≠ []
  whole_isDigit : ∀ c ∈ whole, isDigit c = true
  fraction_isDigit : ∀ c ∈ fraction, isDigit c = true

/-- An exponent is written with its sign and at least two digits. -/
def exponentText (e : ℤ) : Bytes :=
  (if e < 0 then 45 else 43) ::
    if e.natAbs < 10 then 48 :: stdToString e.natAbs else stdToString e.natAbs

namespace Numeral

variable (n : Numeral)

def signText : Bytes := if n.negative then [45] else []

def fractionText : Bytes := if n.fraction = [] then [] else 46 :: n.fraction

def exponentText : Bytes :=
  match n.exponent with
  | none => []
  | some e => 101 :: Ortoa.exponentText e

/-- The numeral as it is written. -/
def text : Bytes := n.signText ++ (n.whole ++ (n.fractionText ++ n.exponentText))

/-- The number that the numeral stands for. -/
def value : ℚ :=
  (if n.negative then -1 else 1) *
    (digitsValue (n.whole ++ n.fraction) * 10 ^ (n.exponent.getD 0 - n.fraction.length))

end Numeral

/-! ### Python's `int` and `float` -/

/-- The text without the white space at both ends. -/
def strip (s : Bytes) : Bytes := (s.dropWhile isSpace).rdropWhile isSpace

/-- Each underscore stands between two digits; `prev` is what was read last. -/
def underscoresOk (prev : UInt8) : Bytes → Bool
  | [] => prev ≠ 95
  | c :: s => (if c = 95 then isDigit prev else prev ≠ 95 || isDigit c) && underscoresOk c s

/-- Underscores between digits are left out, others are an error. -/
def dropUnderscores (s : Bytes) : Option Bytes :=
  if underscoresOk 0 s then some (s.filter (· ≠ 95)) else none

/-- A sign, if there is one, and what is behind it. -/
def readSign : Bytes → Bool × Bytes
  | [] => (false, [])
  | c :: s => if c = 45 then (true, s) else if c = 43 then (false, s) else (false, c :: s)

/-- The digits in front, and what is behind them. -/
def readDigits (s : Bytes) : Bytes × Bytes := (s.takeWhile isDigit, s.dropWhile isDigit)

/-- A sign and digits, up to the end. -/
def readInt (s : Bytes) : Option ℤ :=
  let (negative, digits) := readSign s
  if digits ≠ [] ∧ digits.all isDigit then
    some ((if negative then -1 else 1) * digitsValue digits)
  else none

/-- The digits behind a point, if there is one. -/
def readFraction : Bytes → Bytes × Bytes
  | [] => ([], [])
  | c :: s => if c = 46 then readDigits s else ([], c :: s)

/-- An exponent, or the end. -/
def readExponent : Bytes → Option ℤ
  | [] => some 0
  | c :: s => if c = 101 ∨ c = 69 then readInt s else none

def readFloat (s : Bytes) : Option ℚ :=
  let (negative, s) := readSign s
  let (whole, s) := readDigits s
  let (fraction, s) := readFraction s
  if whole = [] ∧ fraction = [] then none
  else
    (readExponent s).map fun e : ℤ =>
      (if negative then -1 else 1) * (digitsValue (whole ++ fraction) * 10 ^ (e - fraction.length))

/-- `int(text)`. -/
def pyInt (text : Bytes) : Option ℤ := (dropUnderscores (strip text)).bind readInt

/-- `float(text)`, of a finite number. -/
def pyFloat (text : Bytes) : Option ℚ := ((dropUnderscores (strip text)).bind readFloat).map toDouble

/-! ### What is read -/

theorem strip_append {w space : Bytes} (hw : ∀ c ∈ w, isSpace c = false)
    (hspace : ∀ c ∈ space, isSpace c = true) : strip (w ++ space) = w := by
  unfold strip
  cases w with
  | nil =>
    rw [List.nil_append, List.dropWhile_eq_nil_iff.mpr hspace]
    exact List.rdropWhile_nil _
  | cons c w =>
    have hc : ¬ isSpace c = true := by simp [hw c List.mem_cons_self]
    rw [List.cons_append, List.dropWhile_cons_of_neg hc, ← List.cons_append, List.rdropWhile,
      List.reverse_append, List.dropWhile_append_of_pos (by simpa using hspace)]
    have hlast : (c :: w).reverse.dropWhile isSpace = (c :: w).reverse := by
      apply List.dropWhile_eq_self_iff.mpr
      intro hpos
      have hmem : (c :: w).reverse[0] ∈ c :: w := List.mem_reverse.mp (List.getElem_mem hpos)
      rw [hw _ hmem]
      exact Bool.false_ne_true
    rw [hlast, List.reverse_reverse]

theorem underscoresOk_of_not_mem : ∀ {s : Bytes} {prev : UInt8}, prev ≠ 95 → 95 ∉ s →
    underscoresOk prev s = true
  | [], prev, hprev, _ => by simp [underscoresOk, hprev]
  | c :: s, prev, hprev, hs => by
    have hc : c ≠ 95 := fun hc => hs (hc ▸ List.mem_cons_self)
    have hrest := underscoresOk_of_not_mem hc fun h => hs (List.mem_cons_of_mem _ h)
    simp [underscoresOk, hc, hprev, hrest]

theorem dropUnderscores_of_not_mem {s : Bytes} (h : 95 ∉ s) : dropUnderscores s = some s := by
  unfold dropUnderscores
  rw [if_pos (underscoresOk_of_not_mem (by decide) h)]
  congr 1
  apply List.filter_eq_self.mpr
  intro c hc
  simpa using fun hc95 : c = 95 => h (hc95 ▸ hc)

/-- The characters of numerals. -/
def IsNumeralChar (c : UInt8) : Prop := isDigit c = true ∨ c = 43 ∨ c = 45 ∨ c = 46 ∨ c = 101

theorem IsNumeralChar.not_isSpace {c : UInt8} (h : IsNumeralChar c) : isSpace c = false := by
  unfold IsNumeralChar at h
  rw [isDigit_iff] at h
  unfold isSpace
  simp only [UInt8.le_iff_toNat_le, ← UInt8.toNat_inj] at h ⊢
  change (48 ≤ c.toNat ∧ c.toNat ≤ 57) ∨ c.toNat = 43 ∨ c.toNat = 45 ∨ c.toNat = 46 ∨ c.toNat = 101 at h
  change decide (c.toNat = 32 ∨ 9 ≤ c.toNat ∧ c.toNat ≤ 13) = false
  apply decide_eq_false
  omega

theorem not_isNumeralChar_of {c : UInt8} (h : c = 95 ∨ c = 44 ∨ c = newline) : ¬ IsNumeralChar c := by
  unfold IsNumeralChar
  rcases h with rfl | rfl | rfl <;> decide

/-- A text of such characters reaches `readInt` or `readFloat` as it is, whatever
white space is behind it. -/
theorem clean_append {w space : Bytes} (hw : ∀ c ∈ w, IsNumeralChar c)
    (hspace : ∀ c ∈ space, isSpace c = true) : dropUnderscores (strip (w ++ space)) = some w := by
  rw [strip_append (fun c hc => (hw c hc).not_isSpace) hspace]
  exact dropUnderscores_of_not_mem fun h => not_isNumeralChar_of (Or.inl rfl) (hw 95 h)

theorem readSign_of_isDigit {c : UInt8} (hc : isDigit c = true) (s : Bytes) :
    readSign (c :: s) = (false, c :: s) := by
  have hminus : c ≠ 45 := by
    rintro rfl
    exact absurd hc (by decide)
  have hplus : c ≠ 43 := by
    rintro rfl
    exact absurd hc (by decide)
  rw [readSign, if_neg hminus, if_neg hplus]

/-- In front of a digit, a minus sign or nothing. -/
theorem readSign_append {negative : Bool} {s : Bytes} (hne : s ≠ [])
    (hs : ∀ c, s.head? = some c → isDigit c = true) :
    readSign ((if negative then [45] else []) ++ s) = (negative, s) := by
  cases negative with
  | true => rfl
  | false =>
    cases s with
    | nil => exact absurd rfl hne
    | cons c s => exact readSign_of_isDigit (hs c rfl) s

theorem readDigits_append {w rest : Bytes} (hw : ∀ c ∈ w, isDigit c = true)
    (hrest : ∀ c, rest.head? = some c → isDigit c = false) : readDigits (w ++ rest) = (w, rest) := by
  obtain ⟨htake, hdrop⟩ := span_append hw hrest
  rw [readDigits, htake, hdrop]

/-- Sign and digits are the number that they stand for. -/
theorem readInt_digits {negative : Bool} {digits : Bytes} (hne : digits ≠ [])
    (hdigits : ∀ c ∈ digits, isDigit c = true) : readInt ((if negative then [45] else []) ++ digits) =
      some ((if negative then -1 else 1) * digitsValue digits : ℤ) := by
  have hsign := @readSign_append negative digits hne fun c hc => hdigits c (List.mem_of_head? hc)
  simp only [readInt, hsign]
  rw [if_pos ⟨hne, List.all_eq_true.mpr hdigits⟩]

theorem readInt_intToString (n : ℤ) : readInt (intToString n) = some n := by
  cases n with
  | ofNat n =>
    have h := @readInt_digits false _ (stdToString_ne_nil n) fun c hc => stdToString_isDigit hc
    rw [digitsValue_stdToString] at h
    exact h.trans (by simp)
  | negSucc n =>
    have h := @readInt_digits true _ (stdToString_ne_nil (n + 1)) fun c hc => stdToString_isDigit hc
    rw [digitsValue_stdToString] at h
    exact h.trans (by simp [Int.negSucc_eq])

theorem intToString_isNumeralChar {n : ℤ} {c : UInt8} (h : c ∈ intToString n) : IsNumeralChar c := by
  rcases intToString_digits h with h | h
  · exact Or.inr (Or.inr (Or.inl h))
  · exact Or.inl (isDigit_iff.mpr h)

theorem pyInt_intToString (n : ℤ) {space : Bytes} (hspace : ∀ c ∈ space, isSpace c = true) :
    pyInt (intToString n ++ space) = some n := by
  rw [pyInt, clean_append (fun c hc => intToString_isNumeralChar hc) hspace]
  exact readInt_intToString n

theorem mem_dropWhile_isSpace {s : Bytes} {c : UInt8} (hc : isSpace c = false) (h : c ∈ s) :
    c ∈ s.dropWhile isSpace := by
  rw [← List.takeWhile_append_dropWhile (p := isSpace) (l := s)] at h
  rcases List.mem_append.mp h with h | h
  · have hspace := List.mem_takeWhile_imp h
    rw [hc] at hspace
    cases hspace
  · exact h

theorem mem_strip {s : Bytes} {c : UInt8} (hc : isSpace c = false) (h : c ∈ s) : c ∈ strip s := by
  apply List.mem_reverse.mpr
  apply mem_dropWhile_isSpace hc
  exact List.mem_reverse.mpr (mem_dropWhile_isSpace hc h)

theorem mem_dropUnderscores {s t : Bytes} (h : dropUnderscores s = some t) {c : UInt8} (hc : c ≠ 95)
    (hmem : c ∈ s) : c ∈ t := by
  unfold dropUnderscores at h
  split at h
  next =>
    cases h
    exact List.mem_filter.mpr ⟨hmem, by simpa using hc⟩
  next => cases h

theorem mem_readSign {s : Bytes} {c : UInt8} (h : c ∈ s) : c = 45 ∨ c = 43 ∨ c ∈ (readSign s).2 := by
  cases s with
  | nil => cases h
  | cons d s =>
    rw [readSign]
    split
    next hd =>
      rw [hd] at h
      exact (List.mem_cons.mp h).imp_right Or.inr
    next =>
      split
      next hd =>
        rw [hd] at h
        exact Or.inr (List.mem_cons.mp h)
      next => exact Or.inr (Or.inr h)

theorem readInt_chars {s : Bytes} {n : ℤ} (h : readInt s = some n) {c : UInt8} (hc : c ∈ s) :
    c = 45 ∨ c = 43 ∨ isDigit c = true := by
  refine (mem_readSign hc).imp_right (Or.imp_right fun hdigit => ?_)
  by_cases hok : (readSign s).2 ≠ [] ∧ (readSign s).2.all isDigit = true
  · exact List.all_eq_true.mp hok.2 c hdigit
  · have hnone : readInt s = none := if_neg hok
    rw [hnone] at h
    cases h

/-- `int` takes no other characters. -/
theorem pyInt_chars {s : Bytes} {n : ℤ} (h : pyInt s = some n) {c : UInt8} (hc : c ∈ s) :
    isSpace c = true ∨ c = 95 ∨ c = 45 ∨ c = 43 ∨ isDigit c = true := by
  obtain ⟨t, hclean, hread⟩ := Option.bind_eq_some_iff.mp h
  cases hspace : isSpace c with
  | true => exact Or.inl rfl
  | false =>
    right
    by_cases hunderscore : c = 95
    · exact Or.inl hunderscore
    · right
      exact readInt_chars hread (mem_dropUnderscores hclean hunderscore (mem_strip hspace hc))

/-! ### Numerals are read -/

theorem head?_isDigit {w : Bytes} (hne : w ≠ []) (hw : ∀ c ∈ w, isDigit c = true) (rest : Bytes) (c : UInt8)
    (h : (w ++ rest).head? = some c) : isDigit c = true := by
  cases w with
  | nil => exact absurd rfl hne
  | cons d w =>
    cases h
    exact hw c List.mem_cons_self

theorem exponentText_eq (e : ℤ) : ∃ digits, exponentText e = (if e < 0 then 45 else 43) :: digits ∧
    digits ≠ [] ∧ (∀ c ∈ digits, isDigit c = true) ∧ digitsValue digits = e.natAbs := by
  refine ⟨_, rfl, ?_⟩
  split
  · refine ⟨List.cons_ne_nil _ _, fun c hc => ?_, ?_⟩
    · rcases List.mem_cons.mp hc with rfl | hc
      · rfl
      · exact stdToString_isDigit hc
    · -- the leading zero adds nothing
      change digitsValue (stdToString e.natAbs) = e.natAbs
      exact digitsValue_stdToString _
  · exact ⟨stdToString_ne_nil _, fun c hc => stdToString_isDigit hc, digitsValue_stdToString _⟩

/-- An exponent is read back. -/
theorem readInt_exponentText (e : ℤ) : readInt (exponentText e) = some e := by
  obtain ⟨digits, htext, hne, hdigits, hvalue⟩ := exponentText_eq e
  have hok : digits ≠ [] ∧ digits.all isDigit = true := ⟨hne, List.all_eq_true.mpr hdigits⟩
  rw [htext]
  by_cases he : e < 0
  · rw [if_pos he]
    simp only [readInt, readSign, if_true, if_pos hok, hvalue]
    congr 1
    omega
  · rw [if_neg he]
    have hsign : readSign (43 :: digits) = (false, digits) := rfl
    simp only [readInt, hsign, if_pos hok, hvalue]
    congr 1
    simp only [Bool.false_eq_true, if_false]
    omega

namespace Numeral

variable (n : Numeral)

theorem readExponent_exponentText : readExponent n.exponentText = some (n.exponent.getD 0) := by
  unfold Numeral.exponentText
  cases n.exponent with
  | none => rfl
  | some e => exact readInt_exponentText e

theorem exponentText_head? (c : UInt8) (h : n.exponentText.head? = some c) : c = 101 := by
  unfold Numeral.exponentText at h
  cases hexp : n.exponent with
  | none =>
    rw [hexp] at h
    cases h
  | some e =>
    rw [hexp] at h
    exact (Option.some.inj h).symm

theorem exponentText_not_isDigit (c : UInt8) (h : n.exponentText.head? = some c) : isDigit c = false := by
  rw [n.exponentText_head? c h]
  rfl

theorem readFraction_append : readFraction (n.fractionText ++ n.exponentText) =
    (n.fraction, n.exponentText) := by
  unfold fractionText
  split
  next hnil =>
    rw [hnil, List.nil_append]
    cases hexp : n.exponentText with
    | nil => rfl
    | cons c s =>
      have hc : c = 101 := n.exponentText_head? c (by rw [hexp]; rfl)
      rw [readFraction, hc]
      rfl
  next =>
    exact readDigits_append n.fraction_isDigit n.exponentText_not_isDigit

theorem fractionText_not_isDigit (c : UInt8) (h : (n.fractionText ++ n.exponentText).head? = some c) :
    isDigit c = false := by
  unfold fractionText at h
  split at h
  · exact n.exponentText_not_isDigit c h
  · cases h
    rfl

/-- A numeral is read as the number that it stands for. -/
theorem readFloat_text : readFloat n.text = some n.value := by
  have hsign : readSign n.text = (n.negative, n.whole ++ (n.fractionText ++ n.exponentText)) := by
    apply readSign_append (fun h => n.whole_ne_nil (List.append_eq_nil_iff.mp h).1)
    exact head?_isDigit n.whole_ne_nil n.whole_isDigit _
  have hwhole := readDigits_append n.whole_isDigit n.fractionText_not_isDigit
  have hne : ¬ (n.whole = [] ∧ n.fraction = []) := fun h => n.whole_ne_nil h.1
  simp only [readFloat, hsign, hwhole, n.readFraction_append, if_neg hne, n.readExponent_exponentText]
  rfl

theorem text_isNumeralChar {c : UInt8} (h : c ∈ n.text) : IsNumeralChar c := by
  unfold text at h
  rcases List.mem_append.mp h with h | h
  · unfold signText at h
    split at h
    · rw [List.mem_singleton.mp h]
      exact Or.inr (Or.inr (Or.inl rfl))
    · cases h
  rcases List.mem_append.mp h with h | h
  · exact Or.inl (n.whole_isDigit c h)
  rcases List.mem_append.mp h with h | h
  · unfold fractionText at h
    split at h
    · cases h
    · rcases List.mem_cons.mp h with rfl | h
      · exact Or.inr (Or.inr (Or.inr (Or.inl rfl)))
      · exact Or.inl (n.fraction_isDigit c h)
  · unfold Numeral.exponentText at h
    split at h
    · cases h
    next e _ =>
      obtain ⟨digits, htext, -, hdigits, -⟩ := exponentText_eq e
      rw [htext] at h
      rcases List.mem_cons.mp h with rfl | h
      · exact Or.inr (Or.inr (Or.inr (Or.inr rfl)))
      rcases List.mem_cons.mp h with rfl | h
      · split
        · exact Or.inr (Or.inr (Or.inl rfl))
        · exact Or.inr (Or.inl rfl)
      · exact Or.inl (hdigits c h)

/-- `float` reads a numeral, with white space behind it. -/
theorem pyFloat_text {space : Bytes} (hspace : ∀ c ∈ space, isSpace c = true) :
    pyFloat (n.text ++ space) = some (toDouble n.value) := by
  rw [pyFloat, clean_append (fun c hc => n.text_isNumeralChar hc) hspace, Option.bind_some, n.readFloat_text]
  rfl

end Numeral

/-! ### What a stream prints -/

/-- The digits of `m`, of which the last `d` are behind the point. -/
def decimal (negative : Bool) (m d : ℕ) (exponent : Option ℤ) : Numeral where
  negative := negative
  whole := stdToString (m / 10 ^ d)
  fraction := (lastDigits d m).rdropWhile (· = 48)
  exponent := exponent
  whole_ne_nil := stdToString_ne_nil _
  whole_isDigit _ h := stdToString_isDigit h
  fraction_isDigit c h := lastDigits_isDigit d m c ((List.rdropWhile_prefix _ _).subset h)

/-- Six significant digits of a number, and the exponent of the first. -/
def significant (x : ℚ) : ℕ × ℤ :=
  let k := Int.log 10 x
  let m := (roundHalfEven (x / 10 ^ (k - 5))).toNat
  if m = 10 ^ 6 then (10 ^ 5, k + 1) else (m, k)

/-- What a stream prints for a floating-point number in the default format. -/
def formatG (x : ℚ) : Numeral :=
  let (m, k) := significant |x|
  if -4 ≤ k ∧ k < 6 then decimal (x < 0) m (5 - k).toNat none else decimal (x < 0) m 5 (some k)

/-- A whole number is printed without a point. -/
theorem decimal_mul_pow (negative : Bool) (n d : ℕ) :
    (decimal negative (n * 10 ^ d) d none).text = (if negative then [45] else []) ++ stdToString n := by
  have hfraction : (decimal negative (n * 10 ^ d) d none).fraction = [] := by
    apply List.rdropWhile_eq_nil_iff.mpr
    intro c hc
    exact decide_eq_true (lastDigits_mul_pow d n c hc)
  have hwhole : (decimal negative (n * 10 ^ d) d none).whole = stdToString n := by
    change stdToString (n * 10 ^ d / 10 ^ d) = stdToString n
    rw [Nat.mul_div_cancel _ (Nat.pow_pos (by decide))]
  have hpoint : (decimal negative (n * 10 ^ d) d none).fractionText = [] := if_pos hfraction
  unfold Numeral.text
  rw [hwhole, hpoint, List.nil_append]
  change _ ++ (stdToString n ++ []) = _
  rw [List.append_nil]
  rfl

theorem significant_natCast {n : ℕ} (h0 : 0 < n) (h : n < 10 ^ 6) :
    ∃ k : ℕ, k ≤ 5 ∧ significant n = (n * 10 ^ (5 - k), (k : ℤ)) := by
  have hk : Nat.log 10 n < 6 := (Nat.log_lt_iff_lt_pow (by decide) h0.ne').mpr h
  refine ⟨Nat.log 10 n, by omega, ?_⟩
  have hdigits : (n : ℚ) / 10 ^ ((Nat.log 10 n : ℤ) - 5) = ((n * 10 ^ (5 - Nat.log 10 n) : ℕ) : ℚ) := by
    have hexp : (Nat.log 10 n : ℤ) - 5 = -((5 - Nat.log 10 n : ℕ) : ℤ) := by omega
    rw [hexp, zpow_neg, zpow_natCast, div_inv_eq_mul]
    push_cast
    rfl
  have hlt : n * 10 ^ (5 - Nat.log 10 n) < 10 ^ 6 := by
    have hnext : n < 10 ^ (Nat.log 10 n + 1) := Nat.lt_pow_succ_log_self (by decide) n
    have hsum : Nat.log 10 n + 1 + (5 - Nat.log 10 n) = 6 := by omega
    calc n * 10 ^ (5 - Nat.log 10 n)
        < 10 ^ (Nat.log 10 n + 1) * 10 ^ (5 - Nat.log 10 n) :=
          Nat.mul_lt_mul_of_pos_right hnext (Nat.pow_pos (by decide))
      _ = 10 ^ 6 := by rw [← pow_add, hsum]
  unfold significant
  dsimp only
  rw [Int.log_natCast, hdigits, roundHalfEven_natCast, Int.toNat_natCast]
  exact if_neg hlt.ne

/-- A whole number of at most six digits is printed as it is. -/
theorem formatG_intCast {n : ℤ} (h : n.natAbs < 10 ^ 6) : (formatG n).text = intToString n := by
  have habs : |(n : ℚ)| = (n.natAbs : ℚ) := by
    rw [Nat.cast_natAbs, Int.cast_abs]
  have hsign : intToString n = (if decide ((n : ℚ) < 0) then [45] else []) ++ stdToString n.natAbs := by
    cases n with
    | ofNat n =>
      have hnot : ¬ ((Int.ofNat n : ℤ) : ℚ) < 0 := by simp
      rw [decide_eq_false hnot]
      rfl
    | negSucc n =>
      have hneg : ((Int.negSucc n : ℤ) : ℚ) < 0 := by exact_mod_cast Int.negSucc_lt_zero n
      rw [decide_eq_true hneg]
      rfl
  rcases Nat.eq_zero_or_pos n.natAbs with hzero | hpos
  · rw [Int.natAbs_eq_zero.mp hzero]
    have hsig : significant |((0 : ℤ) : ℚ)| = (0 * 10 ^ 5, 0) := by
      have hround : roundHalfEven 0 = 0 := by
        have hcast := roundHalfEven_intCast 0
        rwa [Int.cast_zero] at hcast
      unfold significant
      dsimp only
      rw [Int.cast_zero, abs_zero, Int.log_zero_right, zero_div, hround]
      rfl
    unfold formatG
    rw [hsig]
    exact decimal_mul_pow _ 0 5
  · obtain ⟨k, hk, hsig⟩ := significant_natCast hpos h
    have hfixed : -4 ≤ (k : ℤ) ∧ (k : ℤ) < 6 := by omega
    have hpoint : (5 - (k : ℤ)).toNat = 5 - k := by omega
    unfold formatG
    rw [habs, hsig]
    simp only [if_pos hfixed, hpoint, decimal_mul_pow]
    exact hsign.symm

/-- From `10 ^ 6` on there is an exponent. -/
theorem exponent_mem_formatG {x : ℚ} (h : 10 ^ 6 ≤ |x|) : 101 ∈ (formatG x).text := by
  have hpos : (0 : ℚ) < |x| := lt_of_lt_of_le (by norm_num) h
  have hlog : 6 ≤ Int.log 10 |x| := by
    apply (Int.zpow_le_iff_le_log (by decide) hpos).mp
    exact_mod_cast h
  have hexp : 6 ≤ (significant |x|).2 := by
    unfold significant
    dsimp only
    split
    · exact hlog.trans (by omega)
    · exact hlog
  have hnot : ¬ (-4 ≤ (significant |x|).2 ∧ (significant |x|).2 < 6) := by omega
  have hformat : formatG x = decimal (x < 0) (significant |x|).1 5 (some (significant |x|).2) := if_neg hnot
  rw [hformat]
  apply List.mem_append_right
  apply List.mem_append_right
  apply List.mem_append_right
  exact List.mem_cons_self

example : (formatG (1 / 3)).text = ascii ['0', '.', '3', '3', '3', '3', '3', '3'] := by decide +kernel

example : (formatG 123456789).text = ascii ['1', '.', '2', '3', '4', '5', '7', 'e', '+', '0', '8'] := by
  decide +kernel

end Ortoa
