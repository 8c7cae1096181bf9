/-
# Text input

A text is a string of bytes; `'\n'` ends a line, and the last line may go
without. A reader that calls `std::getline` until the stream's eof flag is up
sees every line (`getline_eq`), but behind a final newline, or in an empty
file, it sees one more, empty, piece (`pieces_eq`), because the flag goes up
only when a read runs into the end.

`operator>>` skips white space and reads up to the next (`readWord_append`), so
that the words of a text are read one by one (`words_readWord`).

Key definitions: `ascii`, `stdToString`, `intToString`, `InStream`, `getline`, `lines`, `pieces`,
`readWord`, `words`.
Key theorems: `stdToString_injective`, `pieces_eq`, `pieces_append`, `getline_eq`,
`readWord_append`, `words_readWord`.
-/
import Ortoa.Bytes
import Mathlib.Data.List.TakeWhile
import Mathlib.Data.List.Basic

namespace Ortoa

/-! ### Numerals -/

/-- The bytes of a string literal. -/
def ascii (s : List Char) : Bytes := s.map fun c => UInt8.ofNat c.toNat

/-- `std::to_string` of a natural number. -/
def stdToString (i : ℕ) : Bytes := ascii (Nat.toDigits 10 i)

/-- The decimal numeral of an integer. -/
def intToString : ℤ → Bytes
  | .ofNat n => stdToString n
  | .negSucc n => 45 :: stdToString (n + 1)

/-- No numeral is written with a letter. -/
theorem stdToString_digits {n : ℕ} {c : UInt8} (h : c ∈ stdToString n) : 48 ≤ c ∧ c ≤ 57 := by
  obtain ⟨d, hd, rfl⟩ := List.mem_map.mp h
  have hdig := Char.isDigit_iff_toNat.mp (Nat.isDigit_of_mem_toDigits (by decide) (by decide) hd)
  have hlow : '0'.toNat = 48 := rfl
  have hhigh : '9'.toNat = 57 := rfl
  rw [UInt8.le_iff_toNat_le, UInt8.le_iff_toNat_le, UInt8.toNat_ofNat']
  change 48 ≤ _ ∧ _ ≤ 57
  omega

/-- Digits, and perhaps a minus sign. -/
theorem intToString_digits {n : ℤ} {c : UInt8} (h : c ∈ intToString n) : c = 45 ∨ 48 ≤ c ∧ c ≤ 57 := by
  cases n with
  | ofNat n => exact Or.inr (stdToString_digits h)
  | negSucc n => exact (List.mem_cons.mp h).imp_right stdToString_digits

theorem stdToString_ne_nil (n : ℕ) : stdToString n ≠ [] := by
  intro h
  have hdigits : Nat.toDigits 10 n = [] := List.map_eq_nil_iff.mp h
  exact absurd hdigits (Nat.toDigits_ne_nil)

theorem intToString_ne_nil (n : ℤ) : intToString n ≠ [] := by
  cases n with
  | ofNat n => exact stdToString_ne_nil n
  | negSucc n => exact List.cons_ne_nil _ _

/-- The number that a string of digits stands for. -/
def digitsValue (s : Bytes) : ℕ := s.foldl (fun n c => 10 * n + (c.toNat - 48)) 0

theorem digitsValue_stdToString (n : ℕ) : digitsValue (stdToString n) = n := by
  have hfold : digitsValue (stdToString n) = Nat.ofDigitChars 10 (Nat.toDigits 10 n) 0 := by
    rw [digitsValue, stdToString, ascii, List.foldl_map, Nat.ofDigitChars_eq_foldl]
    refine List.foldl_ext _ _ _ fun m d hd => ?_
    have hdig := Char.isDigit_iff_toNat.mp (Nat.isDigit_of_mem_toDigits (by decide) (by decide) hd)
    have hzero : '0'.toNat = 48 := rfl
    have hnine : '9'.toNat = 57 := rfl
    have hbyte : (UInt8.ofNat d.toNat).toNat = d.toNat := by
      rw [UInt8.toNat_ofNat', Nat.mod_eq_of_lt]
      omega
    rw [hbyte, hzero]
  rw [hfold, Nat.ofDigitChars_toDigits (by decide) (by decide)]

theorem stdToString_injective : Function.Injective stdToString := by
  intro m n h
  rw [← digitsValue_stdToString m, h, digitsValue_stdToString]

theorem intToString_injective : Function.Injective intToString := by
  have hminus : ∀ m n : ℕ, stdToString m ≠ 45 :: stdToString n := by
    intro m n h
    have hmem : (45 : UInt8) ∈ stdToString m := by
      rw [h]
      exact List.mem_cons_self
    exact absurd (stdToString_digits hmem).1 (by decide)
  intro m n h
  cases m with
  | ofNat m =>
    cases n with
    | ofNat n => exact congrArg Int.ofNat (stdToString_injective h)
    | negSucc n => exact absurd h (hminus m (n + 1))
  | negSucc m =>
    cases n with
    | ofNat n => exact absurd h.symm (hminus n (m + 1))
    | negSucc n =>
      have hdigits : m + 1 = n + 1 := stdToString_injective (List.cons.inj h).2
      rw [Nat.succ.inj hdigits]

/-- Numbers below a power of ten have no more digits than its exponent. -/
theorem stdToString_length_le {n k : ℕ} (hk : 0 < k) (h : n < 10 ^ k) : (stdToString n).length ≤ k := by
  rw [stdToString, ascii, List.length_map]
  exact (Nat.length_toDigits_le_iff (by decide) hk).mpr h

theorem stdToString_length_mono {m n : ℕ} (h : m ≤ n) : (stdToString m).length ≤ (stdToString n).length := by
  have hpos : 0 < (stdToString n).length := List.length_pos_iff.mpr (stdToString_ne_nil n)
  have hlt : n < 10 ^ (stdToString n).length := by
    have hdigits : (stdToString n).length = (Nat.toDigits 10 n).length := List.length_map _
    rw [hdigits] at hpos ⊢
    exact (Nat.length_toDigits_le_iff (by decide) hpos).mp (Nat.le_refl _)
  exact stdToString_length_le hpos (Nat.lt_of_le_of_lt h hlt)

/-! ### Lines -/

def newline : UInt8 := 10

/-- The first line, and what is behind its newline, if it has one. -/
def cutLine : Bytes → Bytes × Option Bytes
  | [] => ([], none)
  | c :: cs => if c = newline then ([], some cs) else (c :: (cutLine cs).1, (cutLine cs).2)

/-- The lines of a text. -/
def lines : Bytes → List Bytes
  | [] => []
  | c :: cs =>
    if c = newline then [] :: lines cs
    else
      match lines cs with
      | [] => [[c]]
      | l :: ls => (c :: l) :: ls

/-- What stands before, between and behind the newlines. -/
def pieces : Bytes → List Bytes
  | [] => [[]]
  | c :: cs =>
    if c = newline then [] :: pieces cs
    else
      match pieces cs with
      | [] => [[c]]
      | l :: ls => (c :: l) :: ls

/-- The text does not end with a newline, and is not empty. -/
def Unterminated (text : Bytes) : Prop := text ≠ [] ∧ text.getLast? ≠ some newline

theorem pieces_ne_nil : ∀ text : Bytes, pieces text ≠ []
  | [] => by simp [pieces]
  | c :: cs => by
    unfold pieces
    split
    · simp
    · split <;> simp

theorem lines_ne_nil : ∀ {text : Bytes}, text ≠ [] → lines text ≠ []
  | [], h => absurd rfl h
  | c :: cs, _ => by
    unfold lines
    split
    · simp
    · split <;> simp

theorem unterminated_cons {c : UInt8} {cs : Bytes} (h : cs ≠ []) :
    Unterminated (c :: cs) ↔ Unterminated cs := by
  unfold Unterminated
  rw [List.getLast?_cons_of_ne_nil h]
  simp [h]

/-- Behind a final newline stands one more piece, as in an empty text. -/
theorem pieces_eq : ∀ text : Bytes, (Unterminated text → pieces text = lines text) ∧
    (¬ Unterminated text → pieces text = lines text ++ [[]])
  | [] => by simp [Unterminated, pieces, lines]
  | c :: cs => by
    have ih := pieces_eq cs
    by_cases hc : c = newline
    · have hp : pieces (c :: cs) = [] :: pieces cs := by rw [pieces, if_pos hc]
      have hl : lines (c :: cs) = [] :: lines cs := by rw [lines, if_pos hc]
      rw [hp, hl]
      by_cases hcs : cs = []
      · subst hcs
        have hnot : ¬ Unterminated [c] := fun h => h.2 (by rw [hc]; rfl)
        exact ⟨fun h => absurd h hnot, fun _ => rfl⟩
      · rw [unterminated_cons hcs]
        exact ⟨fun h => by rw [ih.1 h], fun h => by rw [ih.2 h, List.cons_append]⟩
    · by_cases hcs : cs = []
      · subst hcs
        have hun : Unterminated [c] := ⟨by simp, by simpa using hc⟩
        have hp : pieces [c] = lines [c] := by rw [pieces, if_neg hc, lines, if_neg hc]; rfl
        exact ⟨fun _ => hp, fun h => absurd hun h⟩
      · obtain ⟨l, ls, hls⟩ := List.exists_cons_of_ne_nil (lines_ne_nil hcs)
        have hl : lines (c :: cs) = (c :: l) :: ls := by rw [lines, if_neg hc, hls]
        rw [unterminated_cons hcs, hl]
        constructor
        · intro h
          rw [pieces, if_neg hc, ih.1 h, hls]
        · intro h
          rw [pieces, if_neg hc, ih.2 h, hls]
          rfl

/-- The pieces are read off one by one. -/
theorem pieces_cutLine : ∀ text : Bytes, pieces text = (cutLine text).1 ::
    match (cutLine text).2 with
    | some rest => pieces rest
    | none => []
  | [] => rfl
  | c :: cs => by
    by_cases hc : c = newline
    · have hp : pieces (c :: cs) = [] :: pieces cs := by rw [pieces, if_pos hc]
      have hcut : cutLine (c :: cs) = ([], some cs) := by rw [cutLine, if_pos hc]
      rw [hp, hcut]
    · have hcut : cutLine (c :: cs) = (c :: (cutLine cs).1, (cutLine cs).2) := by
        rw [cutLine, if_neg hc]
      rw [hcut, pieces, if_neg hc, pieces_cutLine cs]

/-- What has no newline belongs to the line. -/
theorem cutLine_append {line : Bytes} (h : newline ∉ line) (rest : Bytes) :
    cutLine (line ++ rest) = (line ++ (cutLine rest).1, (cutLine rest).2) := by
  induction line with
  | nil => rfl
  | cons c cs ih =>
    have hc : c ≠ newline := fun hc => h (hc ▸ List.mem_cons_self)
    have hcs : newline ∉ cs := fun hcs => h (List.mem_cons_of_mem _ hcs)
    rw [List.cons_append, cutLine, if_neg hc, ih hcs, List.cons_append]

/-- The pieces on both sides of a newline. -/
theorem pieces_append : ∀ (s t : Bytes), pieces (s ++ newline :: t) = pieces s ++ pieces t
  | [], t => by
    have hcut : pieces (newline :: t) = [] :: pieces t := by rw [pieces, if_pos rfl]
    exact hcut
  | c :: s, t => by
    have ih := pieces_append s t
    rw [List.cons_append, pieces, ih, pieces]
    by_cases hc : c = newline
    · rw [if_pos hc, if_pos hc]
      rfl
    · rw [if_neg hc, if_neg hc]
      obtain ⟨l, ls, hls⟩ := List.exists_cons_of_ne_nil (pieces_ne_nil s)
      rw [hls]
      rfl

/-- What has no newline belongs to the first piece. -/
theorem pieces_append_left {s : Bytes} (h : newline ∉ s) (t : Bytes) :
    pieces (s ++ t) = (s ++ (cutLine t).1) :: (pieces t).tail := by
  rw [pieces_cutLine, cutLine_append h, pieces_cutLine t]
  rfl

/-- A text input stream: what has not been read, and the eof flag. (The fail
flag goes up with the eof flag only.) -/
structure InStream where
  rest : Bytes
  eof : Bool

/-- `std::getline` into an empty string. -/
def getline (s : InStream) : Bytes × InStream :=
  if s.eof then ([], s)
  else
    match (cutLine s.rest).2 with
    | some rest => ((cutLine s.rest).1, ⟨rest, false⟩)
    | none => ((cutLine s.rest).1, ⟨[], true⟩)

/-- The pieces that are still to be read. -/
def InStream.pieces (s : InStream) : List Bytes := if s.eof then [] else Ortoa.pieces s.rest

/-- Each call reads the next piece; none is left when the eof flag is up. -/
theorem getline_eq {s : InStream} (h : s.eof = false) :
    s.pieces = (getline s).1 :: (getline s).2.pieces := by
  unfold InStream.pieces getline
  rw [h, if_neg Bool.false_ne_true, if_neg Bool.false_ne_true, pieces_cutLine]
  cases (cutLine s.rest).2 with
  | some rest => rfl
  | none => rfl

theorem pieces_eq_nil_iff (s : InStream) : s.pieces = [] ↔ s.eof = true := by
  unfold InStream.pieces
  cases s.eof with
  | true => simp
  | false => simp [pieces_ne_nil]

/-! ### Words -/

/-- What is taken and what is left where a predicate ends. -/
theorem span_append {p : UInt8 → Bool} {w rest : Bytes} (hw : ∀ c ∈ w, p c = true)
    (hrest : ∀ c, rest.head? = some c → p c = false) :
    (w ++ rest).takeWhile p = w ∧ (w ++ rest).dropWhile p = rest := by
  have hstop : rest.takeWhile p = [] ∧ rest.dropWhile p = rest := by
    cases rest with
    | nil => exact ⟨rfl, rfl⟩
    | cons c cs =>
      have hc : ¬ p c = true := by rw [hrest c rfl]; exact Bool.false_ne_true
      exact ⟨List.takeWhile_cons_of_neg hc, List.dropWhile_cons_of_neg hc⟩
  rw [List.takeWhile_append_of_pos hw, List.dropWhile_append_of_pos hw, hstop.1, hstop.2, List.append_nil]
  exact ⟨rfl, rfl⟩

/-- `std::isspace` in the "C" locale. -/
def isSpace (c : UInt8) : Bool := c = 32 ∨ 9 ≤ c ∧ c ≤ 13

/-- `operator>>` into an empty string: the next word, and what is behind it. -/
def readWord (s : Bytes) : Bytes × Bytes :=
  ((s.dropWhile isSpace).takeWhile fun c => !isSpace c,
    (s.dropWhile isSpace).dropWhile fun c => !isSpace c)

theorem not_isSpace_readWord {s : Bytes} {c : UInt8} (h : c ∈ (readWord s).1) : isSpace c = false := by
  have hc := List.mem_takeWhile_imp h
  simpa using hc

/-- A word that ends at white space or at the end is read whole. -/
theorem readWord_append {w rest : Bytes} (hne : w ≠ []) (hw : ∀ c ∈ w, isSpace c = false)
    (hrest : ∀ c, rest.head? = some c → isSpace c = true) : readWord (w ++ rest) = (w, rest) := by
  have hstart : (w ++ rest).dropWhile isSpace = w ++ rest := by
    cases w with
    | nil => exact absurd rfl hne
    | cons c cs =>
      rw [List.cons_append, List.dropWhile_cons_of_neg]
      simp [hw c List.mem_cons_self]
  have hall : ∀ c ∈ w, (!isSpace c) = true := fun c hc => by rw [hw c hc]; rfl
  obtain ⟨htake, hdrop⟩ := span_append hall fun c hc => by rw [hrest c hc]; rfl
  unfold readWord
  rw [hstart, htake, hdrop]

/-- White space in front of a word is skipped. -/
theorem readWord_cons {c : UInt8} (hc : isSpace c = true) (s : Bytes) : readWord (c :: s) = readWord s := by
  unfold readWord
  rw [List.dropWhile_cons_of_pos hc]

/-- The words of a text. -/
def words (s : Bytes) : List Bytes := (s.splitOnP isSpace).filter fun w => w ≠ []

@[simp] theorem words_nil : words [] = [] := by
  rw [words, List.splitOnP_nil]
  rfl

theorem words_cons_space {c : UInt8} (hc : isSpace c = true) (s : Bytes) : words (c :: s) = words s := by
  have hsplit := List.splitOnP_append_cons [] s hc
  rw [List.nil_append, List.splitOnP_nil] at hsplit
  rw [words, hsplit]
  rfl

/-- White space in front belongs to no word. -/
theorem words_dropWhile : ∀ s : Bytes, words (s.dropWhile isSpace) = words s
  | [] => rfl
  | c :: s => by
    by_cases hc : isSpace c = true
    · rw [List.dropWhile_cons_of_pos hc, words_dropWhile s, words_cons_space hc]
    · rw [List.dropWhile_cons_of_neg hc]

/-- A word in front of white space, or at the end. -/
theorem words_append {w rest : Bytes} (hne : w ≠ []) (hw : ∀ c ∈ w, isSpace c = false)
    (hrest : ∀ c, rest.head? = some c → isSpace c = true) : words (w ++ rest) = w :: words rest := by
  cases rest with
  | nil =>
    rw [List.append_nil, words, List.splitOnP_eq_singleton hw]
    simp [hne]
  | cons c rest =>
    have hc := hrest c rfl
    rw [words, List.splitOnP_append_cons w rest hc, List.splitOnP_eq_singleton hw, words_cons_space hc]
    simp [hne, words]

/-- What is read is the first word, and the others are left. -/
theorem words_readWord (s : Bytes) : words s =
    if (readWord s).1 = [] then [] else (readWord s).1 :: words (readWord s).2 := by
  have hsplit : (readWord s).1 ++ (readWord s).2 = s.dropWhile isSpace := List.takeWhile_append_dropWhile
  have hrest : ∀ c, (readWord s).2.head? = some c → isSpace c = true := by
    intro c hc
    have hhead : ((s.dropWhile isSpace).dropWhile fun c => !isSpace c).head? = some c := hc
    have hnot := List.head?_dropWhile_not (fun c => !isSpace c) (s.dropWhile isSpace)
    rw [hhead] at hnot
    simpa using hnot
  by_cases hw : (readWord s).1 = []
  · rw [if_pos hw]
    -- nothing but white space
    have hnil : s.dropWhile isSpace = [] := by
      rw [hw, List.nil_append] at hsplit
      cases hd : s.dropWhile isSpace with
      | nil => rfl
      | cons c cs =>
        have hspace := hrest c (by rw [hsplit, hd]; rfl)
        have hnot := List.head?_dropWhile_not isSpace s
        rw [hd] at hnot
        change isSpace c = false at hnot
        rw [hspace] at hnot
        cases hnot
    rw [← words_dropWhile, hnil, words_nil]
  · rw [if_neg hw, ← words_dropWhile, ← hsplit]
    exact words_append hw (fun c hc => not_isSpace_readWord hc) hrest

end Ortoa
