/-
# `writeOutput` and `_parse_result`

The client measures whole milliseconds, keeps them as `double`s and prints them
in the default format of a stream; the benchmark reads them with `int`. So the
results file is read back as it was measured as long as every number in it is
printed without an exponent, that is below a million milliseconds
(`reads_back_iff`); from then on `int` raises a `ValueError`. The average is
read with `float`, which knows exponents.

A count of milliseconds is an `int64_t`, so that no sum or average leaves the
range of a `float`.

Key definitions: `ClientHandler`, `writeOutput`, `parseResult`, `ReadsBack`.
Key theorems: `parseResult_eq`, `reads_back_iff`.
-/
import Ortoa.FloatText

namespace Ortoa
namespace Bench

/-! ### The client -/

/-- What `writeOutput` reads of the client's handler. -/
structure ClientHandler where
  initDb : Bool
  resultFileIsOpen : Bool
  latencies : List ℚ
  totalDuration : ℚ

/-- The handler after a run: the counts of milliseconds have been converted to
`double`. -/
def runThreaded (latencies : List ℤ) (totalDuration : ℤ) : ClientHandler where
  initDb := false
  resultFileIsOpen := true
  latencies := latencies.map fun l : ℤ => toDouble l
  totalDuration := toDouble totalDuration

namespace ClientHandler

variable (handler : ClientHandler)

/-- `getAveLatency`; the assertion needs a latency. -/
def getAveLatency : Option ℚ :=
  if handler.latencies = [] then none
  else
    let sum := handler.latencies.foldl (fun sum l => toDouble (sum + l)) 0
    some (toFloat (toDouble (sum / toDouble handler.latencies.length)))

/-- `getTotalDuration`; the assertion needs a positive duration. -/
def getTotalDuration : Option ℚ :=
  if 0 < handler.totalDuration then some (toFloat handler.totalDuration) else none

/-- `file << x`. -/
def print (x : ℚ) : Bytes := (formatG x).text

/-- ',' -/
def comma : UInt8 := 44

/-- `writeOutput`: what it adds to the results file. -/
def writeOutput : Option Bytes :=
  if handler.initDb then some []
  else if ¬ handler.resultFileIsOpen then do
    let _ ← handler.getAveLatency
    let _ ← handler.getTotalDuration
    some []
  else do
    let latencies := handler.latencies.flatMap fun l => print l ++ [comma]
    let average ← handler.getAveLatency
    let total ← handler.getTotalDuration
    some (latencies ++ newline :: (print average ++ newline :: (print total ++ [newline])))

end ClientHandler

open ClientHandler

/-! ### The benchmark -/

/-- `f.readline()`: the line with its newline, and what is behind it. -/
def readline (text : Bytes) : Bytes × Bytes :=
  match (cutLine text).2 with
  | some rest => ((cutLine text).1 ++ [newline], rest)
  | none => ((cutLine text).1, [])

/-- What `_parse_result` takes from the results file. -/
structure ParsedResult where
  allLatencies : List ℤ
  averageLatency : ℚ
  totalTime : ℤ
  throughput : ℚ

/-- `_parse_result`, for a job with `numOperations` operations: `none` where it
raises an exception. -/
def parseResult (numOperations : ℕ) (text : Bytes) : Option ParsedResult := do
  let (latenciesLine, text) := readline text
  let allLatencies ← (latenciesLine.splitOn comma).dropLast.mapM pyInt
  let (averageLine, text) := readline text
  let averageLatency ← pyFloat (strip averageLine)
  let (totalLine, _) := readline text
  let totalTime ← pyInt totalLine
  if totalTime = 0 then none
  else
    some ⟨allLatencies.mergeSort (· ≤ ·), averageLatency, totalTime,
      toDouble (1000 * numOperations / totalTime)⟩

/-- The results file of a run is accepted, with the latencies and the duration
that were measured. -/
def ReadsBack (latencies : List ℤ) (totalDuration : ℤ) (numOperations : ℕ) : Prop :=
  ∃ text result, (runThreaded latencies totalDuration).writeOutput = some text ∧
    parseResult numOperations text = some result ∧
    result.allLatencies.Perm latencies ∧ result.totalTime = totalDuration

/-! ### Lines and columns -/

theorem readline_append {line rest : Bytes} (h : newline ∉ line) :
    readline (line ++ newline :: rest) = (line ++ [newline], rest) := by
  have hcut : cutLine (line ++ newline :: rest) = (line, some rest) := by
    rw [cutLine_append h, cutLine, if_pos rfl, List.append_nil]
  unfold readline
  rw [hcut]

/-- Behind each column stands a comma. -/
theorem splitOn_columns {last : Bytes} (hlast : comma ∉ last) : ∀ {columns : List Bytes},
    (∀ column ∈ columns, comma ∉ column) →
    ((columns.flatMap fun column => column ++ [comma]) ++ last).splitOn comma = columns ++ [last]
  | [], _ => List.splitOn_eq_singleton hlast
  | column :: columns, h => by
    have hcolumn := h column List.mem_cons_self
    have ih := splitOn_columns hlast fun c hc => h c (List.mem_cons_of_mem _ hc)
    rw [List.flatMap_cons, List.append_assoc, List.append_assoc, List.singleton_append,
      List.splitOn_append_cons_self, List.splitOn_eq_singleton hcolumn, ih]
    rfl

theorem print_not_mem {x : ℚ} {c : UInt8} (hc : c = 95 ∨ c = comma ∨ c = newline) : c ∉ print x :=
  fun h => not_isNumeralChar_of hc (Numeral.text_isNumeralChar _ h)

theorem print_not_isSpace {x : ℚ} {c : UInt8} (h : c ∈ print x) : isSpace c = false :=
  (Numeral.text_isNumeralChar _ h).not_isSpace

theorem newline_isSpace : ∀ c ∈ [newline], isSpace c = true := by
  intro c hc
  rw [List.mem_singleton.mp hc]
  rfl

/-- A results file: latencies, average and duration. -/
def resultsFile (latencies : List ℚ) (average total : ℚ) : Bytes :=
  (latencies.flatMap fun l => print l ++ [comma]) ++ newline ::
    (print average ++ newline :: (print total ++ [newline]))

/-- What the benchmark reads in a results file. -/
theorem parseResult_eq (numOperations : ℕ) (latencies : List ℚ) (average total : ℚ) :
    parseResult numOperations (resultsFile latencies average total) = (do
        let allLatencies ← (latencies.map print).mapM pyInt
        let totalTime ← pyInt (print total ++ [newline])
        if totalTime = 0 then none
        else
          some ⟨allLatencies.mergeSort (· ≤ ·), toDouble (formatG average).value, totalTime,
            toDouble (1000 * numOperations / totalTime)⟩) := by
  have hline : newline ∉ latencies.flatMap fun l => print l ++ [comma] := by
    intro h
    obtain ⟨l, -, hl⟩ := List.mem_flatMap.mp h
    rcases List.mem_append.mp hl with hl | hl
    · exact print_not_mem (Or.inr (Or.inr rfl)) hl
    · exact absurd (List.mem_singleton.mp hl) (by decide)
  have hnewline : ∀ x, newline ∉ print x := fun x => print_not_mem (Or.inr (Or.inr rfl))
  have hlast : comma ∉ [newline] := by decide
  have hcolumns : ∀ column ∈ latencies.map print, comma ∉ column := by
    intro column hcolumn
    obtain ⟨l, -, rfl⟩ := List.mem_map.mp hcolumn
    exact print_not_mem (Or.inr (Or.inl rfl))
  have hsplit := splitOn_columns hlast hcolumns
  rw [List.flatMap_map] at hsplit
  have hstrip : strip (print average ++ [newline]) = print average :=
    strip_append (fun c hc => print_not_isSpace hc) newline_isSpace
  have haverage : pyFloat (print average) = some (toDouble (formatG average).value) := by
    have h := @Numeral.pyFloat_text (formatG average) [] fun c hc => absurd hc List.not_mem_nil
    rwa [List.append_nil] at h
  have htotal : print total ++ [newline] = print total ++ newline :: [] := rfl
  unfold parseResult resultsFile
  simp only [readline_append hline, readline_append (hnewline average), hsplit,
    List.dropLast_concat, hstrip, haverage]
  rw [htotal, readline_append (hnewline total)]
  rfl

/-! ### What is read back -/

/-- `int` does not read a number of a million or more. -/
theorem pyInt_print_of_le {x : ℚ} (h : 10 ^ 6 ≤ |x|) (space : Bytes) : pyInt (print x ++ space) = none := by
  cases hread : pyInt (print x ++ space) with
  | none => rfl
  | some n =>
    have hchar := pyInt_chars hread (List.mem_append_left space (exponent_mem_formatG h))
    exact absurd hchar (by decide)

/-- Below a million the conversions change nothing. -/
theorem toFloat_toDouble {n : ℤ} (h : n.natAbs < 10 ^ 6) : toFloat (toDouble n) = n := by
  have hdouble : toDouble n = n := roundBits_intCast (h.trans (by norm_num))
  rw [hdouble]
  exact roundBits_intCast (h.trans (by norm_num))

/-- From a million on they stay there. -/
theorem le_abs_toDouble {n : ℤ} (h : 10 ^ 6 ≤ n.natAbs) : ((10 ^ 6 : ℕ) : ℚ) ≤ |toDouble n| := by
  apply le_abs_roundBits (by norm_num) (by norm_num)
  rw [← Int.cast_abs, Int.abs_eq_natAbs, Int.cast_natCast]
  exact_mod_cast h

theorem pyInt_print_toDouble (n : ℤ) :
    pyInt (print (toDouble n)) = if n.natAbs < 10 ^ 6 then some n else none := by
  split
  next h =>
    have hdouble : toDouble n = n := roundBits_intCast (h.trans (by norm_num))
    have hread := @pyInt_intToString n [] fun c hc => absurd hc List.not_mem_nil
    rw [List.append_nil] at hread
    rw [print, hdouble, formatG_intCast h, hread]
  next h =>
    have hle := le_abs_toDouble (not_lt.mp h)
    have hnone := pyInt_print_of_le (by exact_mod_cast hle) []
    rwa [List.append_nil] at hnone

theorem pyInt_print_toFloat (n : ℤ) :
    pyInt (print (toFloat (toDouble n)) ++ [newline]) = if n.natAbs < 10 ^ 6 then some n else none := by
  split
  next h =>
    rw [print, toFloat_toDouble h, formatG_intCast h]
    exact pyInt_intToString n newline_isSpace
  next h =>
    apply pyInt_print_of_le
    have hle := le_abs_roundBits (p := 24) (by norm_num) (by norm_num) (le_abs_toDouble (not_lt.mp h))
    exact_mod_cast hle

/-- All latencies are read if each is, and in their order. -/
theorem mapM_pyInt (latencies : List ℤ) : ((latencies.map fun l : ℤ => toDouble l).map print).mapM pyInt =
    if ∀ l ∈ latencies, l.natAbs < 10 ^ 6 then some latencies else none := by
  induction latencies with
  | nil => rfl
  | cons l latencies ih =>
    have hall : (∀ l' ∈ l :: latencies, l'.natAbs < 10 ^ 6) ↔
        l.natAbs < 10 ^ 6 ∧ ∀ l' ∈ latencies, l'.natAbs < 10 ^ 6 := List.forall_mem_cons
    rw [List.map_cons, List.map_cons, List.mapM_cons, ih, pyInt_print_toDouble]
    simp only [hall]
    by_cases hl : l.natAbs < 10 ^ 6
    · rw [if_pos hl]
      by_cases hrest : ∀ l ∈ latencies, l.natAbs < 10 ^ 6
      · rw [if_pos hrest, if_pos ⟨hl, hrest⟩]
        rfl
      · rw [if_neg hrest, if_neg fun h => hrest h.2]
        rfl
    · rw [if_neg hl, if_neg fun h : _ ∧ _ => hl h.1]
      rfl

/-- Neither assertion fails. -/
theorem writeOutput_eq {latencies : List ℤ} {totalDuration : ℤ} (hne : latencies ≠ []) (hpos : 0 < totalDuration) :
    ∃ average, (runThreaded latencies totalDuration).writeOutput =
      some (resultsFile (latencies.map fun l : ℤ => toDouble l) average (toFloat (toDouble totalDuration))) := by
  have hsome : (runThreaded latencies totalDuration).latencies ≠ [] := by
    unfold runThreaded
    exact fun h => hne (List.map_eq_nil_iff.mp h)
  have hduration : 0 < (runThreaded latencies totalDuration).totalDuration := by
    have hone : ((1 : ℕ) : ℚ) ≤ toDouble totalDuration := by
      have hle : ((1 : ℕ) : ℚ) ≤ totalDuration := by exact_mod_cast hpos
      unfold toDouble roundBits
      rw [if_pos (le_trans (Nat.cast_nonneg 1) hle)]
      exact le_roundNonneg (by decide) (by norm_num) hle
    exact lt_of_lt_of_le (by norm_num) hone
  obtain ⟨average, haverage⟩ : ∃ average, (runThreaded latencies totalDuration).getAveLatency = some average :=
    ⟨_, if_neg hsome⟩
  have htotal : (runThreaded latencies totalDuration).getTotalDuration =
      some (toFloat (toDouble totalDuration)) := if_pos hduration
  refine ⟨average, ?_⟩
  unfold writeOutput
  rw [haverage, htotal]
  rfl

/-- What the benchmark reads in the results file of a run. -/
theorem parseResult_measured (numOperations : ℕ) (latencies : List ℤ) (average : ℚ) {totalDuration : ℤ}
    (hpos : 0 < totalDuration) : parseResult numOperations
      (resultsFile (latencies.map fun l : ℤ => toDouble l) average (toFloat (toDouble totalDuration))) =
    if (∀ l ∈ latencies, l.natAbs < 10 ^ 6) ∧ totalDuration < 10 ^ 6 then
      some ⟨latencies.mergeSort (· ≤ ·), toDouble (formatG average).value, totalDuration,
        toDouble (1000 * numOperations / totalDuration)⟩
    else none := by
  have habs : totalDuration.natAbs < 10 ^ 6 ↔ totalDuration < 10 ^ 6 := by omega
  rw [parseResult_eq, mapM_pyInt, pyInt_print_toFloat]
  simp only [habs]
  by_cases hlatencies : ∀ l ∈ latencies, l.natAbs < 10 ^ 6
  · by_cases htotal : totalDuration < 10 ^ 6
    · rw [if_pos hlatencies, if_pos htotal, if_pos ⟨hlatencies, htotal⟩]
      exact if_neg hpos.ne'
    · rw [if_pos hlatencies, if_neg htotal, if_neg fun h => htotal h.2]
      rfl
  · rw [if_neg hlatencies, if_neg fun h : _ ∧ _ => hlatencies h.1]
    rfl

/-- The results file is read back if and only if no latency, and not the
duration, has a million milliseconds. -/
theorem reads_back_iff {latencies : List ℤ} {totalDuration : ℤ} (numOperations : ℕ) (hne : latencies ≠ [])
    (hpos : 0 < totalDuration) : ReadsBack latencies totalDuration numOperations ↔
      (∀ l ∈ latencies, l.natAbs < 10 ^ 6) ∧ totalDuration < 10 ^ 6 := by
  obtain ⟨average, hwrite⟩ := writeOutput_eq hne hpos
  constructor
  · rintro ⟨text, result, htext, hparse, -⟩
    rw [hwrite, Option.some.injEq] at htext
    rw [← htext, parseResult_measured numOperations latencies average hpos] at hparse
    split at hparse
    next h => exact h
    next => cases hparse
  · intro h
    have hparse := parseResult_measured numOperations latencies average hpos
    rw [if_pos h] at hparse
    exact ⟨_, _, hwrite, hparse, List.mergeSort_perm _ _, rfl⟩

theorem reads_back_two : ReadsBack [12, 7] 19 2 :=
  (reads_back_iff 2 (by decide) (by decide)).mpr (by decide)

/-- A run of a thousand seconds: "1e+06" is not an `int`. -/
theorem million_not_read : (runThreaded [1] 1000000).writeOutput =
      some (ascii ['1', ',', '\n', '1', '\n', '1', 'e', '+', '0', '6', '\n']) ∧
    ¬ ReadsBack [1] 1000000 1 := by
  refine ⟨by decide +kernel, ?_⟩
  rintro ⟨text, result, htext, hparse, -⟩
  obtain ⟨average, hwrite⟩ := @writeOutput_eq [1] 1000000 (by decide) (by decide)
  rw [hwrite, Option.some.injEq] at htext
  rw [← htext, parseResult_measured 1 [1] average (by decide), if_neg fun h => absurd h.2 (by decide)] at hparse
  cases hparse

end Bench
end Ortoa
