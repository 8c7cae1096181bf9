/-
# Rows of fields as text

A row is its fields with the delimiter between them and `"\r\n"` behind. A
field that contains the delimiter, a quote, or a character of the line end
is put into quotes, and the quotes in it are doubled (the default dialect of
Python's `csv.writer`, for rows of at least two fields). A field that has none
of these is written as it is (`csvField_of_plain`); any other gets longer
(`quoteField_length`).

The reader (Python's `csv.reader`, as of 3.8) is a state machine over the
characters, which is told of the end of each line. It reads a row that was
written as it was, except that a text file is opened with universal newlines;
but a zero byte is an error, and so is a field of more than 131072 characters
(`readRows_csvRows`).

Key definitions: `csvField`, `csvRow`, `Reader.processChar`, `Reader.endLine`, `readRows`, `Within`.
Key theorems: `csvField_of_plain`, `quoteField_length`, `mem_quoteField`, `reading_adds`,
`reading_field`, `reading_row`, `readRows_csvRows`.
-/
import Ortoa.Text

namespace Ortoa

def quote : UInt8 := 34

/-- The characters because of which a field is quoted. -/
def isSpecial (delimiter c : UInt8) : Bool := c = delimiter ∨ c = quote ∨ c = 13 ∨ c = 10

/-- The field in quotes. -/
def quoteField (field : Bytes) : Bytes :=
  quote :: field.flatMap (fun c => if c = quote then [quote, quote] else [c]) ++ [quote]

def csvField (delimiter : UInt8) (field : Bytes) : Bytes :=
  if field.any (isSpecial delimiter) then quoteField field else field

def csvRow (delimiter : UInt8) (fields : List Bytes) : Bytes :=
  List.intercalate [delimiter] (fields.map (csvField delimiter)) ++ [13, 10]

theorem quoteField_length (field : Bytes) : field.length + 2 ≤ (quoteField field).length := by
  have hbody : field.length ≤
      (field.flatMap fun c => if c = quote then [quote, quote] else [c]).length := by
    induction field with
    | nil => exact Nat.le_refl _
    | cons c cs ih =>
      have hc : 1 ≤ (if c = quote then [quote, quote] else [c]).length := by split <;> simp
      rw [List.flatMap_cons, List.length_append, List.length_cons]
      omega
  rw [quoteField, List.length_append, List.length_cons, List.length_singleton]
  omega

theorem csvField_of_plain {delimiter : UInt8} {field : Bytes}
    (h : ∀ c ∈ field, isSpecial delimiter c = false) : csvField delimiter field = field := by
  unfold csvField
  rw [if_neg]
  rw [List.any_eq_true]
  rintro ⟨c, hc, hspecial⟩
  rw [h c hc] at hspecial
  cases hspecial

/-- What is in quotes starts with a quote and has the characters of the field. -/
theorem mem_quoteField {field : Bytes} {c : UInt8} (h : c ∈ quoteField field) :
    c = quote ∨ c ∈ field := by
  unfold quoteField at h
  rcases List.mem_append.mp h with h | h
  · rcases List.mem_cons.mp h with h | h
    · exact Or.inl h
    · obtain ⟨d, hd, hc⟩ := List.mem_flatMap.mp h
      split at hc
      · left
        simpa using hc
      · right
        rw [List.mem_singleton.mp hc]
        exact hd
  · exact Or.inl (List.mem_singleton.mp h)

/-! ### Reading -/

/-- Universal newlines, as `open` reads a text file: `"\r\n"` and `'\r'` are
read as `'\n'`. -/
def universalNewlines : Bytes → Bytes
  | [] => []
  | c :: cs =>
    if c = 13 then
      if cs.head? = some newline then universalNewlines cs else newline :: universalNewlines cs
    else c :: universalNewlines cs

/-- Where the reader is in a row. -/
inductive ReaderState
  | startRecord
  | startField
  | inField
  | inQuotedField
  | quoteInQuotedField
  | eatCrnl
  deriving DecidableEq, Repr

/-- How reading can fail. -/
inductive CsvError
  | lineContainsNul
  | fieldTooLarge
  | newlineInField
  deriving DecidableEq, Repr

/-- `csv.field_size_limit()`. -/
def fieldLimit : ℕ := 131072

/-- The first byte of a character (in UTF-8). -/
def isLead (c : UInt8) : Bool := c < 128 ∨ 192 ≤ c

/-- The number of characters. -/
def chars (s : Bytes) : ℕ := s.countP isLead

structure Reader where
  state : ReaderState
  field : Bytes
  fields : List Bytes

namespace Reader

def start : Reader := ⟨.startRecord, [], []⟩

def addChar (r : Reader) (state : ReaderState) (c : UInt8) : Except CsvError Reader :=
  if isLead c ∧ fieldLimit ≤ chars r.field then .error .fieldTooLarge
  else .ok ⟨state, r.field ++ [c], r.fields⟩

def saveField (r : Reader) (state : ReaderState) : Reader := ⟨state, [], r.fields ++ [r.field]⟩

/-- A character where a field starts. -/
def processStart (delimiter : UInt8) (r : Reader) (c : UInt8) : Except CsvError Reader :=
  if c = newline ∨ c = 13 then .ok (r.saveField .eatCrnl)
  else if c = quote then .ok ⟨.inQuotedField, r.field, r.fields⟩
  else if c = delimiter then .ok (r.saveField .startField)
  else r.addChar .inField c

/-- A character. -/
def processChar (delimiter : UInt8) (r : Reader) (c : UInt8) : Except CsvError Reader :=
  match r.state with
  | .startRecord =>
    if c = newline ∨ c = 13 then .ok ⟨.eatCrnl, r.field, r.fields⟩ else r.processStart delimiter c
  | .startField => r.processStart delimiter c
  | .inField =>
    if c = newline ∨ c = 13 then .ok (r.saveField .eatCrnl)
    else if c = delimiter then .ok (r.saveField .startField)
    else r.addChar .inField c
  | .inQuotedField =>
    if c = quote then .ok ⟨.quoteInQuotedField, r.field, r.fields⟩ else r.addChar .inQuotedField c
  | .quoteInQuotedField =>
    if c = quote then r.addChar .inQuotedField c
    else if c = delimiter then .ok (r.saveField .startField)
    else if c = newline ∨ c = 13 then .ok (r.saveField .eatCrnl)
    else r.addChar .inField c
  | .eatCrnl => if c = newline ∨ c = 13 then .ok r else .error .newlineInField

/-- The end of a line; the row is complete if the state is `startRecord`. -/
def endLine (r : Reader) : Reader :=
  match r.state with
  | .startRecord => r
  | .startField => r.saveField .startRecord
  | .inField => r.saveField .startRecord
  | .inQuotedField => r
  | .quoteInQuotedField => r.saveField .startRecord
  | .eatCrnl => ⟨.startRecord, r.field, r.fields⟩

end Reader

/-- The rows that are read of the text, and the error that ends them. -/
def readRows (delimiter : UInt8) : Reader → Bytes → List (List Bytes) × Option CsvError
  | r, [] =>
    if r.state = .startRecord then ([], none)
    else if r.endLine.state = .startRecord then ([r.endLine.fields], none)
    else ([(r.endLine.saveField .startRecord).fields], none)
  | r, c :: cs =>
    if c = 0 then ([], some .lineContainsNul)
    else
      match r.processChar delimiter c with
      | .error e => ([], some e)
      | .ok r =>
        if c = newline then
          if r.endLine.state = .startRecord then
            let rest := readRows delimiter Reader.start cs
            (r.endLine.fields :: rest.1, rest.2)
          else readRows delimiter r.endLine cs
        else readRows delimiter r cs

theorem universalNewlines_append (s : Bytes) {c : UInt8} (hc : c ≠ newline) (t : Bytes) :
    universalNewlines (s ++ c :: t) = universalNewlines s ++ universalNewlines (c :: t) := by
  induction s with
  | nil => rfl
  | cons b bs ih =>
    have hhead : (bs ++ c :: t).head? = some newline ↔ bs.head? = some newline := by
      cases bs with
      | nil => simp [hc]
      | cons _ _ => rfl
    rw [List.cons_append, universalNewlines, universalNewlines, ih]
    simp only [hhead]
    split
    · split <;> rfl
    · rfl

/-- A text without line ends stays as it is. -/
theorem universalNewlines_of_plain : ∀ {s : Bytes}, (∀ c ∈ s, c ≠ 13) → universalNewlines s = s
  | [], _ => rfl
  | c :: cs, h => by
    rw [universalNewlines, if_neg (h c List.mem_cons_self),
      universalNewlines_of_plain fun b hb => h b (List.mem_cons_of_mem _ hb)]

/-- Doubling the quotes. -/
def double (s : Bytes) : Bytes := s.flatMap fun c => if c = quote then [quote, quote] else [c]

theorem universalNewlines_double : ∀ s : Bytes,
    universalNewlines (double s) = double (universalNewlines s)
  | [] => rfl
  | c :: cs => by
    have ih := universalNewlines_double cs
    by_cases hq : c = quote
    · subst hq
      have h1 : double (quote :: cs) = quote :: quote :: double cs := rfl
      have h2 : universalNewlines (quote :: cs) = quote :: universalNewlines cs := rfl
      have h3 : universalNewlines (quote :: quote :: double cs) =
        quote :: quote :: universalNewlines (double cs) := rfl
      rw [h1, h2, h3, ih]
      rfl
    · have h1 : ∀ (c : UInt8) (cs : Bytes), c ≠ quote → double (c :: cs) = c :: double cs := by
        intro c cs hc
        simp [double, hc]
      have hhead : (double cs).head? = some newline ↔ cs.head? = some newline := by
        cases cs with
        | nil => rfl
        | cons b bs =>
          by_cases hb : b = quote
          · subst hb
            exact iff_of_false (by simp [double]; decide) (by simp; decide)
          · rw [h1 b bs hb]
            rfl
      rw [h1 c cs hq, universalNewlines, universalNewlines, ih]
      simp only [hhead]
      split
      · split
        · rfl
        · rw [h1 newline _ (by decide)]
      · rw [h1 c _ hq]

theorem chars_append (s t : Bytes) : chars (s ++ t) = chars s + chars t := List.countP_append

theorem chars_singleton (c : UInt8) : chars [c] = if isLead c then 1 else 0 := List.countP_singleton

/-- No zero byte, and not too long. -/
def Within (s : Bytes) : Prop := 0 ∉ s ∧ chars s ≤ fieldLimit

instance (s : Bytes) : Decidable (Within s) := inferInstanceAs (Decidable (_ ∧ _))

/-- The one reading goes on as the other if the condition holds, and ends in
an error at once otherwise. -/
def Reading (ok : Prop) (r r' : List (List Bytes) × Option CsvError) : Prop :=
  (ok → r = r') ∧ (¬ ok → ∃ e, r = ([], some e))

section Reader

variable {d : UInt8} {r r' r'' : List (List Bytes) × Option CsvError}

theorem Reading.refl : Reading True r r := ⟨fun _ => rfl, fun h => absurd trivial h⟩

theorem Reading.congr {p q : Prop} (h : Reading p r r') (hpq : p ↔ q) : Reading q r r' :=
  ⟨fun hq => h.1 (hpq.mpr hq), fun hq => h.2 fun hp => hq (hpq.mp hp)⟩

theorem Reading.trans {p q : Prop} (h : Reading p r r') (h' : Reading q r' r'') :
    Reading (p ∧ q) r r'' := by
  refine ⟨fun hpq => (h.1 hpq.1).trans (h'.1 hpq.2), fun hpq => ?_⟩
  by_cases hp : p
  · rw [h.1 hp]
    exact h'.2 fun hq => hpq ⟨hp, hq⟩
  · exact h.2 hp

theorem readRows_cons {r r' : Reader} {c : UInt8} {cs : Bytes} (h0 : c ≠ 0)
    (h : r.processChar d c = .ok r') (hc : c ≠ newline) :
    readRows d r (c :: cs) = readRows d r' cs := by
  rw [readRows, if_neg h0]
  simp only [h]
  rw [if_neg hc]

/-- A character is added to the field, if it is no zero byte and there is room. -/
theorem reading_addChar {state state' : ReaderState} {a : Bytes} {fs : List Bytes} {c : UInt8}
    {cs : Bytes} (ha : chars a ≤ fieldLimit)
    (hprocess : Reader.processChar d ⟨state, a, fs⟩ c = Reader.addChar ⟨state, a, fs⟩ state' c)
    (hline : c = newline → state' = .inQuotedField) :
    Reading (c ≠ 0 ∧ chars (a ++ [c]) ≤ fieldLimit) (readRows d ⟨state, a, fs⟩ (c :: cs))
      (readRows d ⟨state', a ++ [c], fs⟩ cs) := by
  rw [chars_append, chars_singleton]
  unfold Reader.addChar at hprocess
  rw [readRows, hprocess]
  by_cases h0 : c = 0
  · rw [if_pos h0]
    exact ⟨fun h => absurd h0 h.1, fun _ => ⟨_, rfl⟩⟩
  · rw [if_neg h0]
    by_cases hfull : isLead c = true ∧ fieldLimit ≤ chars a
    · rw [if_pos hfull, if_pos hfull.1]
      exact ⟨fun h => absurd h.2 (by omega), fun _ => ⟨_, rfl⟩⟩
    · rw [if_neg hfull]
      constructor
      · intro
        by_cases hc : c = newline
        · simp [hc, hline hc, Reader.endLine]
        · simp [hc]
      · intro hnot
        refine absurd ⟨h0, ?_⟩ hnot
        split
        · rename_i hlead
          have hroom : ¬ fieldLimit ≤ chars a := fun h => hfull ⟨hlead, h⟩
          omega
        · exact ha

/-- A text is added to the field, if each of its characters is. -/
theorem reading_adds {state : ReaderState} {fs : List Bytes} {encode : UInt8 → Bytes} {rest : Bytes} :
    ∀ {t a : Bytes}, chars a ≤ fieldLimit →
    (∀ c ∈ t, ∀ a cs, chars a ≤ fieldLimit →
      Reading (c ≠ 0 ∧ chars (a ++ [c]) ≤ fieldLimit) (readRows d ⟨state, a, fs⟩ (encode c ++ cs))
        (readRows d ⟨state, a ++ [c], fs⟩ cs)) →
    Reading (0 ∉ t ∧ chars (a ++ t) ≤ fieldLimit) (readRows d ⟨state, a, fs⟩ (t.flatMap encode ++ rest))
      (readRows d ⟨state, a ++ t, fs⟩ rest)
  | [], a, ha, _ => by
    rw [List.append_nil]
    exact Reading.refl.congr ⟨fun _ => ⟨List.not_mem_nil, ha⟩, fun _ => trivial⟩
  | c :: t, a, ha, hstep => by
    have hc := hstep c List.mem_cons_self a (t.flatMap encode ++ rest) ha
    rw [List.flatMap_cons, List.append_assoc]
    by_cases hroom : chars (a ++ [c]) ≤ fieldLimit
    · have ih := @reading_adds state fs encode rest t (a ++ [c]) hroom
        fun b hb => hstep b (List.mem_cons_of_mem _ hb)
      rw [List.append_assoc, List.singleton_append] at ih
      refine (hc.trans ih).congr ?_
      simp only [List.mem_cons, not_or, ne_comm (a := c)]
      tauto
    · have hmore : ¬ chars (a ++ c :: t) ≤ fieldLimit := by
        have := chars_append (a ++ [c]) t
        rw [List.append_assoc, List.singleton_append] at this
        omega
      exact ⟨fun h => absurd h.2 hmore, fun _ => hc.2 fun h => hroom h.2⟩

/-- A character between two fields. -/
structure Delimiter (d : UInt8) : Prop where
  ne_quote : d ≠ quote
  ne_newline : d ≠ newline
  ne_return : d ≠ 13
  ne_zero : d ≠ 0

/-- The states in which a field can end. -/
def Closing (state : ReaderState) : Prop :=
  state = .startField ∨ state = .inField ∨ state = .quoteInQuotedField

theorem readRows_delimiter (hd : Delimiter d) {state : ReaderState} (hs : Closing state) (a : Bytes)
    (fs : List Bytes) (cs : Bytes) :
    readRows d ⟨state, a, fs⟩ (d :: cs) = readRows d ⟨.startField, [], fs ++ [a]⟩ cs := by
  refine readRows_cons hd.ne_zero ?_ hd.ne_newline
  obtain rfl | rfl | rfl := hs
  · simp [Reader.processChar, Reader.processStart, Reader.saveField, hd.ne_quote, hd.ne_newline,
      hd.ne_return]
  · simp [Reader.processChar, Reader.saveField, hd.ne_newline, hd.ne_return]
  · simp [Reader.processChar, Reader.saveField, hd.ne_quote]

theorem readRows_newline (hd : Delimiter d) {state : ReaderState} (hs : Closing state) (a : Bytes)
    (fs : List Bytes) (cs : Bytes) : readRows d ⟨state, a, fs⟩ (newline :: cs) =
      ((fs ++ [a]) :: (readRows d Reader.start cs).1, (readRows d Reader.start cs).2) := by
  have hprocess : Reader.processChar d ⟨state, a, fs⟩ newline = .ok ⟨.eatCrnl, [], fs ++ [a]⟩ := by
    obtain rfl | rfl | rfl := hs
    · simp [Reader.processChar, Reader.processStart, Reader.saveField]
    · simp [Reader.processChar, Reader.saveField]
    · simp [Reader.processChar, Reader.saveField, hd.ne_newline.symm, show newline ≠ quote by decide]
  rw [readRows, if_neg (by decide : newline ≠ 0)]
  simp [hprocess, Reader.endLine]

theorem not_special_iff {c : UInt8} :
    isSpecial d c = false ↔ c ≠ d ∧ c ≠ quote ∧ c ≠ 13 ∧ c ≠ newline := by
  simp [isSpecial, newline]

/-- A field in quotes. -/
theorem reading_quoted (f : Bytes) (fs : List Bytes) (rest : Bytes) : Reading (Within f)
    (readRows d ⟨.startField, [], fs⟩ (quote :: (double f ++ quote :: rest)))
    (readRows d ⟨.quoteInQuotedField, f, fs⟩ rest) := by
  have hopen : readRows d ⟨.startField, [], fs⟩ (quote :: (double f ++ quote :: rest)) =
      readRows d ⟨.inQuotedField, [], fs⟩ (double f ++ quote :: rest) :=
    readRows_cons (by decide) rfl (by decide)
  have hclose : ∀ a, readRows d ⟨.inQuotedField, a, fs⟩ (quote :: rest) =
      readRows d ⟨.quoteInQuotedField, a, fs⟩ rest :=
    fun a => readRows_cons (by decide) rfl (by decide)
  rw [hopen, ← hclose]
  have hempty : chars [] ≤ fieldLimit := Nat.zero_le _
  apply @reading_adds d .inQuotedField fs (fun c => if c = quote then [quote, quote] else [c])
    (quote :: rest) f [] hempty
  intro c _ a cs ha
  by_cases hc : c = quote
  · have hfirst : readRows d ⟨.inQuotedField, a, fs⟩ (quote :: quote :: cs) =
        readRows d ⟨.quoteInQuotedField, a, fs⟩ (quote :: cs) := readRows_cons (by decide) rfl (by decide)
    rw [if_pos hc, hc]
    change Reading _ (readRows d ⟨.inQuotedField, a, fs⟩ (quote :: quote :: cs)) _
    rw [hfirst]
    exact reading_addChar ha rfl fun _ => rfl
  · rw [if_neg hc]
    refine reading_addChar ha ?_ fun _ => rfl
    simp [Reader.processChar, hc]

/-- A field without quotes around it. -/
theorem reading_plain {f : Bytes} (hplain : ∀ c ∈ f, c ≠ d ∧ c ≠ quote ∧ c ≠ 13 ∧ c ≠ newline)
    (fs : List Bytes) (rest : Bytes) : ∃ state, Closing state ∧ Reading (Within f)
      (readRows d ⟨.startField, [], fs⟩ (f ++ rest)) (readRows d ⟨state, f, fs⟩ rest) := by
  cases f with
  | nil => exact ⟨.startField, Or.inl rfl, Reading.refl.congr (by decide)⟩
  | cons c t =>
    refine ⟨.inField, Or.inr (Or.inl rfl), ?_⟩
    obtain ⟨hcd, hcq, hcr, hcn⟩ := hplain c List.mem_cons_self
    have hfirst : Reading (c ≠ 0 ∧ chars ([] ++ [c]) ≤ fieldLimit)
        (readRows d ⟨.startField, [], fs⟩ (c :: (t ++ rest))) (readRows d ⟨.inField, [c], fs⟩ (t ++ rest)) :=
      reading_addChar (Nat.zero_le _)
        (by simp [Reader.processChar, Reader.processStart, hcd, hcq, hcr, hcn]) fun h => absurd h hcn
    have hone : chars [c] ≤ fieldLimit := by
      rw [chars_singleton]
      split <;> decide
    have hrest := @reading_adds d .inField fs (fun b => [b]) rest t [c] hone fun b hb a cs ha => by
      obtain ⟨hbd, -, hbr, hbn⟩ := hplain b (List.mem_cons_of_mem _ hb)
      exact reading_addChar ha (by simp [Reader.processChar, hbd, hbr, hbn]) fun h => absurd h hbn
    rw [List.flatMap_singleton'] at hrest
    apply (hfirst.trans hrest).congr
    unfold Within
    simp only [List.nil_append, List.singleton_append, List.mem_cons, not_or, ne_comm (a := c)]
    tauto

/-- A field that is written is read back. -/
theorem reading_field (f : Bytes) (fs : List Bytes) (rest : Bytes) : ∃ state, Closing state ∧
    Reading (Within (universalNewlines f))
      (readRows d ⟨.startField, [], fs⟩ (universalNewlines (csvField d f) ++ rest))
      (readRows d ⟨state, universalNewlines f, fs⟩ rest) := by
  by_cases hspecial : f.any (isSpecial d) = true
  · have hfield : universalNewlines (csvField d f) ++ rest =
        quote :: (double (universalNewlines f) ++ quote :: rest) := by
      have hquote : csvField d f = (quote :: double f) ++ [quote] := by
        rw [csvField, if_pos hspecial]
        rfl
      rw [hquote, universalNewlines_append _ (by decide)]
      have hstart : universalNewlines (quote :: double f) = quote :: universalNewlines (double f) := rfl
      rw [hstart, universalNewlines_double]
      simp [universalNewlines, show quote ≠ 13 by decide]
    rw [hfield]
    exact ⟨.quoteInQuotedField, Or.inr (Or.inr rfl), reading_quoted _ fs rest⟩
  · have hplain : ∀ c ∈ f, c ≠ d ∧ c ≠ quote ∧ c ≠ 13 ∧ c ≠ newline := by
      intro c hc
      refine not_special_iff.mp (Bool.eq_false_iff.mpr fun h => hspecial ?_)
      exact List.any_eq_true.mpr ⟨c, hc, h⟩
    rw [csvField, if_neg hspecial, universalNewlines_of_plain fun c hc => (hplain c hc).2.2.1]
    exact reading_plain hplain fs rest

theorem csvRow_singleton (f : Bytes) : csvRow d [f] = csvField d f ++ [13, newline] := by
  simp [csvRow, List.intercalate, newline]

theorem csvRow_cons (f f' : Bytes) (fields : List Bytes) :
    csvRow d (f :: f' :: fields) = csvField d f ++ d :: csvRow d (f' :: fields) := by
  simp [csvRow, List.intercalate]

/-- The fields of a row are read back. -/
theorem reading_fields (hd : Delimiter d) {rest : Bytes} : ∀ {fields : List Bytes} {fs : List Bytes},
    fields ≠ [] → Reading (∀ f ∈ fields, Within (universalNewlines f))
      (readRows d ⟨.startField, [], fs⟩ (universalNewlines (csvRow d fields ++ rest)))
      ((fs ++ fields.map universalNewlines) :: (readRows d Reader.start (universalNewlines rest)).1,
        (readRows d Reader.start (universalNewlines rest)).2)
  | [], _, h => absurd rfl h
  | [f], fs, _ => by
    have htext : universalNewlines (csvRow d [f] ++ rest) =
        universalNewlines (csvField d f) ++ newline :: universalNewlines rest := by
      rw [csvRow_singleton, List.append_assoc]
      change universalNewlines (csvField d f ++ 13 :: newline :: rest) = _
      rw [universalNewlines_append _ (by decide)]
      rfl
    obtain ⟨state, hclosing, hread⟩ := @reading_field d f fs (newline :: universalNewlines rest)
    rw [htext]
    rw [readRows_newline hd hclosing] at hread
    exact hread.congr (by simp)
  | f :: f' :: fields, fs, _ => by
    have htext : universalNewlines (csvRow d (f :: f' :: fields) ++ rest) =
        universalNewlines (csvField d f) ++ d :: universalNewlines (csvRow d (f' :: fields) ++ rest) := by
      rw [csvRow_cons, List.append_assoc, List.cons_append, universalNewlines_append _ hd.ne_newline,
        universalNewlines, if_neg hd.ne_return]
    obtain ⟨state, hclosing, hread⟩ :=
      @reading_field d f fs (d :: universalNewlines (csvRow d (f' :: fields) ++ rest))
    rw [htext]
    rw [readRows_delimiter hd hclosing] at hread
    have ih := @reading_fields hd rest (f' :: fields) (fs ++ [universalNewlines f]) (by simp)
    rw [List.append_assoc, List.singleton_append, ← List.map_cons] at ih
    exact (hread.trans ih).congr (by simp)

/-- The row is not written as an empty line. -/
def NotBlank (row : List Bytes) : Prop := row ≠ [] ∧ row ≠ [[]]

theorem csvRow_start (hd : Delimiter d) {row : List Bytes} (h : NotBlank row) (rest : Bytes) :
    ∃ c cs, c ≠ newline ∧ c ≠ 13 ∧ csvRow d row ++ rest = c :: cs := by
  have hfield : ∀ (f : Bytes) (tail : Bytes), f ≠ [] →
      ∃ c cs, c ≠ newline ∧ c ≠ 13 ∧ csvField d f ++ tail = c :: cs := by
    intro f tail hf
    unfold csvField
    split
    · exact ⟨quote, _, by decide, by decide, rfl⟩
    · rename_i hspecial
      obtain ⟨c, cs, rfl⟩ := List.exists_cons_of_ne_nil hf
      have hc : isSpecial d c = false := Bool.eq_false_iff.mpr fun hc => hspecial (by simp [hc])
      obtain ⟨-, -, hreturn, hnewline⟩ := not_special_iff.mp hc
      exact ⟨c, _, hnewline, hreturn, rfl⟩
  obtain ⟨hne, hblank⟩ := h
  match row, hne with
  | [f], _ =>
    rw [csvRow_singleton, List.append_assoc]
    exact hfield f _ fun hf => hblank (by rw [hf])
  | f :: f' :: fields, _ =>
    rw [csvRow_cons, List.append_assoc]
    by_cases hf : f = []
    · subst hf
      exact ⟨d, _, hd.ne_newline, hd.ne_return, rfl⟩
    · exact hfield f _ hf

/-- A row that is written is read back. -/
theorem reading_row (hd : Delimiter d) {row : List Bytes} (h : NotBlank row) (rest : Bytes) :
    Reading (∀ f ∈ row, Within (universalNewlines f))
      (readRows d Reader.start (universalNewlines (csvRow d row ++ rest)))
      (row.map universalNewlines :: (readRows d Reader.start (universalNewlines rest)).1,
        (readRows d Reader.start (universalNewlines rest)).2) := by
  have hstart : readRows d Reader.start (universalNewlines (csvRow d row ++ rest)) =
      readRows d ⟨.startField, [], []⟩ (universalNewlines (csvRow d row ++ rest)) := by
    obtain ⟨c, cs, hnewline, hreturn, htext⟩ := csvRow_start hd h rest
    have hprocess : Reader.start.processChar d c = Reader.processChar d ⟨.startField, [], []⟩ c :=
      if_neg (not_or.mpr ⟨hnewline, hreturn⟩)
    rw [htext, universalNewlines, if_neg hreturn, readRows, readRows, hprocess]
  rw [hstart]
  exact reading_fields hd h.1

/-- The round trip: what is read of a file of rows are the rows, with their
newlines as the reader sees them, if no field has a zero byte or is too long;
otherwise reading ends in an error. -/
theorem readRows_csvRows (hd : Delimiter d) : ∀ {rows : List (List Bytes)}, (∀ row ∈ rows, NotBlank row) →
    ((∀ row ∈ rows, ∀ f ∈ row, Within (universalNewlines f)) →
      readRows d Reader.start (universalNewlines (rows.flatMap (csvRow d))) =
        (rows.map (List.map universalNewlines), none)) ∧
    (¬ (∀ row ∈ rows, ∀ f ∈ row, Within (universalNewlines f)) → ∃ n e,
      readRows d Reader.start (universalNewlines (rows.flatMap (csvRow d))) =
        ((rows.take n).map (List.map universalNewlines), some e))
  | [], _ => ⟨fun _ => rfl, fun h => absurd (fun _ hrow => absurd hrow List.not_mem_nil) h⟩
  | row :: rows, h => by
    have hrow := reading_row hd (h row List.mem_cons_self) (rows.flatMap (csvRow d))
    have ih := readRows_csvRows hd fun r hr => h r (List.mem_cons_of_mem _ hr)
    rw [List.flatMap_cons]
    constructor
    · intro hall
      rw [hrow.1 (hall row List.mem_cons_self), ih.1 fun r hr => hall r (List.mem_cons_of_mem _ hr)]
      rfl
    · intro hnot
      by_cases hfirst : ∀ f ∈ row, Within (universalNewlines f)
      · obtain ⟨n, e, hread⟩ := ih.2 fun hrest => hnot (List.forall_mem_cons.mpr ⟨hfirst, hrest⟩)
        exact ⟨n + 1, e, by rw [hrow.1 hfirst, hread]; rfl⟩
      · obtain ⟨e, hread⟩ := hrow.2 hfirst
        exact ⟨0, e, hread⟩

end Reader

example : readRows 32 Reader.start (universalNewlines (csvRow 32 [[97], [32, 34, 13, 10], []])) =
    ([[[97], [32, 34, 10], []]], none) := by decide

end Ortoa
