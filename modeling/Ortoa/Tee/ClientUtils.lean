/-
# `clientUtils.cpp`: where the client's operations come from

With a seed file each call of `getSeedOperation` takes one line of it and
reads it as an operation, a key and a value; without one `genRandOperation`
draws them. The loops over the file (`SharedQueue::enqueue` and `initDB`) ask
`moreOperationsExist` first, that is the stream's eof flag, which a read that
stops at a newline does not raise: a file whose last line is terminated gives
one operation too many (`seed_lines_iff`).

The files are written by the generators under `data_generation/`, with
Python's `csv.writer` and a space for a delimiter. `operator>>` splits at any
white space and knows no quotes, so a value arrives as it was generated if and
only if it has neither (`row_read_back_iff`).

Python's strings are their UTF-8 bytes here.

Key definitions: `ClientConfig`, `moreOperationsExist`, `seedFields`, `getSeedOperation`,
`genRandOperation`, `getOperation`, `Row`.
Key theorems: `seed_lines_iff`, `row_read_back_iff`.
-/
import Ortoa.Tee.Host
import Ortoa.Text
import Ortoa.Csv

namespace Ortoa
namespace Tee

/-- `VALUE_SIZE`. -/
def valueSize : ℕ := 160

/-- How the client can end other than by an exception that it handles. -/
inductive ClientFault
  | engine (f : Fault)
  | divisionByZero
  deriving DecidableEq, Repr

/-- `ClientConfig`, as far as operations are made from it. -/
structure ClientConfig where
  seedData : InStream
  numOperations : ℤ
  useSeed : Bool
  maxKey : ℤ
  maxValue : ℤ

/-- What making an operation draws. -/
structure OpDraw where
  suffix : Suffix
  /-- What `randombytes_buf` writes to `rand_val`. -/
  randVal : Bytes
  randVal_length : randVal.length = valueSize
  /-- What is in memory behind `rand_val`. -/
  beyond : Bytes
  /-- `r < config.p_get`. -/
  isGet : Bool
  /-- What `rand()` returns for the key. -/
  randKey : ℕ
  /-- What `rand()` returns for the value. -/
  randValue : ℕ

/-- `std::string(rand_val)`: up to the first zero byte. -/
def OpDraw.dummy (d : OpDraw) : Bytes := (d.randVal ++ d.beyond).takeWhile fun c => c ≠ 0

/-- `moreOperationsExist`. -/
def moreOperationsExist (config : ClientConfig) : Bool :=
  (config.useSeed && !config.seedData.eof) || (!config.useSeed && 0 < config.numOperations)

/-- `ss >> operation >> key >> value`. -/
def parseLine (line : Bytes) : Bytes × Bytes × Bytes :=
  let operation := readWord line
  let key := readWord operation.2
  let value := readWord key.2
  (operation.1, key.1, value.1)

/-- The operation, the key and the plain value of a line. -/
def lineFields (line : Bytes) (d : OpDraw) : OpType × Bytes × Bytes :=
  let fields := parseLine line
  if fields.1 = ascii ['G', 'E', 'T'] then (.get, fields.2.1, d.dummy)
  else (.put, fields.2.1, fields.2.2)

section Operations

variable (E : Cipher)

/-- `clientEncrypt` and `__set_value`. -/
def encryptFields (fields : OpType × Bytes × Bytes) (d : OpDraw) : Except ClientFault Operation :=
  match clientEncrypt E fields.2.2 d.suffix with
  | .ok value => .ok ⟨fields.1, fields.2.1, value⟩
  | .error f => .error (.engine f)

/-- What `getSeedOperation` takes from the file. -/
def seedFields (config : ClientConfig) (d : OpDraw) : OpType × Bytes × Bytes :=
  lineFields (getline config.seedData).1 d

/-- `getSeedOperation`, with the config that it leaves. -/
def getSeedOperation (config : ClientConfig) (d : OpDraw) : Except ClientFault Operation × ClientConfig :=
  (encryptFields E (seedFields config d) d, { config with seedData := (getline config.seedData).2 })

/-- `genRandOperation`, with the config that it leaves. -/
def genRandOperation (config : ClientConfig) (d : OpDraw) : Except ClientFault Operation × ClientConfig :=
  if config.maxKey = 0 then (.error .divisionByZero, config)
  else if d.isGet then
    (encryptFields E (.get, intToString (Int.tmod d.randKey config.maxKey), d.dummy) d,
      { config with numOperations := config.numOperations - 1 })
  else if config.maxValue = 0 then (.error .divisionByZero, config)
  else
    (encryptFields E (.put, intToString (Int.tmod d.randKey config.maxKey),
        intToString (Int.tmod d.randValue config.maxValue)) d,
      { config with numOperations := config.numOperations - 1 })

/-- `getOperation`. -/
def getOperation (config : ClientConfig) (d : OpDraw) : Except ClientFault Operation × ClientConfig :=
  if config.useSeed then getSeedOperation E config d else genRandOperation E config d

/-- One round of the loop `while (moreOperationsExist) getOperation`, if the
operation can be made (`initDB` calls `getInitKV`, which is the same with a file). -/
def loopNext (config : ClientConfig) (d : OpDraw) : Option ClientConfig :=
  if moreOperationsExist config then
    match getOperation E config d with
    | (.ok _, config') => some config'
    | (.error _, _) => none
  else none

/-- The operation that a round yields. -/
def loopYield (config : ClientConfig) (d : OpDraw) : List Operation :=
  match (getOperation E config d).1 with
  | .ok o => [o]
  | .error _ => []

/-- The operation that a line stands for. -/
def lineOperation (line : Bytes) (d : OpDraw) : Except ClientFault Operation :=
  encryptFields E (lineFields line d) d

end Operations

/-- The config after `config.seed_data.open(seed_path)`. -/
def ClientConfig.opened (config : ClientConfig) (text : Bytes) : ClientConfig :=
  { config with seedData := ⟨text, false⟩, useSeed := true }

variable {E : Cipher}

/-- No operation that is made is the sentinel. -/
theorem encryptFields_op {fields : OpType × Bytes × Bytes} {d : OpDraw} {o : Operation}
    (h : encryptFields E fields d = .ok o) : o.op = fields.1 := by
  unfold encryptFields at h
  split at h
  · rw [← Except.ok.inj h]
  · cases h

theorem encryptFields_key {fields : OpType × Bytes × Bytes} {d : OpDraw} {o : Operation}
    (h : encryptFields E fields d = .ok o) : o.key = fields.2.1 := by
  unfold encryptFields at h
  split at h
  · rw [← Except.ok.inj h]
  · cases h

theorem getOperation_ne_eod {config : ClientConfig} {d : OpDraw} {o : Operation}
    (h : (getOperation E config d).1 = .ok o) : o.op ≠ .eod := by
  unfold getOperation at h
  split at h
  · have hop := encryptFields_op (show encryptFields E (seedFields config d) d = .ok o from h)
    rw [hop, seedFields, lineFields]
    split <;> simp
  · unfold genRandOperation at h
    split at h
    · cases h
    · split at h
      · rw [encryptFields_op h]
        simp
      · split at h
        · cases h
        · rw [encryptFields_op h]
          simp

/-! ### One operation per line -/

theorem encryptFields_ok_iff {fields : OpType × Bytes × Bytes} {d : OpDraw} :
    (∃ o, encryptFields E fields d = .ok o) ↔ fields.2.2.length ≤ 4084 := by
  unfold encryptFields clientEncrypt
  rw [← encrypted_fits (E := E) d.suffix]
  split
  · rename_i value h
    split at h
    · rename_i hfits
      exact ⟨fun _ => hfits, fun _ => ⟨_, rfl⟩⟩
    · cases h
  · rename_i f h
    split at h
    · cases h
    · rename_i hlong
      exact ⟨fun ⟨o, ho⟩ => (nomatch ho), fun hfits => absurd hfits hlong⟩

section Lines

/-- A round: a piece is left and its operation can be made. -/
theorem loopNext_eq_some {config config' : ClientConfig} {d : OpDraw} (hseed : config.useSeed = true) :
    loopNext E config d = some config' ↔
      config.seedData.eof = false ∧ (∃ o, (getSeedOperation E config d).1 = .ok o) ∧
        config' = { config with seedData := (getline config.seedData).2 } := by
  have hmore : moreOperationsExist config = !config.seedData.eof := by simp [moreOperationsExist, hseed]
  have hop : getOperation E config d = getSeedOperation E config d := by rw [getOperation, if_pos hseed]
  unfold loopNext
  rw [hmore, hop]
  cases heof : config.seedData.eof with
  | true => simp
  | false =>
    simp only [Bool.not_false, if_true, true_and]
    split
    · rename_i o config1 h
      have h1 : (getSeedOperation E config d).1 = .ok o := by rw [h]
      have h2 : config1 = (getSeedOperation E config d).2 := by rw [h]
      rw [h1, h2, Option.some.injEq]
      exact ⟨fun hc => ⟨⟨o, rfl⟩, hc.symm⟩, fun hc => hc.2.symm⟩
    · rename_i f config1 h
      have h1 : (getSeedOperation E config d).1 = .error f := by rw [h]
      rw [h1]
      constructor
      · exact fun hc => nomatch hc
      · rintro ⟨⟨o, ho⟩, -⟩
        cases ho

/-- A finished loop has yielded an operation per piece of what was left. -/
theorem collect_seed : ∀ {n : ℕ} {draw : ℕ → OpDraw} {config config' : ClientConfig},
    config.useSeed = true → run (loopNext E) config ((List.range n).map draw) = some config' →
    moreOperationsExist config' = false →
    (collect (loopNext E) (loopYield E) config ((List.range n).map draw)).map Except.ok =
      config.seedData.pieces.mapIdx fun i line => lineOperation E line (draw i)
  | 0, draw, config, config', hseed, hrun, hend => by
    rw [List.range_zero, List.map_nil, run_nil, Option.some.injEq] at hrun
    subst hrun
    have heof : config.seedData.eof = true := by simpa [moreOperationsExist, hseed] using hend
    rw [(pieces_eq_nil_iff _).mpr heof]
    rfl
  | n + 1, draw, config, config', hseed, hrun, hend => by
    rw [List.range_succ_eq_map, List.map_cons, List.map_map, run_cons, Option.bind_eq_some_iff] at hrun
    obtain ⟨config1, hnext, hrest⟩ := hrun
    obtain ⟨heof, ⟨o, ho⟩, rfl⟩ := (loopNext_eq_some hseed).mp hnext
    have ih := @collect_seed n (draw ∘ Nat.succ)
      { config with seedData := (getline config.seedData).2 } config' hseed hrest hend
    have hyield : loopYield E config (draw 0) = [o] := by
      rw [loopYield, getOperation, if_pos hseed, ho]
    have hop : lineOperation E (getline config.seedData).1 (draw 0) = .ok o := ho
    rw [List.range_succ_eq_map, List.map_cons, List.map_map, collect, hnext]
    simp only
    rw [hyield, List.map_append, ih, getline_eq heof, List.mapIdx_cons, hop]
    rfl

/-- The loop ends, if every operation can be made. -/
theorem seed_run_ends : ∀ {n : ℕ} {draw : ℕ → OpDraw} {config : ClientConfig}, config.useSeed = true →
    config.seedData.pieces.length = n →
    (∀ i line, config.seedData.pieces[i]? = some line → ∃ o, lineOperation E line (draw i) = .ok o) →
    ∃ config', run (loopNext E) config ((List.range n).map draw) = some config' ∧
      moreOperationsExist config' = false
  | 0, draw, config, hseed, hlen, _ => by
    have heof := (pieces_eq_nil_iff _).mp (List.length_eq_zero_iff.mp hlen)
    exact ⟨config, rfl, by simp [moreOperationsExist, hseed, heof]⟩
  | n + 1, draw, config, hseed, hlen, hall => by
    have heof : config.seedData.eof = false := by
      rw [← Bool.not_eq_true, ← pieces_eq_nil_iff]
      intro hnil
      rw [hnil] at hlen
      cases hlen
    rw [getline_eq heof] at hlen hall
    have hnext : loopNext E config (draw 0) =
        some { config with seedData := (getline config.seedData).2 } :=
      (loopNext_eq_some hseed).mpr ⟨heof, hall 0 _ rfl, rfl⟩
    obtain ⟨config', hrun, hend⟩ := @seed_run_ends n (fun i => draw (i + 1))
      { config with seedData := (getline config.seedData).2 } hseed (Nat.succ_inj.mp hlen)
      fun i line hline => hall (i + 1) line hline
    refine ⟨config', ?_, hend⟩
    rw [List.range_succ_eq_map, List.map_cons, List.map_map, run_cons, hnext]
    exact hrun

/-- Behind a final newline, or in an empty file, there is one operation more
than there are lines. -/
theorem seed_lines_length {config config' : ClientConfig} {text : Bytes} {n : ℕ} {draw : ℕ → OpDraw}
    (hrun : run (loopNext E) (config.opened text) ((List.range n).map draw) = some config')
    (hend : moreOperationsExist config' = false) (hun : ¬ Unterminated text) :
    (collect (loopNext E) (loopYield E) (config.opened text) ((List.range n).map draw)).length =
      (lines text).length + 1 := by
  have hlen := congrArg List.length (collect_seed rfl hrun hend)
  rw [List.length_map, List.length_mapIdx] at hlen
  rw [hlen]
  change (pieces text).length = _
  rw [(pieces_eq text).2 hun, List.length_append, List.length_singleton]

/-- The loop over a seed file ends with one operation per line, in order, if
and only if the file is not empty, does not end with a newline, and no value
is too long for the buffer it is encrypted into. -/
theorem seed_lines_iff (E : Cipher) (config : ClientConfig) (text : Bytes) (draw : ℕ → OpDraw) :
    (∃ n config', run (loopNext E) (config.opened text) ((List.range n).map draw) = some config' ∧
        moreOperationsExist config' = false ∧
        (collect (loopNext E) (loopYield E) (config.opened text) ((List.range n).map draw)).map
            Except.ok =
          (lines text).mapIdx fun i line => lineOperation E line (draw i)) ↔
      Unterminated text ∧
        ∀ i line, (lines text)[i]? = some line → (lineFields line (draw i)).2.2.length ≤ 4084 := by
  constructor
  · rintro ⟨n, config', hrun, hend, heq⟩
    have hun : Unterminated text := by
      by_contra hun
      have hlen := congrArg List.length heq
      rw [List.length_map, List.length_mapIdx, seed_lines_length hrun hend hun] at hlen
      omega
    refine ⟨hun, fun i line hline => ?_⟩
    have hget := congrArg (fun l => l[i]?) heq
    simp only [List.getElem?_map, List.getElem?_mapIdx, hline, Option.map_some] at hget
    obtain ⟨o, -, ho⟩ := Option.map_eq_some_iff.mp hget
    exact encryptFields_ok_iff.mp ⟨o, ho.symm⟩
  · rintro ⟨hun, hfits⟩
    have hpieces : (config.opened text).seedData.pieces = lines text := (pieces_eq text).1 hun
    obtain ⟨config', hrun, hend⟩ := @seed_run_ends E _ draw (config.opened text)
      rfl rfl fun i line hline => by
        rw [hpieces] at hline
        exact encryptFields_ok_iff.mpr (hfits i line hline)
    refine ⟨_, config', hrun, hend, ?_⟩
    rw [collect_seed rfl hrun hend, hpieces]

/-- The draws of an operation in the simplest case. -/
def plainOpDraw : OpDraw where
  suffix := zeroSuffix
  randVal := List.replicate valueSize 0
  randVal_length := List.length_replicate
  beyond := []
  isGet := false
  randKey := 0
  randValue := 0

/-- A file of one line, as the generators end it, and the config it is opened in. -/
def onePut : ClientConfig :=
  { seedData := ⟨[], true⟩, numOperations := 0, useSeed := false, maxKey := 1, maxValue := 1 : ClientConfig }.opened
    (ascii ['P', 'U', 'T', ' ', '1', ' ', '2', '\r', '\n'])

/-- The file has one line, the loop over it yields two operations. -/
theorem one_line_two_operations :
    lines onePut.seedData.rest = [ascii ['P', 'U', 'T', ' ', '1', ' ', '2', '\r']] ∧
      ∃ config', run (loopNext plainCipher) onePut ((List.range 2).map fun _ => plainOpDraw) =
          some config' ∧
        moreOperationsExist config' = false ∧
        (collect (loopNext plainCipher) (loopYield plainCipher) onePut
          ((List.range 2).map fun _ => plainOpDraw)).length = 2 := by
  have hlines : lines onePut.seedData.rest = [ascii ['P', 'U', 'T', ' ', '1', ' ', '2', '\r']] := by decide
  have hun : ¬ Unterminated onePut.seedData.rest := fun h => h.2 (by decide)
  have hpieces : onePut.seedData.pieces = [ascii ['P', 'U', 'T', ' ', '1', ' ', '2', '\r'], []] := by
    decide
  obtain ⟨config', hrun, hend⟩ := @seed_run_ends plainCipher 2 (fun _ => plainOpDraw) onePut rfl
    (by rw [hpieces]; rfl) fun i line hline => by
      apply encryptFields_ok_iff.mpr
      have hmem := List.mem_of_getElem? hline
      rw [hpieces] at hmem
      have hshort : ∀ line ∈ [ascii ['P', 'U', 'T', ' ', '1', ' ', '2', '\r'], []],
          (lineFields line plainOpDraw).2.2.length ≤ 4084 := by decide
      exact hshort line hmem
  refine ⟨hlines, config', hrun, hend, ?_⟩
  have hlen := @seed_lines_length _ onePut config' onePut.seedData.rest 2 (fun _ => plainOpDraw) hrun hend hun
  rw [hlines] at hlen
  exact hlen

end Lines

/-! ### The generators' rows -/

/-- `chr(random.randint(0, 25) + ord("a"))`. -/
def randomChar (i : Fin 26) : UInt8 := UInt8.ofNat (i + 97)

/-- The loop of `ByteSizeGenerator.generate_value`, from its `i`-th round on. -/
def grow (draw : ℕ → Fin 26) (i : ℕ) (generated : Bytes) (remaining : ℤ) : Bytes :=
  if 0 < remaining then
    grow draw (i + 1) (generated ++ List.replicate (min 25 remaining).toNat (randomChar (draw i)))
      (remaining - 25)
  else generated
termination_by remaining.toNat

/-- What a value generator can return. -/
inductive Value
  | randomInteger (n : ℤ)
  | byteSize (numBytes : ℤ) (draw : ℕ → Fin 26)
  | fixedValue (value : Bytes)

/-- `str` of the value. -/
def Value.str : Value → Bytes
  | .randomInteger n => intToString n
  | .byteSize numBytes draw =>
    grow draw 0 (intToString numBytes) (numBytes - (intToString numBytes).length)
  | .fixedValue value => value

/-- A row of `generate_data` (`set`) or `generate_operations`. -/
inductive Row
  | set (key : ℤ) (value : Value)
  | put (key : ℤ) (value : Value)
  | get (key : ℤ)

def Row.fields : Row → List Bytes
  | .set key value => [ascii ['S', 'E', 'T'], intToString key, value.str]
  | .put key value => [ascii ['P', 'U', 'T'], intToString key, value.str]
  | .get key => [ascii ['G', 'E', 'T'], intToString key]

/-- `writer.writerow`, with `delimiter=" "`. -/
def Row.written (row : Row) : Bytes := csvRow 32 row.fields

/-- The operation, the key and the value that are read are those of the row. -/
def Row.ReadAs : Row → OpType × Bytes × Bytes → Prop
  | .set key value, fields => fields = (.put, intToString key, value.str)
  | .put key value, fields => fields = (.put, intToString key, value.str)
  | .get key, fields => fields.1 = .get ∧ fields.2.1 = intToString key

/-- No white space and no quotes. -/
def PlainText (s : Bytes) : Prop := ∀ c ∈ s, isSpace c = false ∧ c ≠ quote

instance (s : Bytes) : Decidable (PlainText s) :=
  List.decidableBAll (fun c => isSpace c = false ∧ c ≠ quote) s

def Row.Plain : Row → Prop
  | .set _ value => PlainText value.str
  | .put _ value => PlainText value.str
  | .get _ => True

theorem plainText_intToString (n : ℤ) : PlainText (intToString n) := by
  intro c hc
  rcases intToString_digits hc with rfl | ⟨hlow, -⟩
  · decide
  · have hlow' : 48 ≤ c.toNat := UInt8.le_iff_toNat_le.mp hlow
    have hspace : ¬ (c = 32 ∨ 9 ≤ c ∧ c ≤ 13) := by
      rintro (rfl | ⟨-, h13⟩)
      · exact absurd hlow' (by decide)
      · have hhigh : c.toNat ≤ 13 := UInt8.le_iff_toNat_le.mp h13
        omega
    refine ⟨by simpa [isSpace] using hspace, ?_⟩
    rintro rfl
    exact absurd hlow' (by decide)

theorem plainText_grow (draw : ℕ → Fin 26) (i : ℕ) (generated : Bytes) (remaining : ℤ)
    (h : PlainText generated) : PlainText (grow draw i generated remaining) := by
  induction i, generated, remaining using grow.induct draw with
  | case1 i generated remaining hpos ih =>
    rw [grow, if_pos hpos]
    apply ih
    intro c hc
    rcases List.mem_append.mp hc with hc | hc
    · exact h c hc
    · rw [List.eq_of_mem_replicate hc]
      have hletter : ∀ i : Fin 26, isSpace (randomChar i) = false ∧ randomChar i ≠ quote := by decide
      exact hletter _
  | case2 i generated remaining hpos =>
    rw [grow, if_neg hpos]
    exact h

/-- Only a configured string can be other than plain. -/
theorem plainText_str {value : Value} (h : ∀ text, value ≠ .fixedValue text) :
    PlainText value.str := by
  cases value with
  | randomInteger n => exact plainText_intToString n
  | byteSize numBytes draw => exact plainText_grow draw 0 _ _ (plainText_intToString numBytes)
  | fixedValue text => exact absurd rfl (h text)

/-- Nothing in a plain text is special. -/
theorem csvField_of_plainText {s : Bytes} (h : PlainText s) : csvField 32 s = s := by
  apply csvField_of_plain
  intro c hc
  obtain ⟨hspace, hquote⟩ := h c hc
  unfold isSpace at hspace
  unfold isSpecial
  have h32 : c ≠ 32 := by rintro rfl; simp at hspace
  have h13 : c ≠ 13 := by rintro rfl; simp at hspace
  have h10 : c ≠ 10 := by rintro rfl; simp at hspace
  simp [h32, hquote, h13, h10]

theorem newline_not_plain {s : Bytes} (h : ∀ c ∈ s, isSpace c = false) : newline ∉ s := fun hn =>
  absurd (h _ hn) (by decide)

/-- The first two words of a line, and what is left for the value. -/
theorem parseLine_append {operation key tail : Bytes} (hop : operation ≠ [])
    (hopw : ∀ c ∈ operation, isSpace c = false) (hkey : key ≠ []) (hkeyw : ∀ c ∈ key, isSpace c = false)
    (htail : ∀ c, tail.head? = some c → isSpace c = true) :
    parseLine (operation ++ 32 :: (key ++ tail)) = (operation, key, (readWord tail).1) := by
  have h1 : readWord (operation ++ 32 :: (key ++ tail)) = (operation, 32 :: (key ++ tail)) := by
    apply readWord_append hop hopw
    intro c hc
    rw [← Option.some.inj hc]
    rfl
  have h2 : readWord (32 :: (key ++ tail)) = (key, tail) := by
    rw [readWord_cons (by rfl)]
    exact readWord_append hkey hkeyw htail
  simp only [parseLine, h1, h2]

/-- The word that is read of a written value is the value if and only if it
is plain: it ends at white space, and it has the quotes that were added. -/
theorem readWord_csvField_iff {s rest : Bytes} :
    (readWord (32 :: (cutLine (csvField 32 s ++ 13 :: 10 :: rest)).1)).1 = s ↔ PlainText s := by
  rw [readWord_cons (by rfl)]
  have hcut : ∀ w : Bytes, (∀ c ∈ w, isSpace c = false) →
      (readWord (cutLine (w ++ 13 :: 10 :: rest)).1).1 = w := by
    intro w hw
    have hline : (cutLine (w ++ 13 :: 10 :: rest)).1 = w ++ [13] := by
      rw [cutLine_append (newline_not_plain hw)]
      rfl
    rw [hline]
    by_cases hnil : w = []
    · subst hnil
      rfl
    · rw [readWord_append hnil hw]
      intro c hc
      rw [← Option.some.inj hc]
      rfl
  constructor
  · intro h
    have hspace : ∀ c ∈ s, isSpace c = false := by
      intro c hc
      rw [← h] at hc
      exact not_isSpace_readWord hc
    refine fun c hc => ⟨hspace c hc, ?_⟩
    rintro rfl
    have hquoted : csvField 32 s = quoteField s := by
      rw [csvField, if_pos (List.any_eq_true.mpr ⟨quote, hc, by decide⟩)]
    have hword : ∀ c ∈ quoteField s, isSpace c = false := by
      intro c hc
      rcases mem_quoteField hc with rfl | hc
      · rfl
      · exact hspace c hc
    rw [hquoted, hcut _ hword] at h
    have hlen := quoteField_length s
    rw [h] at hlen
    omega
  · intro h
    rw [csvField_of_plainText h]
    exact hcut s fun c hc => (h c hc).1

/-- What is read of a line that starts with a row's first two fields. -/
theorem seedFields_row {config : ClientConfig} {operation tail : Bytes} (key : ℤ) (d : OpDraw)
    (hop : operation ≠ []) (hopw : ∀ c ∈ operation, isSpace c = false)
    (htail : ∀ c, (cutLine tail).1.head? = some c → isSpace c = true) :
    seedFields (config.opened (operation ++ 32 :: (intToString key ++ tail))) d =
      if operation = ascii ['G', 'E', 'T'] then (.get, intToString key, d.dummy)
      else (.put, intToString key, (readWord (cutLine tail).1).1) := by
  have hkeyw : ∀ c ∈ intToString key, isSpace c = false := fun c hc => (plainText_intToString key c hc).1
  have hline : (getline (config.opened (operation ++ 32 :: (intToString key ++ tail))).seedData).1 =
      operation ++ 32 :: (intToString key ++ (cutLine tail).1) := by
    have hstart : newline ∉ operation ++ 32 :: intToString key := by
      intro h
      rcases List.mem_append.mp h with h | h
      · exact newline_not_plain hopw h
      · rcases List.mem_cons.mp h with h | h
        · exact absurd h (by decide)
        · exact newline_not_plain hkeyw h
    have hcut : (cutLine ((operation ++ 32 :: intToString key) ++ tail)).1 =
        (operation ++ 32 :: intToString key) ++ (cutLine tail).1 := by rw [cutLine_append hstart]
    rw [List.append_assoc, List.append_assoc, List.cons_append, List.cons_append] at hcut
    unfold getline ClientConfig.opened
    rw [if_neg Bool.false_ne_true]
    split
    · exact hcut
    · exact hcut
  rw [seedFields, lineFields, hline, parseLine_append hop hopw (intToString_ne_nil key) hkeyw htail]

/-- A row of a value is read back if and only if the value is plain. -/
theorem value_row_iff {operation : Bytes} {config : ClientConfig} {key : ℤ} {s rest : Bytes} {d : OpDraw}
    (hop : operation ≠ []) (hplain : PlainText operation) (hget : operation ≠ ascii ['G', 'E', 'T']) :
    seedFields (config.opened (csvRow 32 [operation, intToString key, s] ++ rest)) d =
      (.put, intToString key, s) ↔ PlainText s := by
  have hrow : csvRow 32 [operation, intToString key, s] ++ rest =
      operation ++ 32 :: (intToString key ++ 32 :: (csvField 32 s ++ 13 :: 10 :: rest)) := by
    simp [csvRow, csvField_of_plainText hplain, csvField_of_plainText (plainText_intToString key),
      List.intercalate]
  have hcut : (cutLine (32 :: (csvField 32 s ++ 13 :: 10 :: rest))).1 =
      32 :: (cutLine (csvField 32 s ++ 13 :: 10 :: rest)).1 := rfl
  have htail : ∀ c, (cutLine (32 :: (csvField 32 s ++ 13 :: 10 :: rest))).1.head? = some c →
      isSpace c = true := by
    intro c hc
    rw [hcut, List.head?_cons, Option.some.injEq] at hc
    rw [← hc]
    rfl
  rw [hrow, seedFields_row key d hop (fun c hc => (hplain c hc).1) htail, if_neg hget, hcut,
    ← @readWord_csvField_iff s rest]
  simp

/-- `getSeedOperation` reads a generated row as it was meant if and only if
the row has no value, or one without white space and quotes. -/
theorem row_read_back_iff (row : Row) (config : ClientConfig) (rest : Bytes) (d : OpDraw) :
    row.ReadAs (seedFields (config.opened (row.written ++ rest)) d) ↔ row.Plain := by
  cases row with
  | set key value => exact value_row_iff (by decide) (by decide) (by decide)
  | put key value => exact value_row_iff (by decide) (by decide) (by decide)
  | get key =>
    have hplain : PlainText (ascii ['G', 'E', 'T']) := by decide
    have hrow : (Row.get key).written ++ rest =
        ascii ['G', 'E', 'T'] ++ 32 :: (intToString key ++ 13 :: 10 :: rest) := by
      simp [Row.written, Row.fields, csvRow, csvField_of_plainText hplain,
        csvField_of_plainText (plainText_intToString key), List.intercalate]
    have hread := @seedFields_row config (ascii ['G', 'E', 'T']) (13 :: 10 :: rest) key d
      (by decide) (fun c hc => (hplain c hc).1) (by
        intro c hc
        rw [← Option.some.inj hc]
        rfl)
    rw [if_pos rfl] at hread
    rw [hrow, hread]
    exact ⟨fun _ => trivial, fun _ => ⟨rfl, rfl⟩⟩

/-- A configured string with a space in it. -/
def spaced : Row := .put 1 (.fixedValue (ascii ['a', ' ', 'b']))

/-- It is written in quotes, and what is read is the quote and what is before the space. -/
theorem spaced_row_is_cut :
    spaced.written = ascii ['P', 'U', 'T', ' ', '1', ' ', '\"', 'a', ' ', 'b', '\"', '\r', '\n'] ∧
      seedFields (onePut.opened spaced.written) plainOpDraw =
        (.put, intToString 1, ascii ['\"', 'a']) ∧
      ¬ spaced.ReadAs (seedFields (onePut.opened spaced.written) plainOpDraw) := by
  have hread : seedFields (onePut.opened spaced.written) plainOpDraw =
      (.put, intToString 1, ascii ['\"', 'a']) := by decide
  refine ⟨by decide, hread, ?_⟩
  rw [hread]
  exact fun h => absurd (congrArg (fun f => f.2.2) h) (by decide)

end Tee
end Ortoa
