/-
# `data_generation`: the seed data and the operations

`generate_data` writes a row for each of the keys 1, 2, ...; `generate_operations`
reads the keys back from that file, draws its operations on them, and writes
these to another. The keys are read as they were written, whatever values
stand beside them, unless a value has a zero byte or is longer than a field
that `csv.reader` takes (`keys_read_back`).

The client reads both files in its own way (`clientUtils.cpp`). A value with
a newline in it ends a line, so that rows become several lines and words of
values become keys; and behind the last line there is one more, empty one.
But the other lines of a row are those of its value, which is the same in both
files if it can have a newline at all, and the empty line is there in both. So
every operation that the client makes of the operations is on a key that
`initDB` has filled from the seed data (`generated_keys_seeded`): none of them
takes the enclave down for a missing key.

`list(set)` can have any order; as `random.choice` can pick any of them, the
order in which they were added is as good.

Key definitions: `GenerationConfig`, `generateData`, `getKeysFromCsv`, `generateOperations`,
`generateFiles`, `seedsOf`.
Key theorems: `keys_read_back`, `pieces_rows`, `generated_keys_seeded`.
-/
import Ortoa.Tee.ClientUtils
import Ortoa.Tee.RequestsLinear

namespace Ortoa
namespace Tee

/-! ### The generators -/

/-- The exceptions of the generators. -/
inductive PyError
  | valueError
  | indexError
  | csvError
  deriving DecidableEq, Repr

/-- `ByteSizeGenerationConfig`, `RandomIntegerGenerationConfig` or
`FixedStringGenerator`, as far as the values depend on it. -/
inductive GenerationConfig
  | byteSize (nBytes : ℤ)
  | randomInteger (minimum maximum : ℤ)
  | fixedString (value : Bytes)
  deriving DecidableEq, Repr

/-- What a value draws. -/
structure ValueDraw where
  /-- What `randint` picks of its range. -/
  randint : ℕ
  chars : ℕ → Fin 26

/-- `generate_value` of the config's value generator. -/
def GenerationConfig.generateValue : GenerationConfig → ValueDraw → Except PyError Value
  | .byteSize nBytes, d => .ok (.byteSize nBytes d.chars)
  | .randomInteger minimum maximum, d =>
    if minimum ≤ maximum then .ok (.randomInteger (minimum + d.randint % (maximum - minimum + 1)))
    else .error .valueError
  | .fixedString value, _ => .ok (.fixedValue value)

structure SequentialIntKeyGenerator where
  key : ℤ

/-- `generate_key`. -/
def SequentialIntKeyGenerator.generateKey (g : SequentialIntKeyGenerator) :
    ℤ × SequentialIntKeyGenerator :=
  (g.key, ⟨g.key + 1⟩)

/-- `generate_data`: a draw for each of the data points. -/
def generateData (config : GenerationConfig) :
    SequentialIntKeyGenerator → List ValueDraw → Except PyError Bytes
  | _, [] => .ok []
  | keyGenerator, d :: ds =>
    match config.generateValue d with
    | .error e => .error e
    | .ok value => (generateData config keyGenerator.generateKey.2 ds).map fun rest =>
      (Row.set keyGenerator.generateKey.1 value).written ++ rest

/-- `res.add(row[1])`. -/
def addKey (res : List Bytes) (row : List Bytes) : Except PyError (List Bytes) :=
  match row[1]? with
  | some key => .ok (if res.any fun k => k = key then res else res ++ [key])
  | none => .error .indexError

/-- `get_keys_from_csv`. -/
def getKeysFromCsv (text : Bytes) : Except PyError (List Bytes) :=
  let reader := readRows 32 Reader.start (universalNewlines text)
  match reader.1.foldlM addKey [] with
  | .error e => .error e
  | .ok res => if reader.2.isSome then .error .csvError else .ok res

/-- What an operation draws. -/
structure OperationDraw where
  /-- `0 <= random_val < p_get`. -/
  isGet : Bool
  /-- Which of the keys `random.choice` picks. -/
  choice : ℕ
  value : ValueDraw

/-- The row of an operation. -/
def operationRow (config : GenerationConfig) (keys : List Bytes) (d : OperationDraw) :
    Except PyError (List Bytes) :=
  match keys[d.choice % keys.length]? with
  | none => .error .indexError
  | some key =>
    if d.isGet then .ok [ascii ['G', 'E', 'T'], key]
    else (config.generateValue d.value).map fun value => [ascii ['P', 'U', 'T'], key, value.str]

/-- `generate_operations`, with the keys that it has read. -/
def generateOperations (config : GenerationConfig) (keys : List Bytes) (draws : List OperationDraw) :
    Except PyError Bytes :=
  (draws.mapM (operationRow config keys)).map fun rows => rows.flatMap (csvRow 32)

/-- `generate_files`: the seed data and the operations. -/
def generateFiles (config : GenerationConfig) (seedDraws : List ValueDraw)
    (operationDraws : List OperationDraw) : Except PyError (Bytes × Bytes) :=
  match generateData config ⟨1⟩ seedDraws with
  | .error e => .error e
  | .ok seed =>
    match getKeysFromCsv seed with
    | .error e => .error e
    | .ok keys => (generateOperations config keys operationDraws).map fun operations => (seed, operations)

/-! ### The keys are read back -/

/-- The rows of the seed data, from a key on. -/
def dataRows : ℤ → List Value → List Row
  | _, [] => []
  | key, value :: values => .set key value :: dataRows (key + 1) values

/-- The first keys of the generator. -/
def keysFrom (key : ℤ) (n : ℕ) : List Bytes := (List.range n).map fun i : ℕ => intToString (key + i)

theorem keysFrom_succ (key : ℤ) (n : ℕ) :
    keysFrom key (n + 1) = intToString key :: keysFrom (key + 1) n := by
  unfold keysFrom
  rw [List.range_succ_eq_map, List.map_cons, List.map_map, Nat.cast_zero, add_zero]
  refine congrArg (intToString key :: ·) (List.map_congr_left fun i _ => ?_)
  rw [Function.comp_apply, Nat.succ_eq_add_one, Nat.cast_add, Nat.cast_one, add_assoc, add_comm (1 : ℤ)]

theorem keysFrom_nodup (key : ℤ) (n : ℕ) : (keysFrom key n).Nodup := by
  refine List.Nodup.map_on (fun i _ j _ h => ?_) List.nodup_range
  have hkey := intToString_injective h
  omega

variable {config : GenerationConfig}

/-- The seed data are the rows of the values that are generated. -/
theorem generateData_eq_ok : ∀ {draws : List ValueDraw} {key : ℤ} {text : Bytes},
    generateData config ⟨key⟩ draws = .ok text → ∃ values,
      List.Forall₂ (fun d v => config.generateValue d = .ok v) draws values ∧
        text = ((dataRows key values).map Row.fields).flatMap (csvRow 32)
  | [], _, _, h => ⟨[], .nil, (Except.ok.inj h).symm⟩
  | d :: draws, key, text, h => by
    unfold generateData at h
    cases hv : config.generateValue d with
    | error e =>
      rw [hv] at h
      cases h
    | ok value =>
      rw [hv] at h
      simp only [SequentialIntKeyGenerator.generateKey] at h
      cases hrest : generateData config ⟨key + 1⟩ draws with
      | error e =>
        rw [hrest] at h
        cases h
      | ok rest =>
        rw [hrest] at h
        obtain ⟨values, hvalues, rfl⟩ := generateData_eq_ok hrest
        exact ⟨value :: values, .cons hv hvalues, (Except.ok.inj h).symm⟩

/-- Adding keys that are new, one from each row. -/
theorem foldlM_addKey : ∀ {rows : List (List Bytes)} {keys res : List Bytes},
    rows.map (fun row => row[1]?) = keys.map some → (res ++ keys).Nodup →
    rows.foldlM addKey res = .ok (res ++ keys)
  | [], keys, res, h, _ => by
    rw [List.map_eq_nil_iff.mp h.symm, List.append_nil]
    rfl
  | row :: rows, [], _, h, _ => by cases h
  | row :: rows, key :: keys, res, h, hnodup => by
    obtain ⟨hrow, hrows⟩ := List.cons.inj h
    have hnew : ¬ (res.any fun k => k = key) = true := by
      intro hany
      obtain ⟨k, hk, heq⟩ := List.any_eq_true.mp hany
      rw [of_decide_eq_true heq] at hk
      exact (List.disjoint_of_nodup_append hnodup) hk List.mem_cons_self
    have hadd : addKey res row = .ok (res ++ [key]) := by
      have hrow' : row[1]? = some key := hrow
      unfold addKey
      rw [hrow']
      simp only [if_neg hnew]
    have hmore : res ++ key :: keys = res ++ [key] ++ keys := by simp
    rw [hmore] at hnodup ⊢
    rw [List.foldlM_cons, hadd]
    exact foldlM_addKey hrows hnodup

theorem delimiter_space : Delimiter 32 := ⟨by decide, by decide, by decide, by decide⟩

theorem notBlank_dataRows (key : ℤ) (values : List Value) :
    ∀ row ∈ (dataRows key values).map Row.fields, NotBlank row := by
  induction values generalizing key with
  | nil => exact fun _ h => absurd h List.not_mem_nil
  | cons value values ih => exact List.forall_mem_cons.mpr ⟨⟨by simp [Row.fields], by simp [Row.fields]⟩, ih _⟩

/-- Nothing in a plain text ends a line. -/
theorem universalNewlines_plain {s : Bytes} (h : PlainText s) : universalNewlines s = s := by
  refine universalNewlines_of_plain fun c hc => ?_
  rintro rfl
  exact absurd (h _ hc).1 (by decide)

/-- The keys of the rows, as they are read. -/
theorem keys_dataRows : ∀ (key : ℤ) (values : List Value),
    ((dataRows key values).map Row.fields).map (fun row => (row.map universalNewlines)[1]?) =
      (keysFrom key values.length).map some
  | _, [] => rfl
  | key, value :: values => by
    rw [List.length_cons, keysFrom_succ, dataRows, List.map_cons, List.map_cons, List.map_cons,
      keys_dataRows (key + 1) values]
    have hkey := universalNewlines_plain (plainText_intToString key)
    simp [Row.fields, hkey]

/-- Reading the keys of the seed data. -/
theorem getKeysFromCsv_dataRows (key : ℤ) (values : List Value) :
    ((∀ row ∈ (dataRows key values).map Row.fields, ∀ f ∈ row, Within (universalNewlines f)) →
      getKeysFromCsv (((dataRows key values).map Row.fields).flatMap (csvRow 32)) =
        .ok (keysFrom key values.length)) ∧
    (¬ (∀ row ∈ (dataRows key values).map Row.fields, ∀ f ∈ row, Within (universalNewlines f)) →
      getKeysFromCsv (((dataRows key values).map Row.fields).flatMap (csvRow 32)) = .error .csvError) := by
  obtain ⟨hread, hfail⟩ := readRows_csvRows delimiter_space (notBlank_dataRows key values)
  set rows := (dataRows key values).map Row.fields with hrows
  have hkeys : (rows.map (List.map universalNewlines)).map (fun row => row[1]?) =
      (keysFrom key values.length).map some := by
    rw [List.map_map]
    exact keys_dataRows key values
  have hnodup := keysFrom_nodup key values.length
  constructor
  · intro hall
    have hadd := @foldlM_addKey _ _ [] hkeys hnodup
    unfold getKeysFromCsv
    rw [hread hall]
    simp only [hadd]
    rfl
  · intro hnot
    obtain ⟨n, e, htake⟩ := hfail hnot
    have hfirst : ((rows.take n).map (List.map universalNewlines)).map (fun row => row[1]?) =
        ((keysFrom key values.length).take n).map some := by
      rw [List.map_take, List.map_take, hkeys, List.map_take]
    have hnodup' := hnodup.sublist (List.take_sublist n _)
    have hadd := @foldlM_addKey _ _ [] hfirst hnodup'
    unfold getKeysFromCsv
    rw [htake]
    simp only [hadd]
    rfl

/-- What the seed data must be for the keys to be read. -/
theorem within_dataRows {key : ℤ} {values : List Value} :
    (∀ row ∈ (dataRows key values).map Row.fields, ∀ f ∈ row, Within (universalNewlines f)) ↔
      (∀ k ∈ keysFrom key values.length, Within k) ∧
        ∀ v ∈ values, Within (universalNewlines v.str) := by
  induction values generalizing key with
  | nil => simp [dataRows, keysFrom]
  | cons value values ih =>
    have hset : Within (universalNewlines (ascii ['S', 'E', 'T'])) := by decide
    have hkey := universalNewlines_plain (plainText_intToString key)
    rw [dataRows, List.map_cons, List.forall_mem_cons, ih, List.length_cons, keysFrom_succ,
      List.forall_mem_cons, List.forall_mem_cons]
    simp only [Row.fields, List.forall_mem_cons, List.not_mem_nil, hset, hkey]
    tauto

def firstDraw : ValueDraw := ⟨0, fun _ => 0⟩

/-- A configured string on two lines, with a space and a quote. -/
def twoLines : GenerationConfig := .fixedString (ascii ['a', '\n', 'b', ' ', '\"'])

/-- The lines that a row is written on. -/
def rowLines (row : List Bytes) : List Bytes :=
  pieces (List.intercalate [32] (row.map (csvField 32)) ++ [13])

/-- The lines of a row behind its first. -/
def valueLines (s : Bytes) : List Bytes := (pieces (csvField 32 s ++ [13])).tail

/-- The key that is read of a line. -/
def lineKey (line : Bytes) : Bytes := (parseLine line).2.1

/-- The lines of the rows, and an empty one. -/
theorem pieces_rows : ∀ rows : List (List Bytes),
    pieces (rows.flatMap (csvRow 32)) = rows.flatMap rowLines ++ [[]]
  | [] => rfl
  | row :: rows => by
    have hrow : csvRow 32 row ++ rows.flatMap (csvRow 32) =
        (List.intercalate [32] (row.map (csvField 32)) ++ [13]) ++ newline :: rows.flatMap (csvRow 32) := by
      simp [csvRow, newline]
    rw [List.flatMap_cons, hrow, pieces_append, pieces_rows rows, List.flatMap_cons, List.append_assoc]
    rfl

theorem newline_not_mem_plain {s : Bytes} (h : PlainText s) : newline ∉ s :=
  newline_not_plain fun c hc => (h c hc).1

/-- The first line of a row has its operation and its key, the others are
those of the value. -/
theorem rowLines_value {operation key s : Bytes} (hop : PlainText operation) (hkey : PlainText key) :
    rowLines [operation, key, s] =
      (operation ++ 32 :: (key ++ 32 :: (cutLine (csvField 32 s ++ [13])).1)) :: valueLines s := by
  have hbody : List.intercalate [32] ([operation, key, s].map (csvField 32)) ++ [13] =
      (operation ++ 32 :: (key ++ [32])) ++ (csvField 32 s ++ [13]) := by
    simp [csvField_of_plainText hop, csvField_of_plainText hkey, List.intercalate]
  have hstart : newline ∉ operation ++ 32 :: (key ++ [32]) := by
    simp [newline_not_mem_plain hop, newline_not_mem_plain hkey, show newline ≠ 32 by decide]
  rw [rowLines, hbody, pieces_append_left hstart, valueLines]
  simp

theorem rowLines_get {operation key : Bytes} (hop : PlainText operation) (hkey : PlainText key) :
    rowLines [operation, key] = [operation ++ 32 :: (key ++ [13])] := by
  have hbody : List.intercalate [32] ([operation, key].map (csvField 32)) ++ [13] =
      (operation ++ 32 :: (key ++ [13])) ++ [] := by
    simp [csvField_of_plainText hop, csvField_of_plainText hkey, List.intercalate]
  have hstart : newline ∉ operation ++ 32 :: (key ++ [13]) := by
    simp [newline_not_mem_plain hop, newline_not_mem_plain hkey, show newline ≠ 32 by decide,
      show newline ≠ 13 by decide]
  rw [rowLines, hbody, pieces_append_left hstart]
  simp [pieces, cutLine]

/-- The key of a row's first line. -/
theorem lineKey_append {operation key tail : Bytes} (hop : operation ≠ []) (hopw : PlainText operation)
    (hkey : key ≠ []) (hkeyw : PlainText key) (htail : ∀ c, tail.head? = some c → isSpace c = true) :
    lineKey (operation ++ 32 :: (key ++ tail)) = key := by
  rw [lineKey, parseLine_append hop (fun c hc => (hopw c hc).1) hkey (fun c hc => (hkeyw c hc).1) htail]

/-- A value without white space and quotes has no lines of its own. -/
theorem valueLines_plain {s : Bytes} (h : PlainText s) : valueLines s = [] := by
  have hline : newline ∉ s ++ [13] := by
    simp [newline_not_mem_plain h, show newline ≠ 13 by decide]
  rw [valueLines, csvField_of_plainText h, ← List.append_nil (s ++ [13]), pieces_append_left hline]
  rfl

theorem generateValue_ne_fixedValue {d : ValueDraw} {v : Value}
    (hconfig : ∀ text, config ≠ .fixedString text) (h : config.generateValue d = .ok v) :
    ∀ text, v ≠ .fixedValue text := by
  intro text hv
  subst hv
  cases config with
  | byteSize nBytes => cases h
  | randomInteger minimum maximum =>
    simp only [GenerationConfig.generateValue] at h
    split at h <;> cases h
  | fixedString value => exact hconfig value rfl

/-- Only a configured string is not plain, and then it is the only value. -/
theorem generateValue_plain {d : ValueDraw} {v : Value} (hconfig : ∀ text, config ≠ .fixedString text)
    (h : config.generateValue d = .ok v) : PlainText v.str :=
  plainText_str (generateValue_ne_fixedValue hconfig h)

/-- Two values of one config have the same lines of their own. -/
theorem valueLines_eq {d d' : ValueDraw} {v v' : Value} (h : config.generateValue d = .ok v)
    (h' : config.generateValue d' = .ok v') : valueLines v.str = valueLines v'.str := by
  by_cases hconfig : ∀ text, config ≠ .fixedString text
  · rw [valueLines_plain (generateValue_plain hconfig h), valueLines_plain (generateValue_plain hconfig h')]
  · simp only [ne_eq, not_forall, not_not] at hconfig
    obtain ⟨text, rfl⟩ := hconfig
    cases h
    cases h'
    rfl

/-! ### The client's reading of the files -/

/-- The pair that `initDB` makes of a line. -/
def lineSeed (line : Bytes) (d : OpDraw) : Seed :=
  ⟨(lineFields line d).2.1, (lineFields line d).2.2, d.suffix⟩

/-- The pairs that `initDB` makes of the seed data. -/
def seedsOf (text : Bytes) (draw : ℕ → OpDraw) : List Seed :=
  (pieces text).mapIdx fun i line => lineSeed line (draw i)

theorem lineFields_key (line : Bytes) (d : OpDraw) : (lineFields line d).2.1 = lineKey line := by
  unfold lineFields lineKey
  simp only
  split <;> rfl

variable {E : Cipher}

theorem getInitKV_lineSeed {line : Bytes} {d : OpDraw} {o : Operation}
    (h : lineOperation E line d = .ok o) : getInitKV E (lineSeed line d) = .ok (o.key, o.value) := by
  unfold lineOperation encryptFields at h
  unfold getInitKV lineSeed
  split at h
  · rename_i value hvalue
    rw [← Except.ok.inj h]
    simp only [hvalue]
    rfl
  · cases h

/-- The loop of `initDB` over the seed data makes these pairs. -/
theorem initDB_of_run {client client' : ClientConfig} {text : Bytes} {n : ℕ} {draw : ℕ → OpDraw}
    (hrun : run (loopNext E) (client.opened text) ((List.range n).map draw) = some client')
    (hend : moreOperationsExist client' = false) (db : Db) :
    initDB E db (seedsOf text draw) = .ok (putBatch db
      ((collect (loopNext E) (loopYield E) (client.opened text) ((List.range n).map draw)).map
        fun o => (o.key, o.value))) := by
  have hops := collect_seed rfl hrun hend
  set ops := collect (loopNext E) (loopYield E) (client.opened text) ((List.range n).map draw)
  have hpieces : (client.opened text).seedData.pieces = pieces text := rfl
  rw [hpieces] at hops
  have hlen : (pieces text).length = ops.length := by
    have := congrArg List.length hops
    rw [List.length_map, List.length_mapIdx] at this
    exact this.symm
  have hpairs : List.Forall₂ (fun s o => getInitKV E s = .ok o) (seedsOf text draw)
      (ops.map fun o => (o.key, o.value)) := by
    refine List.forall₂_iff_get.mpr ⟨by simp [seedsOf, hlen], fun i hi hi' => ?_⟩
    have hi1 : i < (pieces text).length := by simpa [seedsOf] using hi
    have hi2 : i < ops.length := hlen ▸ hi1
    have hop : lineOperation E (pieces text)[i] (draw i) = .ok ops[i] := by
      have hget := congrArg (fun l => l[i]?) hops
      simp only [List.getElem?_map, List.getElem?_mapIdx, List.getElem?_eq_getElem hi1,
        List.getElem?_eq_getElem hi2, Option.map_some, Option.some.injEq] at hget
      exact hget.symm
    simpa [seedsOf] using getInitKV_lineSeed hop
  rw [initDB, mapM_eq_ok_iff.mpr hpairs]
  rfl

/-- What the loop makes are operations of the lines. -/
theorem mem_collect_seed : ∀ {draws : List OpDraw} {client client' : ClientConfig} {o : Operation},
    client.useSeed = true → run (loopNext E) client draws = some client' →
    o ∈ collect (loopNext E) (loopYield E) client draws →
    ∃ line ∈ client.seedData.pieces, ∃ d ∈ draws, lineOperation E line d = .ok o
  | [], _, _, _, _, _, ho => by cases ho
  | d :: draws, client, client', o, hseed, hrun, ho => by
    rw [run_cons, Option.bind_eq_some_iff] at hrun
    obtain ⟨client1, hnext, hrest⟩ := hrun
    rw [collect, hnext] at ho
    obtain ⟨heof, -, rfl⟩ := (loopNext_eq_some hseed).mp hnext
    rw [getline_eq heof]
    rcases List.mem_append.mp ho with ho | ho
    · refine ⟨_, List.mem_cons_self, d, List.mem_cons_self, ?_⟩
      unfold loopYield at ho
      rw [getOperation, if_pos hseed] at ho
      split at ho
      · rename_i o' hop
        rw [List.mem_singleton.mp ho]
        exact hop
      · cases ho
    · obtain ⟨line, hline, d', hd', hop⟩ := @mem_collect_seed draws
        { client with seedData := (getline client.seedData).2 } client' o hseed hrest ho
      exact ⟨line, List.mem_cons_of_mem _ hline, d', List.mem_cons_of_mem _ hd', hop⟩

/-! ### Every key is seeded -/

theorem operationRow_cases {keys : List Bytes} {d : OperationDraw} {row : List Bytes}
    (h : operationRow config keys d = .ok row) : ∃ key ∈ keys,
      row = [ascii ['G', 'E', 'T'], key] ∨
        ∃ v, config.generateValue d.value = .ok v ∧ row = [ascii ['P', 'U', 'T'], key, v.str] := by
  unfold operationRow at h
  split at h
  · cases h
  · rename_i key hkey
    refine ⟨key, List.mem_of_getElem? hkey, ?_⟩
    split at h
    · exact Or.inl (Except.ok.inj h).symm
    · cases hv : config.generateValue d.value with
      | error e =>
        rw [hv] at h
        cases h
      | ok v =>
        rw [hv] at h
        exact Or.inr ⟨v, rfl, (Except.ok.inj h).symm⟩

/-- What the two files are made of. -/
theorem generateFiles_eq_ok {seedDraws : List ValueDraw} {operationDraws : List OperationDraw}
    {seed operations : Bytes} (h : generateFiles config seedDraws operationDraws = .ok (seed, operations)) :
    ∃ values rows, List.Forall₂ (fun d v => config.generateValue d = .ok v) seedDraws values ∧
      seed = ((dataRows 1 values).map Row.fields).flatMap (csvRow 32) ∧
      List.Forall₂ (fun d row => operationRow config (keysFrom 1 values.length) d = .ok row)
        operationDraws rows ∧ operations = rows.flatMap (csvRow 32) ∧
      ∀ v ∈ values, Within (universalNewlines v.str) := by
  unfold generateFiles at h
  cases hdata : generateData config ⟨1⟩ seedDraws with
  | error e =>
    rw [hdata] at h
    cases h
  | ok text =>
    obtain ⟨values, hvalues, rfl⟩ := generateData_eq_ok hdata
    obtain ⟨hok, herror⟩ := getKeysFromCsv_dataRows 1 values
    rw [hdata] at h
    simp only at h
    by_cases hwithin : ∀ row ∈ (dataRows 1 values).map Row.fields, ∀ f ∈ row, Within (universalNewlines f)
    · rw [hok hwithin] at h
      unfold generateOperations at h
      cases hrows : operationDraws.mapM (operationRow config (keysFrom 1 values.length)) with
      | error e =>
        simp only [hrows] at h
        cases h
      | ok rows =>
        simp only [hrows] at h
        obtain ⟨rfl, rfl⟩ := Prod.mk.inj (Except.ok.inj h)
        exact ⟨values, rows, hvalues, rfl, mapM_eq_ok_iff.mp hrows, rfl, (within_dataRows.mp hwithin).2⟩
    · rw [herror hwithin] at h
      cases h

/-- Every key is that of a row. -/
theorem mem_dataRows {k : Bytes} : ∀ {key : ℤ} {values : List Value}, k ∈ keysFrom key values.length →
    ∃ n v, v ∈ values ∧ Row.set n v ∈ dataRows key values ∧ intToString n = k
  | _, [], h => by cases h
  | key, value :: values, h => by
    rw [List.length_cons, keysFrom_succ] at h
    rcases List.mem_cons.mp h with rfl | h
    · exact ⟨key, value, List.mem_cons_self, List.mem_cons_self, rfl⟩
    · obtain ⟨n, v, hv, hrow, hk⟩ := mem_dataRows h
      exact ⟨n, v, List.mem_cons_of_mem _ hv, List.mem_cons_of_mem _ hrow, hk⟩

theorem plainText_of_mem_keysFrom {k : Bytes} {key : ℤ} {n : ℕ} (h : k ∈ keysFrom key n) :
    PlainText k ∧ k ≠ [] := by
  obtain ⟨i, -, rfl⟩ := List.mem_map.mp h
  exact ⟨plainText_intToString _, intToString_ne_nil _⟩

/-- The lines of an operation's row have the keys of lines of the seed data. -/
theorem rowLines_seeded {values : List Value} {d : OperationDraw} {row : List Bytes} {line : Bytes}
    (hvalues : ∀ v ∈ values, ∃ d, config.generateValue d = .ok v)
    (hrow : operationRow config (keysFrom 1 values.length) d = .ok row) (hline : line ∈ rowLines row) :
    ∃ line' ∈ pieces (((dataRows 1 values).map Row.fields).flatMap (csvRow 32)),
      lineKey line' = lineKey line := by
  obtain ⟨key, hkey, hcases⟩ := operationRow_cases hrow
  obtain ⟨hplain, hne⟩ := plainText_of_mem_keysFrom hkey
  obtain ⟨n, v, hv, hmem, rfl⟩ := mem_dataRows hkey
  have hset : rowLines (Row.set n v).fields =
      (ascii ['S', 'E', 'T'] ++ 32 :: (intToString n ++ 32 :: (cutLine (csvField 32 v.str ++ [13])).1)) ::
        valueLines v.str := rowLines_value (by decide) hplain
  have hseed : ∀ line ∈ rowLines (Row.set n v).fields,
      line ∈ pieces (((dataRows 1 values).map Row.fields).flatMap (csvRow 32)) := by
    intro line hline
    rw [pieces_rows]
    exact List.mem_append_left _ (List.mem_flatMap.mpr ⟨_, List.mem_map_of_mem hmem, hline⟩)
  have hspace : ∀ (tail : Bytes) (c : UInt8), (32 :: tail).head? = some c → isSpace c = true := by
    intro tail c hc
    rw [← Option.some.inj hc]
    rfl
  -- the first line of the key's row
  have hfirst : ∃ line' ∈ pieces (((dataRows 1 values).map Row.fields).flatMap (csvRow 32)),
      lineKey line' = intToString n := by
    refine ⟨_, hseed _ (hset ▸ List.mem_cons_self), ?_⟩
    exact lineKey_append (by decide) (by decide) hne hplain (hspace _)
  rcases hcases with rfl | ⟨v', hv', rfl⟩
  · rw [rowLines_get (by decide) hplain, List.mem_singleton] at hline
    rw [hline, lineKey_append (by decide) (by decide) hne hplain fun c hc => by
      rw [← Option.some.inj hc]
      rfl]
    exact hfirst
  · rw [rowLines_value (by decide) hplain] at hline
    rcases List.mem_cons.mp hline with rfl | hline
    · rw [lineKey_append (by decide) (by decide) hne hplain (hspace _)]
      exact hfirst
    · -- a line of the value
      obtain ⟨d', hd'⟩ := hvalues v hv
      rw [valueLines_eq hv' hd'] at hline
      exact ⟨line, hseed line (hset ▸ List.mem_cons_of_mem _ hline), rfl⟩

theorem seededKey_seedsOf {text line : Bytes} (draw : ℕ → OpDraw) (h : line ∈ pieces text) :
    Requests.seededKey (seedsOf text draw) (lineKey line) := by
  obtain ⟨i, hi, rfl⟩ := List.getElem_of_mem h
  refine ⟨lineSeed (pieces text)[i] (draw i), ?_, lineFields_key _ _⟩
  exact List.mem_iff_getElem.mpr ⟨i, by simpa [seedsOf] using hi, by simp [seedsOf]⟩

/-- Every line of the operations has the key of a pair of `initDB`. -/
theorem lineKey_seeded {seedDraws : List ValueDraw} {operationDraws : List OperationDraw}
    {seed operations line : Bytes}
    (h : generateFiles config seedDraws operationDraws = .ok (seed, operations)) (initDraw : ℕ → OpDraw)
    (hline : line ∈ pieces operations) : Requests.seededKey (seedsOf seed initDraw) (lineKey line) := by
  obtain ⟨values, rows, hvalues, rfl, hrows, rfl, -⟩ := generateFiles_eq_ok h
  rw [pieces_rows] at hline
  rcases List.mem_append.mp hline with hmem | hmem
  · obtain ⟨row, hrow, hmem⟩ := List.mem_flatMap.mp hmem
    obtain ⟨d, hd⟩ := forall₂_mem_right hrows hrow
    obtain ⟨line', hline', hkey⟩ := rowLines_seeded (fun v hv => forall₂_mem_right hvalues hv) hd hmem
    exact hkey ▸ seededKey_seedsOf initDraw hline'
  · -- the empty line
    rw [List.mem_singleton.mp hmem]
    apply seededKey_seedsOf
    rw [pieces_rows]
    exact List.mem_append_right _ List.mem_cons_self

/-- Whatever is drawn, every operation that the client makes of the generated
operations is on a key that `initDB` has filled from the generated seed data:
also those that it makes of further lines of a value, and of what is behind
the last line. -/
theorem generated_keys_seeded (E : Cipher) {seedDraws : List ValueDraw}
    {operationDraws : List OperationDraw} {seed operations : Bytes}
    (h : generateFiles config seedDraws operationDraws = .ok (seed, operations)) (initDraw : ℕ → OpDraw)
    {client client' : ClientConfig} {draws : List OpDraw}
    (hrun : run (loopNext E) (client.opened operations) draws = some client') :
    ∀ o ∈ collect (loopNext E) (loopYield E) (client.opened operations) draws,
      Requests.seededKey (seedsOf seed initDraw) o.key := by
  intro o ho
  obtain ⟨line, hline, d, -, hop⟩ := mem_collect_seed rfl hrun ho
  have hkey : o.key = lineKey line := (encryptFields_key hop).trans (lineFields_key line d)
  rw [hkey]
  exact lineKey_seeded h initDraw hline

/-- One PUT of the first key. -/
def onePutDraw : OperationDraw := ⟨false, 0, firstDraw⟩

def twoLinesSeed : Bytes :=
  ascii ['S', 'E', 'T', ' ', '1', ' ', '\"', 'a', '\n', 'b', ' ', '\"', '\"', '\"', '\r', '\n']

def twoLinesOperations : Bytes :=
  ascii ['P', 'U', 'T', ' ', '1', ' ', '\"', 'a', '\n', 'b', ' ', '\"', '\"', '\"', '\r', '\n']

theorem generateFiles_twoLines :
    generateFiles twoLines [firstDraw] [onePutDraw] = .ok (twoLinesSeed, twoLinesOperations) := by
  decide

theorem generated_keys_seeded_twoLines : ∃ client',
    run (loopNext plainCipher) (onePut.opened twoLinesOperations) ((List.range 3).map fun _ => plainOpDraw) =
      some client' ∧
    ∀ o ∈ collect (loopNext plainCipher) (loopYield plainCipher) (onePut.opened twoLinesOperations)
        ((List.range 3).map fun _ => plainOpDraw),
      Requests.seededKey (seedsOf twoLinesSeed fun _ => plainOpDraw) o.key := by
  have hpieces : (onePut.opened twoLinesOperations).seedData.pieces =
      [ascii ['P', 'U', 'T', ' ', '1', ' ', '\"', 'a'], ascii ['b', ' ', '\"', '\"', '\"', '\r'], []] := by
    decide
  obtain ⟨client', hrun, -⟩ := @seed_run_ends plainCipher 3 (fun _ => plainOpDraw)
    (onePut.opened twoLinesOperations) rfl (by rw [hpieces]; rfl) fun i line hline => by
      apply encryptFields_ok_iff.mpr
      have hmem := List.mem_of_getElem? hline
      rw [hpieces] at hmem
      have hshort : ∀ line ∈ [ascii ['P', 'U', 'T', ' ', '1', ' ', '\"', 'a'],
          ascii ['b', ' ', '\"', '\"', '\"', '\r'], []],
          (lineFields line plainOpDraw).2.2.length ≤ 4084 := by decide
      exact hshort line hmem
  exact ⟨client', hrun, generated_keys_seeded plainCipher generateFiles_twoLines _ hrun⟩
end Tee
end Ortoa
