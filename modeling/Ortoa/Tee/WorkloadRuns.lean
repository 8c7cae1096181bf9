/-
# Runs over a generated workload

A PUT needs room: its ciphertext must not be longer than the one it replaces.
If all values that a generation config can give are encrypted to ciphertexts
of one length (`SameBlocks`, as those of `ByteSizeGenerationConfig` always
are), then every PUT of the generated operations finds room, in any
interleaving, because the sizes of entries never change (`Level.step`). So
all requests are answered: the enclave stays up, and what is answered has
been seeded or written (`answered_iff_sameBlocks`). If they are not, then a
PUT of a longer value over a shorter one can be answered with something that
does not even decrypt, whatever the cipher.

Key definitions: `Level`, `FromFile`, `SameBlocks`, `Answered`.
Key theorems: `Level.step`, `sameBlocks_byteSize`, `origins_of_sameBlocks`, `answered_iff_sameBlocks`.
-/
import Ortoa.Tee.Workload

namespace Ortoa
namespace Tee
namespace Requests

variable {E : Cipher} {w w' : State}

/-! ### Entries that keep their sizes -/

section Sizes

variable {size : Bytes → ℕ} {keys : Bytes → Prop} {P : Bytes → Bytes → Prop}

/-- The ciphertext that a PUT makes has the size of its key. -/
def PutLevel (E : Cipher) (size : Bytes → ℕ) (o : Operation) : Prop :=
  o.op ≠ .get → ∀ s, (encryptNonDeterministic E (putValue E o) s).length = size o.key

/-- What a call carries has the size of its key. -/
def CallLevel (E : Cipher) (size : Bytes → ℕ) : Pc → Prop
  | .called o => PutLevel E size o
  | .got o rdValue => PutLevel E size o ∧ rdValue.length = size o.key
  | .computed o updatedVal => updatedVal.length = size o.key
  | _ => True

/-- Every entry has the size of its key. -/
structure Level (E : Cipher) (size : Bytes → ℕ) (keys : Bytes → Prop) (w : State) : Prop where
  entry : ∀ key, keys key → (get w.db key).length = size key
  calls : ∀ i, CallLevel E size (w.calls i)

theorem Level.goto (h : Level E size keys w) {i : ℕ} {pc : Pc} (hpc : CallLevel E size pc) :
    Level E size keys (w.goto i pc) := by
  refine ⟨h.entry, fun j => ?_⟩
  by_cases hj : j = i
  · rw [hj, goto_calls_self]
    exact hpc
  · rw [goto_calls_ne _ _ _ hj]
    exact h.calls j

/-- So a PUT finds room. -/
theorem Level.room (h : Level E size keys w) (a : Act) : Room E w a := by
  cases a with
  | call i o => trivial
  | step i d =>
    have hi := h.calls i
    simp only [Room]
    split
    · rename_i o rdValue hpc
      rw [hpc] at hi
      intro hop
      rw [hi.1 hop d.suffix, hi.2]
    · trivial

/-- A GET re-encrypts what it has read, and a PUT its own value. -/
theorem compute_length {i : ℕ} {d : Draw} {o : Operation} {rdValue out : Bytes} (h : Holds E keys P w)
    (hlevel : CallLevel E size (.got o rdValue)) (hpc : w.calls i = .got o rdValue)
    (hcall : accessDataCall E w.enclaveUp o.op rdValue o.value d = .ok out) :
    out.length = size o.key := by
  have hi := h.calls i
  rw [hpc] at hi
  obtain ⟨hasked, u, hu, hcipher, -⟩ := hi
  obtain ⟨v, hdec, -, rfl⟩ := accessDataCall_inv hcall
  have hlen : (outVal rdValue.length (encryptNonDeterministic E v d.suffix) d).length =
      (encryptNonDeterministic E v d.suffix).length := by simp [outVal]
  rw [hlen]
  by_cases hop : o.op = .get
  · rw [if_pos hop, hcipher.opens hu, Except.ok.injEq] at hdec
    subst hdec
    obtain ⟨s, hs⟩ := hcipher
    rw [← hlevel.2, hs, encryptNonDeterministic_length, encryptNonDeterministic_length]
  · rw [if_neg hop, (hasked.value hop).2, Except.ok.injEq] at hdec
    rw [← hdec]
    exact hlevel.1 hop d.suffix

/-- No step changes a size. -/
theorem Level.step {a : Act} (h : Level E size keys w) (hH : Holds E keys P w)
    (hput : ∀ i o, a = .call i o → PutLevel E size o) (hnext : next E w a = some w') :
    Level E size keys w' := by
  cases a with
  | call i o =>
    simp only [next] at hnext
    split at hnext
    · rw [Option.some.injEq] at hnext
      subst hnext
      exact h.goto (hput i o rfl)
    · cases hnext
  | step i d =>
    have hi := h.calls i
    cases callStep_of_stepCall hnext with
    | get o hpc =>
      rw [hpc] at hi
      have hasked := hH.calls i
      rw [hpc] at hasked
      exact h.goto ⟨hi, h.entry o.key hasked.key⟩
    | compute o rdValue updatedVal hpc hcall =>
      rw [hpc] at hi
      exact h.goto (compute_length hH hi hpc hcall)
    | abort o rdValue hpc hcall => exact absurd hcall ((hH.compute hpc (h.room (.step i d))).1 .abort)
    | put o updatedVal hpc =>
      rw [hpc] at hi
      have hentry : Level E size keys { w with db := put w.db o.key updatedVal } := by
        refine ⟨fun key hkey => ?_, h.calls⟩
        by_cases hk : key = o.key
        · rw [hk]
          exact (congrArg List.length (get_put_self _ _ _)).trans hi
        · exact (congrArg List.length (get_put_ne _ _ hk)).trans (h.entry key hkey)
      exact hentry.goto trivial
    | ret o updatedVal hpc => exact h.goto trivial

/-- Requests whose PUTs have the sizes of their keys find room along every run. -/
theorem origins_of_level {seeds : List Seed} {db0 db : Db} (hinit : initDB E db0 seeds = .ok db)
    (hnul : ∀ s ∈ seeds, (0 : UInt8) ∉ s.value)
    (hsize : ∀ key, seededKey seeds key → (get db key).length = size key) {as : List Act}
    (has : ∀ a ∈ as, Asks E (seededKey seeds) a ∧ ∀ i o, a = .call i o → PutLevel E size o)
    (hrun : run (next E) (initial db) as = some w) :
    Origins E seeds db as w ∧ Level E size (seededKey seeds) w := by
  refine run_inv (next E) (fun as w => Origins E seeds db as w ∧ Level E size (seededKey seeds) w)
    ⟨origins_initial hinit hnul, hsize, fun i => ?_⟩ ?_ (along_of_forall (next E) (initial db) has) hrun
  · exact (trivial : CallLevel E size .idle)
  · intro as w a w' hrun hI hC hnext
    exact ⟨hI.1.step hrun hC.1 (hI.2.room a) hnext, hI.2.step hI.1.1 hC.2 hnext⟩

end Sizes

/-! ### What the client reads of the files -/

section Reading

variable {config : GenerationConfig}

/-- What the client reads of a value in its row. -/
def readValue (s : Bytes) : Bytes := (readWord (32 :: (cutLine (csvField 32 s ++ [13])).1)).1

theorem newline_not_mem_csvField {s : Bytes} (h : newline ∉ s) : newline ∉ csvField 32 s := by
  unfold csvField
  split
  · intro hmem
    rcases mem_quoteField hmem with hquote | hs
    · exact absurd hquote (by decide)
    · exact h hs
  · exact h

/-- The line of a value without newlines. -/
theorem cutLine_csvField {s : Bytes} (h : newline ∉ s) :
    cutLine (csvField 32 s ++ [13]) = (csvField 32 s ++ [13], none) := by
  have hline : newline ∉ csvField 32 s ++ [13] := by
    simp [newline_not_mem_csvField h, show newline ≠ 13 by decide]
  have hcut := cutLine_append hline []
  simpa [cutLine] using hcut

theorem valueLines_oneLine {s : Bytes} (h : newline ∉ s) : valueLines s = [] := by
  rw [valueLines, pieces_cutLine, cutLine_csvField h]
  rfl

theorem readValue_plain {s : Bytes} (h : PlainText s) : readValue s = s := by
  have hspace : ∀ c ∈ s, isSpace c = false := fun c hc => (h c hc).1
  rw [readValue, cutLine_csvField (newline_not_mem_plain h), csvField_of_plainText h,
    readWord_cons (by rfl)]
  by_cases hs : s = []
  · subst hs
    rfl
  · rw [readWord_append hs hspace]
    intro c hc
    rw [← Option.some.inj hc]
    rfl

theorem nul_free_readValue {s : Bytes} (hline : newline ∉ s) (h : (0 : UInt8) ∉ s) :
    (0 : UInt8) ∉ readValue s := by
  intro hmem
  have hsub : (0 : UInt8) ∈ 32 :: (csvField 32 s ++ [13]) := by
    rw [readValue, cutLine_csvField hline] at hmem
    exact (List.dropWhile_sublist _).subset ((List.takeWhile_sublist _).subset hmem)
  have hfield : (0 : UInt8) ∈ csvField 32 s := by
    simpa using hsub
  unfold csvField at hfield
  split at hfield
  · rcases mem_quoteField hfield with hquote | hs
    · exact absurd hquote (by decide)
    · exact h hs
  · exact h hfield

/-- The line of a row is read as its operation, its key, and what is read of its value. -/
theorem lineFields_row {operation key s line : Bytes} {d : OpDraw} (hne : operation ≠ [])
    (hop : PlainText operation) (hget : operation ≠ ascii ['G', 'E', 'T']) (hkey : key ≠ [])
    (hplain : PlainText key) (hs : newline ∉ s) (h : line ∈ rowLines [operation, key, s]) :
    lineFields line d = (.put, key, readValue s) := by
  rw [rowLines_value hop hplain, valueLines_oneLine hs, List.mem_singleton] at h
  subst h
  have hparse : parseLine (operation ++ 32 :: (key ++ 32 :: (cutLine (csvField 32 s ++ [13])).1)) =
      (operation, key, readValue s) := by
    refine parseLine_append hne (fun c hc => (hop c hc).1) hkey (fun c hc => (hplain c hc).1) ?_
    intro c hc
    rw [← Option.some.inj hc]
    rfl
  unfold lineFields
  rw [hparse]
  exact if_neg hget

/-- What the client can read of a line that is no GET, in a file with these values. -/
def Reads (V : Value → Prop) (key value : Bytes) : Prop :=
  (key = [] ∧ value = []) ∨ key ≠ [] ∧ ∃ v, V v ∧ value = readValue v.str

/-- The values of a config. -/
def Generates (config : GenerationConfig) (v : Value) : Prop := ∃ d, config.generateValue d = .ok v

theorem mem_fields_dataRows {row : List Bytes} : ∀ {key : ℤ} {values : List Value},
    row ∈ (dataRows key values).map Row.fields →
    ∃ n v, v ∈ values ∧ row = [ascii ['S', 'E', 'T'], intToString n, v.str]
  | _, [], h => by cases h
  | key, value :: values, h => by
    rcases List.mem_cons.mp h with rfl | h
    · exact ⟨key, value, List.mem_cons_self, rfl⟩
    · obtain ⟨n, v, hv, hrow⟩ := mem_fields_dataRows h
      exact ⟨n, v, List.mem_cons_of_mem _ hv, hrow⟩

/-- The config gives values on one line, without zero bytes. -/
def OneLine (config : GenerationConfig) : Prop :=
  ∀ v, Generates config v → newline ∉ v.str ∧ (0 : UInt8) ∉ v.str

/-- What is read of the seed data. -/
theorem reads_dataRows {key : ℤ} {values : List Value} {line : Bytes} {d : OpDraw}
    (hlines : ∀ v ∈ values, newline ∉ v.str)
    (hline : line ∈ pieces (((dataRows key values).map Row.fields).flatMap (csvRow 32))) :
    Reads (· ∈ values) (lineSeed line d).key (lineSeed line d).value := by
  rw [pieces_rows] at hline
  rcases List.mem_append.mp hline with hline | hline
  · obtain ⟨row, hrow, hline⟩ := List.mem_flatMap.mp hline
    obtain ⟨n, v, hv, rfl⟩ := mem_fields_dataRows hrow
    have hread := @lineFields_row _ _ _ _ d (by decide) (by decide) (by decide) (intToString_ne_nil n)
      (plainText_intToString n) (hlines v hv) hline
    rw [lineSeed, hread]
    exact Or.inr ⟨intToString_ne_nil n, v, hv, rfl⟩
  · rw [List.mem_singleton.mp hline]
    exact Or.inl ⟨rfl, rfl⟩

/-- What is read of the operations. -/
theorem reads_operations {keys : List Bytes} {draws : List OperationDraw} {rows : List (List Bytes)}
    {line : Bytes} {d : OpDraw} (hlines : OneLine config) (hkeys : ∀ k ∈ keys, PlainText k ∧ k ≠ [])
    (hrows : List.Forall₂ (fun d row => operationRow config keys d = .ok row) draws rows)
    (hline : line ∈ pieces (rows.flatMap (csvRow 32))) : (lineFields line d).1 = .get ∨
      Reads (Generates config) (lineFields line d).2.1 (lineFields line d).2.2 := by
  rw [pieces_rows] at hline
  rcases List.mem_append.mp hline with hline | hline
  · obtain ⟨row, hrow, hline⟩ := List.mem_flatMap.mp hline
    obtain ⟨d', hd'⟩ := forall₂_mem_right hrows hrow
    obtain ⟨key, hkey, rfl | ⟨v, hv, rfl⟩⟩ := operationRow_cases hd'
    · left
      obtain ⟨hplain, hne⟩ := hkeys key hkey
      rw [rowLines_get (by decide) hplain, List.mem_singleton] at hline
      have hget : PlainText (ascii ['G', 'E', 'T']) := by decide
      have hparse : parseLine line = (ascii ['G', 'E', 'T'], key, (readWord [13]).1) := by
        rw [hline]
        refine parseLine_append (by decide) (fun c hc => (hget c hc).1) hne (fun c hc => (hplain c hc).1) ?_
        intro c hc
        rw [← Option.some.inj hc]
        rfl
      unfold lineFields
      rw [hparse]
      rfl
    · right
      obtain ⟨hplain, hne⟩ := hkeys key hkey
      rw [lineFields_row (by decide) (by decide) (by decide) hne hplain (hlines v ⟨_, hv⟩).1 hline]
      exact Or.inr ⟨hne, v, ⟨_, hv⟩, rfl⟩
  · right
    rw [List.mem_singleton.mp hline]
    exact Or.inl ⟨rfl, rfl⟩

theorem Reads.nul_free (hlines : OneLine config) {key value : Bytes}
    (h : Reads (Generates config) key value) : (0 : UInt8) ∉ value := by
  rcases h with ⟨-, rfl⟩ | ⟨-, v, hv, rfl⟩
  · exact List.not_mem_nil
  · exact nul_free_readValue (hlines v hv).1 (hlines v hv).2

/-! ### Values of one size -/

/-- The number of blocks that a value is encrypted to. -/
def blocks (v : Bytes) : ℕ := (v.length + 11) / 16 + 1

/-- All values of the config are encrypted to the same number of blocks. -/
def SameBlocks (config : GenerationConfig) : Prop :=
  ∀ v v', Generates config v → Generates config v' → blocks v.str = blocks v'.str

/-- Only the values of a configured string are not plain, and they are all the same. -/
theorem generates_cases {v v' : Value} (hv : Generates config v) (hv' : Generates config v') :
    v = v' ∨ PlainText v.str ∧ PlainText v'.str := by
  obtain ⟨d, hd⟩ := hv
  obtain ⟨d', hd'⟩ := hv'
  by_cases hconfig : ∀ text, config ≠ .fixedString text
  · exact Or.inr ⟨generateValue_plain hconfig hd, generateValue_plain hconfig hd'⟩
  · simp only [ne_eq, not_forall, not_not] at hconfig
    obtain ⟨text, rfl⟩ := hconfig
    cases hd
    cases hd'
    exact Or.inl rfl

/-- Then the size of an entry is known from its key. -/
theorem exists_size (h : SameBlocks config) :
    ∃ size : Bytes → ℕ, ∀ key value, Reads (Generates config) key value → 16 * blocks value = size key := by
  by_cases hany : ∃ v, Generates config v
  · obtain ⟨v, hv⟩ := hany
    refine ⟨fun key => if key = [] then 16 else 16 * blocks (readValue v.str), ?_⟩
    rintro key value (⟨rfl, rfl⟩ | ⟨hkey, v', hv', rfl⟩)
    · rfl
    · have hread : blocks (readValue v'.str) = blocks (readValue v.str) := by
        rcases generates_cases hv' hv with rfl | ⟨hplain', hplain⟩
        · rfl
        · rw [readValue_plain hplain', readValue_plain hplain, h v' v hv' hv]
      rw [hread]
      exact (if_neg hkey).symm
  · refine ⟨fun _ => 16, ?_⟩
    rintro key value (⟨rfl, rfl⟩ | ⟨hkey, v', hv', rfl⟩)
    · rfl
    · exact absurd ⟨v', hv'⟩ hany

/-! ### The configs -/

theorem grow_length (draw : ℕ → Fin 26) (i : ℕ) (generated : Bytes) (remaining : ℤ) :
    (grow draw i generated remaining).length = generated.length + remaining.toNat := by
  induction i, generated, remaining using grow.induct draw with
  | case1 i generated remaining hpos ih =>
    rw [grow, if_pos hpos, ih, List.length_append, List.length_replicate]
    omega
  | case2 i generated remaining hpos =>
    rw [grow, if_neg hpos]
    omega

/-- The values of `ByteSizeGenerator` have the size asked for, or that of its numeral. -/
theorem byteSize_length {nBytes : ℤ} {v : Value} (h : Generates (.byteSize nBytes) v) :
    v.str.length = max (intToString nBytes).length nBytes.toNat := by
  obtain ⟨d, hd⟩ := h
  cases hd
  rw [Value.str, grow_length]
  omega

theorem sameBlocks_byteSize (nBytes : ℤ) : SameBlocks (.byteSize nBytes) := by
  intro v v' hv hv'
  rw [blocks, blocks, byteSize_length hv, byteSize_length hv']

/-- Letters, digits and the minus sign. -/
theorem nul_free_str {v : Value} (h : ∀ text, v ≠ .fixedValue text) : (0 : UInt8) ∉ v.str := by
  have hnumeral : ∀ n : ℤ, (0 : UInt8) ∉ intToString n := by
    intro n hmem
    rcases intToString_digits hmem with h | h
    · exact absurd h (by decide)
    · exact absurd h.1 (by decide)
  have hgrow : ∀ (draw : ℕ → Fin 26) (i : ℕ) (generated : Bytes) (remaining : ℤ),
      (0 : UInt8) ∉ generated → (0 : UInt8) ∉ grow draw i generated remaining := by
    intro draw i generated remaining
    induction i, generated, remaining using grow.induct draw with
    | case1 i generated remaining hpos ih =>
      intro hnul
      rw [grow, if_pos hpos]
      refine ih fun hmem => ?_
      rcases List.mem_append.mp hmem with hmem | hmem
      · exact hnul hmem
      · have hletter : ∀ i : Fin 26, (0 : UInt8) ≠ randomChar i := by decide
        exact hletter _ (List.eq_of_mem_replicate hmem)
    | case2 i generated remaining hpos =>
      intro hnul
      rw [grow, if_neg hpos]
      exact hnul
  cases v with
  | randomInteger n => exact hnumeral n
  | byteSize numBytes draw => exact hgrow draw 0 _ _ (hnumeral numBytes)
  | fixedValue text => exact absurd rfl (h text)

/-- Only a configured string can be on several lines. -/
theorem oneLine_of_ne (h : ∀ text, config ≠ .fixedString text) : OneLine config := by
  intro v hv
  obtain ⟨d, hd⟩ := hv
  exact ⟨newline_not_mem_plain (generateValue_plain h hd), nul_free_str (generateValue_ne_fixedValue h hd)⟩

/-- `RandomIntegerGenerator` gives every integer of its range. -/
theorem generates_randomInteger {minimum maximum : ℤ} {v : Value} :
    Generates (.randomInteger minimum maximum) v ↔
      ∃ n, v = .randomInteger n ∧ minimum ≤ n ∧ n ≤ maximum := by
  constructor
  · intro hv
    obtain ⟨d, hd⟩ := hv
    simp only [GenerationConfig.generateValue] at hd
    split at hd
    · rename_i hle
      cases hd
      have hpos : 0 ≤ (d.randint : ℤ) % (maximum - minimum + 1) := Int.emod_nonneg _ (by omega)
      have hlt : (d.randint : ℤ) % (maximum - minimum + 1) < maximum - minimum + 1 :=
        Int.emod_lt_of_pos _ (by omega)
      exact ⟨_, rfl, by omega, by omega⟩
    · cases hd
  · intro hv
    obtain ⟨n, rfl, hlow, hhigh⟩ := hv
    refine ⟨⟨(n - minimum).toNat, fun _ => 0⟩, ?_⟩
    have hmod : ((n - minimum).toNat : ℤ) % (maximum - minimum + 1) = n - minimum := by
      rw [Int.toNat_of_nonneg (by omega)]
      exact Int.emod_eq_of_lt (by omega) (by omega)
    simp only [GenerationConfig.generateValue, hmod]
    rw [if_pos (by omega)]
    congr 2
    omega

/-- Longer numbers have longer ciphertexts: it is enough to look at the ends of the range. -/
theorem sameBlocks_randomInteger_iff {minimum maximum : ℤ} (h0 : 0 ≤ minimum) (hle : minimum ≤ maximum) :
    SameBlocks (.randomInteger minimum maximum) ↔
      blocks (intToString minimum) = blocks (intToString maximum) := by
  have hmono : ∀ m n : ℤ, 0 ≤ m → m ≤ n → blocks (intToString m) ≤ blocks (intToString n) := by
    intro m n hm hmn
    obtain ⟨m, rfl⟩ := Int.eq_ofNat_of_zero_le hm
    obtain ⟨n, rfl⟩ := Int.eq_ofNat_of_zero_le (Int.le_trans hm hmn)
    have hlen := stdToString_length_mono (Int.ofNat_le.mp hmn)
    change (_ + 11) / 16 + 1 ≤ (_ + 11) / 16 + 1
    exact Nat.succ_le_succ (Nat.div_le_div_right (Nat.add_le_add_right hlen 11))
  constructor
  · intro h
    exact h _ _ (generates_randomInteger.mpr ⟨minimum, rfl, Int.le_refl _, hle⟩)
      (generates_randomInteger.mpr ⟨maximum, rfl, hle, Int.le_refl _⟩)
  · intro h v v' hv hv'
    obtain ⟨n, rfl, hlow, hhigh⟩ := generates_randomInteger.mp hv
    obtain ⟨n', rfl, hlow', hhigh'⟩ := generates_randomInteger.mp hv'
    have h1 := hmono minimum n h0 hlow
    have h2 := hmono n maximum (Int.le_trans h0 hlow) hhigh
    have h3 := hmono minimum n' h0 hlow'
    have h4 := hmono n' maximum (Int.le_trans h0 hlow') hhigh'
    change blocks (intToString n) = blocks (intToString n')
    omega

/-! ### Runs -/

/-- The client has made the operation of a line of the file. -/
def FromFile (E : Cipher) (text : Bytes) (o : Operation) : Prop :=
  ∃ line ∈ pieces text, ∃ d, lineOperation E line d = .ok o

/-- However the requests for the operations of generated files overlap, the
enclave stays up, what a GET answers was seeded or written to its key, and a
PUT answers its own value. -/
def Answered (E : Cipher) (config : GenerationConfig) : Prop :=
  ∀ seedDraws operationDraws seed operations,
    generateFiles config seedDraws operationDraws = .ok (seed, operations) →
  ∀ initDraw db0 db, initDB E db0 (seedsOf seed initDraw) = .ok db →
  ∀ as w, (∀ i o, Act.call i o ∈ as → FromFile E operations o) → run (next E) (initial db) as = some w →
    w.enclaveUp = true ∧
    ∀ i o reply, w.calls i = .returned o reply → ∃ v, decryptNonDeterministic E reply = .ok v ∧
      (o.op = .get → (o.key, v) ∈ written E (seedsOf seed initDraw) db as) ∧
      (o.op ≠ .get → v = putValue E o)

theorem encrypted_length (v : Bytes) (s : Suffix) :
    (encryptNonDeterministic E v s).length = 16 * blocks v := by
  rw [encryptNonDeterministic_length, blocks, Nat.mul_comm]

/-- The operation of a line: the value is encrypted, and it fits. -/
theorem lineOperation_eq_ok {line : Bytes} {d : OpDraw} {o : Operation}
    (h : lineOperation E line d = .ok o) : o.op = (lineFields line d).1 ∧
      o.key = (lineFields line d).2.1 ∧ (lineFields line d).2.2.length ≤ 4084 ∧
      o.value = encryptNonDeterministic E (lineFields line d).2.2 d.suffix := by
  refine ⟨encryptFields_op h, encryptFields_key h, encryptFields_ok_iff.mp ⟨o, h⟩, ?_⟩
  unfold lineOperation encryptFields at h
  split at h
  · rename_i value hvalue
    rw [← Except.ok.inj h]
    exact (clientEncrypt_eq_ok hvalue).2
  · cases h

theorem mem_seedsOf {text : Bytes} {draw : ℕ → OpDraw} {s : Seed} (h : s ∈ seedsOf text draw) :
    ∃ line ∈ pieces text, ∃ d, s = lineSeed line d := by
  obtain ⟨i, hi, rfl⟩ := List.mem_iff_getElem.mp h
  have hi' : i < (pieces text).length := by simpa [seedsOf] using hi
  exact ⟨(pieces text)[i], List.getElem_mem hi', draw i, by simp [seedsOf]⟩

/-- The requests that the client makes of the operations. -/
theorem asks_of_fromFile (hlines : OneLine config) {size : Bytes → ℕ}
    (hsize : ∀ key value, Reads (Generates config) key value → 16 * blocks value = size key)
    {seedDraws : List ValueDraw} {operationDraws : List OperationDraw} {seed operations : Bytes}
    (h : generateFiles config seedDraws operationDraws = .ok (seed, operations)) (initDraw : ℕ → OpDraw)
    {o : Operation} (ho : FromFile E operations o) :
    Asked E (seededKey (seedsOf seed initDraw)) o ∧ PutLevel E size o := by
  obtain ⟨line, hline, d, hop⟩ := ho
  obtain ⟨hopType, hkey, hfits, hvalue⟩ := lineOperation_eq_ok hop
  have hseeded : seededKey (seedsOf seed initDraw) o.key := by
    rw [hkey, lineFields_key]
    exact lineKey_seeded h initDraw hline
  have hput : o.op ≠ .get → Storable (lineFields line d).2.2 ∧
      16 * blocks (lineFields line d).2.2 = size o.key := by
    intro hne
    obtain ⟨values, rows, -, -, hrows, rfl, -⟩ := generateFiles_eq_ok h
    rcases @reads_operations _ _ _ _ _ d hlines (fun k hk => plainText_of_mem_keysFrom hk) hrows hline
      with hget | hreads
    · exact absurd (hopType.trans hget) hne
    · exact ⟨⟨hreads.nul_free hlines, hfits⟩, hkey ▸ hsize _ _ hreads⟩
  have hdec : o.op ≠ .get → decryptNonDeterministic E o.value = .ok (lineFields line d).2.2 := by
    intro hne
    rw [hvalue]
    exact decrypt_storable (hput hne).1 d.suffix
  have hputValue : o.op ≠ .get → putValue E o = (lineFields line d).2.2 := by
    intro hne
    rw [putValue, hdec hne]
    rfl
  refine ⟨⟨hseeded, fun hne => ?_⟩, fun hne s => ?_⟩
  · rw [hputValue hne]
    exact ⟨(hput hne).1, hdec hne⟩
  · rw [hputValue hne, encrypted_length, (hput hne).2]

/-- What is seeded by a generated file. -/
theorem reads_seedsOf (hlines : OneLine config) {seedDraws : List ValueDraw}
    {operationDraws : List OperationDraw} {seed operations : Bytes}
    (hfiles : generateFiles config seedDraws operationDraws = .ok (seed, operations)) {initDraw : ℕ → OpDraw}
    {s : Seed} (hs : s ∈ seedsOf seed initDraw) : Reads (Generates config) s.key s.value := by
  obtain ⟨values, rows, hvalues, rfl, -⟩ := generateFiles_eq_ok hfiles
  have hall : ∀ v ∈ values, Generates config v := fun v hv => forall₂_mem_right hvalues hv
  obtain ⟨line, hline, d, rfl⟩ := mem_seedsOf hs
  rcases reads_dataRows (fun v hv => (hlines v (hall v hv)).1) hline with hempty | ⟨hkey, v, hv, hread⟩
  · exact Or.inl hempty
  · exact Or.inr ⟨hkey, v, hall v hv, hread⟩

theorem nul_free_seedsOf (hlines : OneLine config) {seedDraws : List ValueDraw}
    {operationDraws : List OperationDraw} {seed operations : Bytes}
    (hfiles : generateFiles config seedDraws operationDraws = .ok (seed, operations)) {initDraw : ℕ → OpDraw} :
    ∀ s ∈ seedsOf seed initDraw, (0 : UInt8) ∉ s.value :=
  fun _ hs => (reads_seedsOf hlines hfiles hs).nul_free hlines

/-- Requests for the operations of generated files, on values of one size. -/
theorem origins_of_sameBlocks (hlines : OneLine config) (h : SameBlocks config) {seedDraws : List ValueDraw}
    {operationDraws : List OperationDraw} {seed operations : Bytes}
    (hfiles : generateFiles config seedDraws operationDraws = .ok (seed, operations)) {initDraw : ℕ → OpDraw}
    {db0 db : Db} (hinit : initDB E db0 (seedsOf seed initDraw) = .ok db) {as : List Act}
    (hcalls : ∀ i o, Act.call i o ∈ as → FromFile E operations o)
    (hrun : run (next E) (initial db) as = some w) :
    ∃ size, Origins E (seedsOf seed initDraw) db as w ∧ Level E size (seededKey (seedsOf seed initDraw)) w := by
  obtain ⟨size, hsize⟩ := exists_size h
  have hnul := @nul_free_seedsOf _ hlines _ _ _ _ hfiles initDraw
  have hentry : ∀ key, seededKey (seedsOf seed initDraw) key → (get db key).length = size key := by
    intro key hkey
    obtain ⟨v, hv⟩ := latest_seeded hkey []
    rw [List.append_nil] at hv
    obtain ⟨-, s, hdb⟩ := storeInv_initDB hinit hnul key v hv
    obtain ⟨seed', hseed', heq⟩ := List.mem_map.mp (latest_mem hv)
    obtain ⟨rfl, rfl⟩ := Prod.mk.inj heq
    rw [get, hdb, Option.getD_some, encrypted_length]
    exact hsize _ _ (reads_seedsOf hlines hfiles hseed')
  refine ⟨size, origins_of_level hinit hnul hentry (fun a ha => ?_) hrun⟩
  cases a with
  | call i o =>
    obtain ⟨hasked, hput⟩ := asks_of_fromFile hlines hsize hfiles initDraw (hcalls i o ha)
    refine ⟨hasked, fun i' o' hcall => ?_⟩
    cases hcall
    exact hput
  | step i d => exact ⟨trivial, fun i' o' hcall => by cases hcall⟩

theorem answered_of_sameBlocks (hlines : OneLine config) (h : SameBlocks config) : Answered E config := by
  intro seedDraws operationDraws seed operations hfiles initDraw db0 db hinit as w hcalls hrun
  obtain ⟨-, horigins, -⟩ := origins_of_sameBlocks hlines h hfiles hinit hcalls hrun
  exact ⟨horigins.1.enclaveUp, fun i o reply hi => horigins.answer hi⟩

/-! ### Values of different sizes -/

/-- What is behind the stored size can be such that nothing can be decrypted. -/
theorem exists_unopened (E : Cipher) {inSize : ℕ} {cipherText : Bytes} {k m : ℕ} (hin : inSize = 16 * k)
    (hlen : cipherText.length = 16 * m) (hlt : k < m) (s : Suffix) :
    ∃ d : Draw, d.suffix = s ∧ ∀ v, decryptNonDeterministic E (outVal inSize cipherText d) ≠ .ok v := by
  have hhead : (cipherText.take inSize).length = k * 16 := by
    rw [List.length_take]
    omega
  obtain ⟨tail, htail, hopen⟩ := exists_unopenable E (by decide : 0 < 16) iv hhead (m - k - 1)
  have hall : (cipherText.take inSize ++ tail).length = cipherText.length := by
    rw [List.length_append, hhead, htail, hlen]
    omega
  refine ⟨⟨s, fun i => (cipherText.take inSize ++ tail).getD i 0⟩, rfl, fun v => ?_⟩
  have hout : outVal inSize cipherText ⟨s, fun i => (cipherText.take inSize ++ tail).getD i 0⟩ =
      cipherText.take inSize ++ tail := by
    refine List.ext_getElem (by simp [outVal, hall]) fun i hi hi' => ?_
    have hi0 : i < cipherText.length := hall ▸ hi'
    simp only [outVal, List.getElem_map, List.getElem_range]
    split
    · rename_i hlow
      rw [List.getElem_append_left (by rw [List.length_take]; omega), List.getElem_take]
      simp [List.getD_eq_getElem?_getD, hi0]
    · simp only [List.getD_eq_getElem?_getD, List.getElem?_eq_getElem hi', Option.getD_some]
  rw [hout]
  unfold decryptNonDeterministic decrypt
  rw [hopen]
  split <;> simp [Except.map]

theorem exists_initDB (E : Cipher) (db0 : Db) {seeds : List Seed} (h : ∀ s ∈ seeds, s.value.length ≤ 4084) :
    ∃ db, initDB E db0 seeds = .ok db := by
  have hmap : seeds.mapM (getInitKV E) =
      .ok (seeds.map fun s => (s.key, encryptNonDeterministic E s.value s.suffix)) := by
    refine mapM_eq_ok_iff.mpr (List.forall₂_map_right_iff.mpr (List.forall₂_same.mpr fun s hs => ?_))
    rw [getInitKV, clientEncrypt_ok s.suffix (h s hs)]
    rfl
  exact ⟨_, by rw [initDB, hmap]; rfl⟩

/-- The files of one key with the one value and a PUT of the other. -/
theorem generateFiles_two (hlines : OneLine config) {d d' : ValueDraw} {v v' : Value}
    (hv : config.generateValue d = .ok v) (hv' : config.generateValue d' = .ok v') (hplain : PlainText v.str)
    (hfits : v.str.length ≤ 4084) : generateFiles config [d] [⟨false, 0, d'⟩] =
      .ok (((dataRows 1 [v]).map Row.fields).flatMap (csvRow 32),
        [[ascii ['P', 'U', 'T'], intToString 1, v'.str]].flatMap (csvRow 32)) := by
  have hdata : generateData config ⟨1⟩ [d] = .ok (((dataRows 1 [v]).map Row.fields).flatMap (csvRow 32)) := by
    simp only [generateData, hv]
    rfl
  have hwithin : Within v.str := by
    refine ⟨(hlines v ⟨d, hv⟩).2, Nat.le_trans List.countP_le_length (Nat.le_trans hfits (by decide))⟩
  have hkeys : getKeysFromCsv (((dataRows 1 [v]).map Row.fields).flatMap (csvRow 32)) =
      .ok [intToString 1] := by
    have hone : ∀ k ∈ keysFrom 1 1, Within k := by decide
    refine (getKeysFromCsv_dataRows 1 [v]).1 (within_dataRows.mpr ⟨hone, ?_⟩)
    rw [List.forall_mem_singleton, universalNewlines_plain hplain]
    exact hwithin
  have hrow : operationRow config [intToString 1] ⟨false, 0, d'⟩ =
      .ok [ascii ['P', 'U', 'T'], intToString 1, v'.str] := by
    simp [operationRow, hv', Except.map]
  have hrows : [(⟨false, 0, d'⟩ : OperationDraw)].mapM (operationRow config [intToString 1]) =
      .ok [[ascii ['P', 'U', 'T'], intToString 1, v'.str]] := mapM_eq_ok_iff.mpr (.cons hrow .nil)
  unfold generateFiles
  rw [hdata]
  simp only [hkeys]
  rw [generateOperations, hrows]
  rfl

/-- What is seeded by the file of one plain value. -/
theorem seedsOf_one {v : Value} (hplain : PlainText v.str) {draw : ℕ → OpDraw} {s : Seed}
    (hs : s ∈ seedsOf (((dataRows 1 [v]).map Row.fields).flatMap (csvRow 32)) draw) :
    (s.key = [] ∧ s.value = []) ∨ s.key ≠ [] ∧ s.value = v.str := by
  obtain ⟨line, hline, d, rfl⟩ := mem_seedsOf hs
  have hlines : ∀ u ∈ [v], newline ∉ u.str := List.forall_mem_singleton.mpr (newline_not_mem_plain hplain)
  rcases reads_dataRows hlines hline with hempty | ⟨hkey, u, hu, hread⟩
  · exact Or.inl hempty
  · rw [List.mem_singleton.mp hu, readValue_plain hplain] at hread
    exact Or.inr ⟨hkey, hread⟩

/-- The PUT that the client reads of the file of one plain value. -/
theorem exists_put_line (E : Cipher) {v : Value} (hplain : PlainText v.str) (hfits : v.str.length ≤ 4084) :
    ∃ line ∈ pieces ([[ascii ['P', 'U', 'T'], intToString 1, v.str]].flatMap (csvRow 32)),
      lineKey line = intToString 1 ∧ ∃ o, lineOperation E line plainOpDraw = .ok o ∧ o.op ≠ .get ∧
        o.key = intToString 1 ∧ o.value = encryptNonDeterministic E v.str zeroSuffix := by
  obtain ⟨line, hrow⟩ : ∃ line, line ∈ rowLines [ascii ['P', 'U', 'T'], intToString 1, v.str] := by
    rw [rowLines_value (by decide) (plainText_intToString 1)]
    exact ⟨_, List.mem_cons_self⟩
  have hfields : lineFields line plainOpDraw = (.put, intToString 1, v.str) := by
    have hread := @lineFields_row _ _ _ _ plainOpDraw (by decide) (by decide) (by decide)
      (intToString_ne_nil 1) (plainText_intToString 1) (newline_not_mem_plain hplain) hrow
    rw [hread, readValue_plain hplain]
  obtain ⟨o, ho⟩ : ∃ o, lineOperation E line plainOpDraw = .ok o := by
    apply encryptFields_ok_iff.mpr
    rw [hfields]
    exact hfits
  obtain ⟨hop, hkey, -, hvalue⟩ := lineOperation_eq_ok ho
  rw [hfields] at hop hkey hvalue
  refine ⟨line, ?_, ?_, o, ho, ?_, hkey, hvalue⟩
  · rw [pieces_rows, List.flatMap_singleton]
    exact List.mem_append_left _ hrow
  · rw [← lineFields_key line plainOpDraw, hfields]
  · rw [hop]
    simp

/-- A PUT of a value that is longer than the entry can be answered with
something that does not decrypt. -/
theorem exists_put_unopened {db : Db} {o : Operation} {v : Bytes} {k : ℕ} (hput : o.op ≠ .get)
    (hv : v.length ≤ 4084) (hdec : decryptNonDeterministic E o.value = .ok v)
    (hentry : (get db o.key).length = 16 * k) (hlt : k < blocks v) :
    ∃ (d : Draw) (w : State) (reply : Bytes),
      run (next E) (initial db) (.call 0 o :: List.replicate 4 (.step 0 d)) = some w ∧
        w.calls 0 = .returned o reply ∧ ∀ u, decryptNonDeterministic E reply ≠ .ok u := by
  obtain ⟨d, hsuffix, hgarbage⟩ := exists_unopened E hentry (encrypted_length v zeroSuffix) hlt zeroSuffix
  have hsize : (get db o.key).length ≤ bufferSize := by
    have hle := (encrypted_fits (E := E) zeroSuffix).mpr hv
    rw [encrypted_length] at hle
    omega
  have hcall : accessDataCall E true o.op (get db o.key) o.value d =
      .ok (outVal (get db o.key).length (encryptNonDeterministic E v zeroSuffix) d) := by
    have hcall := accessDataCall_eq (u := []) d (fun hget => absurd hget hput) (fun _ => hdec)
      (by rw [if_neg hput]; exact hv) hsize
    rw [if_neg hput, hsuffix] at hcall
    exact hcall
  have haccess : access E ⟨db, true⟩ o d = some (⟨put db o.key
      (outVal (get db o.key).length (encryptNonDeterministic E v zeroSuffix) d), true⟩,
      outVal (get db o.key).length (encryptNonDeterministic E v zeroSuffix) d) := by
    unfold access
    rw [hcall]
  exact ⟨d, _, _, run_alone (w := initial db) rfl haccess rfl, goto_calls_self _ _ _, hgarbage⟩

/-- A PUT of a longer value is answered with something that does not decrypt. -/
theorem not_answered (hlines : OneLine config) (hfits : ∀ v, Generates config v → v.str.length ≤ 4084)
    {v v' : Value} (hv : Generates config v) (hv' : Generates config v')
    (hlt : blocks v.str < blocks v'.str) : ¬ Answered E config := by
  intro hanswered
  obtain ⟨hplain, hplain'⟩ : PlainText v.str ∧ PlainText v'.str := by
    rcases generates_cases hv hv' with rfl | hplain
    · exact absurd hlt (Nat.lt_irrefl _)
    · exact hplain
  have hstorable : ∀ u, Generates config u → Storable u.str := fun u hu => ⟨(hlines u hu).2, hfits u hu⟩
  obtain ⟨d, hd⟩ := hv
  obtain ⟨d', hd'⟩ := hv'
  have hfiles := generateFiles_two hlines hd hd' hplain (hfits v ⟨d, hd⟩)
  set seed := ((dataRows 1 [v]).map Row.fields).flatMap (csvRow 32)
  have hvalues : ∀ s ∈ seedsOf seed (fun _ => plainOpDraw), Storable s.value := by
    intro s hs
    rcases seedsOf_one hplain hs with ⟨-, hempty⟩ | ⟨-, hvalue⟩
    · rw [hempty]
      exact ⟨List.not_mem_nil, by decide⟩
    · rw [hvalue]
      exact hstorable v ⟨d, hd⟩
  obtain ⟨db, hinit⟩ := exists_initDB E (fun _ => none) fun s hs => (hvalues s hs).fits
  obtain ⟨line, hline, hlineKey, o, ho, hput, hkey, hvalue⟩ := exists_put_line E hplain' (hfits v' ⟨d', hd'⟩)
  have hdec : decryptNonDeterministic E o.value = .ok v'.str := by
    rw [hvalue]
    exact decrypt_storable (hstorable v' ⟨d', hd'⟩) _
  -- the entry that the PUT replaces is the seeded one
  have hentry : (get db o.key).length = 16 * blocks v.str := by
    have hseeded : seededKey (seedsOf seed fun _ => plainOpDraw) o.key := by
      rw [hkey, ← hlineKey]
      exact lineKey_seeded hfiles _ hline
    obtain ⟨u, hu⟩ := latest_seeded hseeded []
    rw [List.append_nil] at hu
    obtain ⟨-, s, hdb⟩ := storeInv_initDB hinit (fun s hs => (hvalues s hs).nul_free) o.key u hu
    obtain ⟨seed', hseed', heq⟩ := List.mem_map.mp (latest_mem hu)
    obtain ⟨hkey', rfl⟩ := Prod.mk.inj heq
    rw [get, hdb, Option.getD_some, encrypted_length]
    rcases seedsOf_one hplain hseed' with ⟨hempty, -⟩ | ⟨-, hv⟩
    · rw [hkey', hkey] at hempty
      exact absurd hempty (intToString_ne_nil 1)
    · rw [hv]
  obtain ⟨draw, w, reply, hrun, hreturned, hgarbage⟩ :=
    exists_put_unopened hput (hfits v' ⟨d', hd'⟩) hdec hentry hlt
  have hcalls : ∀ i o', Act.call i o' ∈ Act.call 0 o :: List.replicate 4 (.step 0 draw) →
      FromFile E ([[ascii ['P', 'U', 'T'], intToString 1, v'.str]].flatMap (csvRow 32)) o' := by
    intro i o' hmem
    rcases List.mem_cons.mp hmem with hcall | hmem
    · cases hcall
      exact ⟨line, hline, plainOpDraw, ho⟩
    · exact absurd (List.eq_of_mem_replicate hmem) (by simp)
  obtain ⟨-, hreplies⟩ := hanswered _ _ _ _ hfiles _ _ _ hinit _ _ hcalls hrun
  obtain ⟨u, hu, -⟩ := hreplies 0 o reply hreturned
  exact hgarbage u hu

/-- For values on one line that the client's buffers hold: all requests for
the operations of generated files are answered as they should be, whatever is
drawn and however they overlap, if and only if all values of the config are
encrypted to the same number of blocks. -/
theorem answered_iff_sameBlocks (E : Cipher) {config : GenerationConfig} (hlines : OneLine config)
    (hfits : ∀ v, Generates config v → v.str.length ≤ 4084) : Answered E config ↔ SameBlocks config := by
  refine ⟨fun h v v' hv hv' => ?_, answered_of_sameBlocks hlines⟩
  rcases Nat.lt_trichotomy (blocks v.str) (blocks v'.str) with hlt | heq | hgt
  · exact absurd h (not_answered hlines hfits hv hv' hlt)
  · exact heq
  · exact absurd h (not_answered hlines hfits hv' hv hgt)

/-- Values of 160 bytes are always answered; the integers of the scripts' own
`main`s, of one to five digits, are not. -/
theorem answered_iff_sameBlocks_scripts : Answered plainCipher (.byteSize 160) ∧
    ¬ Answered plainCipher (.randomInteger 1 99999) := by
  constructor
  · refine (answered_iff_sameBlocks plainCipher (oneLine_of_ne (by simp)) fun v hv => ?_).mpr
      (sameBlocks_byteSize 160)
    rw [byteSize_length hv]
    decide
  · have hfits : ∀ v, Generates (.randomInteger 1 99999) v → v.str.length ≤ 4084 := by
      intro v hv
      obtain ⟨n, rfl, hlow, hhigh⟩ := generates_randomInteger.mp hv
      obtain ⟨n, rfl⟩ := Int.eq_ofNat_of_zero_le (show 0 ≤ n by omega)
      have hlen : (stdToString n).length ≤ 5 := stdToString_length_le (by decide) (by omega)
      exact Nat.le_trans hlen (by decide)
    intro h
    have hsame := (answered_iff_sameBlocks plainCipher (oneLine_of_ne (by simp)) hfits).mp h
    have hends := (sameBlocks_randomInteger_iff (by decide) (by decide)).mp hsame
    exact absurd hends (by decide)

end Reading

end Requests
end Tee
end Ortoa
