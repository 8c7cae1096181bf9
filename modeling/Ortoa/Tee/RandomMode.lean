/-
# The client without a seed file

`initDB` fills the database with the keys "0" to `max_key - 1`: it sets
`num_operations` to `max_key` and counts it down, and the difference is the
key. A later run of the program draws its keys with `rand() % max_key`. Neither
looks at the numbers of the command line, so what is drawn is a key that was
stored, and nothing is divided by zero, if and only if these numbers are what
one expects of them (`random_mode_iff`).

Key definitions: `genRandInitValue`, `initDB`, `Seeds`, `StaysInside`.
Key theorems: `seeds_iff`, `staysInside_iff`, `random_mode_iff`.
-/
import Ortoa.Tee.Sizes
import Ortoa.Loop

namespace Ortoa
namespace Tee
namespace RandomMode

/-- `RAND_MAX`. -/
def randMax : ℕ := 2147483647

/-- What an operation draws, with what `rand()` can return. -/
structure RandDraw extends OpDraw where
  randKey_le : randKey ≤ randMax
  randValue_le : randValue ≤ randMax

/-- What `parseArgs` leaves of `--max-key`, `--max-val` and `--noperations`,
without `--seed`. -/
def parsed (maxKey maxValue numOperations : ℤ) : ClientConfig where
  seedData := ⟨[], false⟩
  numOperations := numOperations
  useSeed := false
  maxKey := maxKey
  maxValue := maxValue

section InitDB

variable (E : Cipher)

/-- `genRandInitValue`. Nobody sets `op`, and `GET` is the zero of its type. -/
def genRandInitValue (config : ClientConfig) (d : RandDraw) :
    Except ClientFault Operation × ClientConfig :=
  if config.maxValue = 0 then (.error .divisionByZero, config)
  else
    (encryptFields E (.get, intToString (config.maxKey - config.numOperations),
        intToString (Int.tmod d.randValue config.maxValue)) d.toOpDraw,
      { config with numOperations := config.numOperations - 1 })

/-- `getInitKV`. -/
def getInitKV (config : ClientConfig) (d : RandDraw) : Except ClientFault Operation × ClientConfig :=
  if config.useSeed then getSeedOperation E config d.toOpDraw else genRandInitValue E config d

/-- The body of `initDB`'s loop: the config and `seed_operations`. -/
def initBody (draws : ℕ → RandDraw) (st : ClientConfig × List (Bytes × Bytes)) :
    (ClientConfig × List (Bytes × Bytes)) ⊕ Except ClientFault (List (Bytes × Bytes)) :=
  if moreOperationsExist st.1 then
    match getInitKV E st.1 (draws st.2.length) with
    | (.ok op, config) => .inl (config, st.2 ++ [(op.key, op.value)])
    | (.error f, _) => .inr (.error f)
  else .inr (.ok st.2)

/-- The config of `initDB`: as many operations as keys. -/
def initConfig (config : ClientConfig) : ClientConfig := { config with numOperations := config.maxKey }

/-- `initDB`, up to what it gives to `put_batch`. -/
def seedOperations (config : ClientConfig) (draws : ℕ → RandDraw) (fuel : ℕ) :
    Option (Except ClientFault (List (Bytes × Bytes))) :=
  loop (initBody E draws) fuel (initConfig config, [])

/-- `initDB`. -/
def initDB (config : ClientConfig) (draws : ℕ → RandDraw) (db : Db) (fuel : ℕ) :
    Option (Except ClientFault Db) :=
  (seedOperations E config draws fuel).map fun ops => ops.map (putBatch db)

/-- The key is one of "0" to `max_key - 1`. -/
def IsSeeded (config : ClientConfig) (key : Bytes) : Prop :=
  ∃ i : ℕ, (i : ℤ) < config.maxKey ∧ key = intToString i

/-- `initDB` ends, having stored each of the keys once and nothing else. -/
def Seeds (config : ClientConfig) : Prop :=
  ∀ (draws : ℕ → RandDraw) (db : Db), ∃ ops fuel,
    seedOperations E config draws fuel = some (.ok ops) ∧
      initDB E config draws db fuel = some (.ok (putBatch db ops)) ∧
      (ops.map (·.1)).Nodup ∧ ∀ key, key ∈ ops.map (·.1) ↔ IsSeeded config key

/-- A draw for which the run's `p_get` decides between GET and PUT: `pGet r` is
`(double)r / RAND_MAX < p_get`. -/
def Drawn (pGet : ℕ → Bool) (d : RandDraw) : Prop := ∃ r ≤ randMax, d.isGet = pGet r

/-- Every operation that a run makes names a key that was stored, and none
divides by zero. -/
def StaysInside (pGet : ℕ → Bool) (config : ClientConfig) : Prop :=
  ∀ (ds : List RandDraw) (s : ClientConfig) (d : RandDraw), Drawn pGet d →
    run (fun config (d : RandDraw) => loopNext E config d.toOpDraw) config ds = some s →
    moreOperationsExist s = true →
      (getOperation E s d.toOpDraw).1 ≠ .error .divisionByZero ∧
        ∀ o, (getOperation E s d.toOpDraw).1 = .ok o → IsSeeded config o.key

end InitDB

variable {E : Cipher}

/-- A draw of zeros: the empty dummy, key and value 0. -/
def shortDraw (isGet : Bool) : RandDraw where
  toOpDraw := dummyDraw 0 (Nat.zero_le _) isGet
  randKey_le := Nat.zero_le _
  randValue_le := Nat.zero_le _

/-! ### Filling the database -/

theorem moreOperationsExist_random {config : ClientConfig} (h : config.useSeed = false) :
    moreOperationsExist config = true ↔ 0 < config.numOperations := by
  simp [moreOperationsExist, h]

/-- The numeral of a remainder of `rand()` fits the client's buffer. -/
theorem remainder_length (d : RandDraw) (m : ℤ) :
    (intToString (Int.tmod d.randValue m)).length ≤ 4084 := by
  have hle : (Int.tmod d.randValue m).natAbs ≤ randMax := by
    rw [Int.natAbs_tmod]
    exact (Nat.mod_le _ _).trans d.randValue_le
  have hnum : ∀ n ≤ randMax, (stdToString n).length ≤ 10 := fun n hn =>
    stdToString_length_le (by decide) (lt_of_le_of_lt hn (by decide))
  cases hr : Int.tmod d.randValue m with
  | ofNat n =>
    rw [hr] at hle
    exact (hnum n hle).trans (by decide)
  | negSucc n =>
    rw [hr] at hle
    have := hnum (n + 1) hle
    rw [intToString, List.length_cons]
    omega

/-- One round of `initDB`. -/
theorem initBody_round {draws : ℕ → RandDraw} {config : ClientConfig} {done : List (Bytes × Bytes)}
    (hseed : config.useSeed = false) (hmax : config.maxValue ≠ 0) (hmore : 0 < config.numOperations) :
    ∃ value, initBody E draws (config, done) =
      .inl ({ config with numOperations := config.numOperations - 1 },
        done ++ [(intToString (config.maxKey - config.numOperations), value)]) := by
  obtain ⟨o, ho⟩ := (@encryptFields_ok_iff E (.get, intToString (config.maxKey - config.numOperations),
    intToString (Int.tmod (draws done.length).randValue config.maxValue))
    (draws done.length).toOpDraw).mpr (remainder_length (draws done.length) config.maxValue)
  have hkey : o.key = intToString (config.maxKey - config.numOperations) := encryptFields_key ho
  refine ⟨o.value, ?_⟩
  unfold initBody
  rw [if_pos ((moreOperationsExist_random hseed).mpr hmore), getInitKV, if_neg (by simp [hseed]),
    genRandInitValue, if_neg hmax, ho]
  simp only [hkey]

/-- The last round. -/
theorem initBody_last {draws : ℕ → RandDraw} {config : ClientConfig} (done : List (Bytes × Bytes))
    (hseed : config.useSeed = false) (hmore : config.numOperations ≤ 0) :
    initBody E draws (config, done) = .inr (.ok done) := by
  have hnot : ¬ moreOperationsExist config = true := by
    rw [moreOperationsExist_random hseed]
    omega
  exact if_neg hnot

/-- From the `n - k`-th round on, the loop gives the last `k` of `n` keys. -/
theorem initBody_returns {draws : ℕ → RandDraw} {n : ℕ} : ∀ (k : ℕ) (config : ClientConfig)
    (done : List (Bytes × Bytes)), config.useSeed = false → config.maxValue ≠ 0 →
    config.maxKey = n → config.numOperations = k → k ≤ n →
    done.map (·.1) = (List.range (n - k)).map stdToString →
    ∃ ops, Returns (initBody E draws) (config, done) (.ok ops) ∧
      ops.map (·.1) = (List.range n).map stdToString
  | 0, config, done, hseed, _, _, hops, _, hdone => by
    refine ⟨done, (returns_of_inr (initBody_last done hseed hops.le)).mpr rfl, ?_⟩
    rw [hdone, Nat.sub_zero]
  | k + 1, config, done, hseed, hmax, hkey, hops, hle, hdone => by
    obtain ⟨value, hround⟩ := @initBody_round E draws config done hseed hmax (by omega)
    have hnum : intToString (config.maxKey - config.numOperations) = stdToString (n - (k + 1)) := by
      rw [hkey, hops, ← Nat.cast_sub hle]
      rfl
    have hdone' : (done ++ [(stdToString (n - (k + 1)), value)]).map (·.1) =
        (List.range (n - k)).map stdToString := by
      rw [List.map_append, hdone, show n - k = n - (k + 1) + 1 by omega, List.range_succ,
        List.map_append]
      rfl
    rw [hnum] at hround
    obtain ⟨ops, hret, hall⟩ := initBody_returns k
      { config with numOperations := config.numOperations - 1 } _ hseed hmax hkey
      (show config.numOperations - 1 = k by omega) (by omega) hdone'
    exact ⟨ops, (returns_of_inl hround).mpr hret, hall⟩

/-- The keys that are stored. -/
theorem isSeeded_iff {config : ClientConfig} {key : Bytes} :
    IsSeeded config key ↔ key ∈ (List.range config.maxKey.toNat).map stdToString := by
  simp only [IsSeeded, List.mem_map, List.mem_range]
  constructor
  · rintro ⟨i, hi, rfl⟩
    exact ⟨i, by omega, rfl⟩
  · rintro ⟨i, hi, rfl⟩
    exact ⟨i, by omega, rfl⟩

/-- `initDB` does what it should if and only if there is nothing to do or no
remainder by zero. -/
theorem seeds_iff (maxKey maxValue numOperations : ℤ) :
    Seeds E (parsed maxKey maxValue numOperations) ↔ maxKey ≤ 0 ∨ maxValue ≠ 0 := by
  constructor
  · intro h
    by_contra hnot
    have hpos : 0 < maxKey := by omega
    have hzero : maxValue = 0 := by omega
    obtain ⟨ops, fuel, hops, -⟩ := h (fun _ => shortDraw true) fun _ => none
    have hfault : initBody E (fun _ => shortDraw true)
        (initConfig (parsed maxKey maxValue numOperations), []) = .inr (.error .divisionByZero) := by
      have hmore : moreOperationsExist (initConfig (parsed maxKey maxValue numOperations)) = true :=
        (moreOperationsExist_random rfl).mpr hpos
      unfold initBody
      rw [if_pos hmore, getInitKV, if_neg (by simp [initConfig, parsed]), genRandInitValue]
      simp only [initConfig, parsed, hzero, if_true]
    cases (returns_of_inr hfault).mp ⟨fuel, hops⟩
  · intro h draws db
    have hreturns : ∃ ops, Returns (initBody E draws)
        (initConfig (parsed maxKey maxValue numOperations), []) (.ok ops) ∧
          ops.map (·.1) = (List.range maxKey.toNat).map stdToString := by
      rcases le_or_gt maxKey 0 with hle | hpos
      · refine ⟨[], (returns_of_inr (initBody_last [] rfl hle)).mpr rfl, ?_⟩
        rw [Int.toNat_of_nonpos hle]
        rfl
      · have hnat : maxKey = (maxKey.toNat : ℤ) := (Int.toNat_of_nonneg hpos.le).symm
        exact initBody_returns maxKey.toNat (initConfig (parsed maxKey maxValue numOperations)) [] rfl
          (h.resolve_left (not_le.mpr hpos)) hnat hnat le_rfl (by simp)
    obtain ⟨ops, ⟨fuel, hfuel⟩, hkeys⟩ := hreturns
    refine ⟨ops, fuel, hfuel, ?_, ?_, fun key => ?_⟩
    · rw [initDB, seedOperations, hfuel]
      rfl
    · rw [hkeys]
      exact List.nodup_range.map stdToString_injective
    · rw [hkeys, isSeeded_iff]
      rfl

/-! ### The later run -/

/-- The value of a drawn operation. -/
def drawnValue (config : ClientConfig) (d : OpDraw) : Bytes :=
  if d.isGet then d.dummy else intToString (Int.tmod d.randValue config.maxValue)

/-- `genRandOperation` divides by zero, or takes one from the budget and names
the remainder of what `rand()` returned. -/
theorem genRandOperation_cases (config : ClientConfig) (d : OpDraw) :
    ((config.maxKey = 0 ∨ d.isGet = false ∧ config.maxValue = 0) ∧
      genRandOperation E config d = (.error .divisionByZero, config)) ∨
    ((config.maxKey ≠ 0 ∧ (d.isGet = true ∨ config.maxValue ≠ 0)) ∧
      ∃ op, genRandOperation E config d =
        (encryptFields E (op, intToString (Int.tmod d.randKey config.maxKey), drawnValue config d) d,
          { config with numOperations := config.numOperations - 1 })) := by
  unfold genRandOperation drawnValue
  by_cases hkey : config.maxKey = 0
  · rw [if_pos hkey]
    exact Or.inl ⟨Or.inl hkey, rfl⟩
  · rw [if_neg hkey]
    cases hget : d.isGet with
    | true =>
      rw [if_pos rfl, if_pos rfl]
      exact Or.inr ⟨⟨hkey, Or.inl rfl⟩, _, rfl⟩
    | false =>
      rw [if_neg Bool.false_ne_true, if_neg Bool.false_ne_true]
      by_cases hvalue : config.maxValue = 0
      · rw [if_pos hvalue]
        exact Or.inl ⟨Or.inr ⟨rfl, hvalue⟩, rfl⟩
      · rw [if_neg hvalue]
        exact Or.inr ⟨⟨hkey, Or.inr hvalue⟩, _, rfl⟩

theorem getOperation_random {config : ClientConfig} (h : config.useSeed = false) (d : OpDraw) :
    getOperation E config d = genRandOperation E config d := if_neg (by simp [h])

/-- No operation is made of a division by zero. -/
theorem encryptFields_ne_divisionByZero (fields : OpType × Bytes × Bytes) (d : OpDraw) :
    encryptFields E fields d ≠ .error .divisionByZero := by
  unfold encryptFields
  split <;> simp

theorem shortDraw_value (config : ClientConfig) (isGet : Bool) :
    (drawnValue config (shortDraw isGet).toOpDraw).length ≤ 4084 := by
  unfold drawnValue
  split
  · have hdummy : (shortDraw isGet).dummy = [] := dummyDraw_dummy (Nat.zero_le _) isGet
    rw [hdummy]
    exact Nat.zero_le _
  · exact remainder_length (shortDraw isGet) config.maxValue

/-- A run changes the budget only. -/
theorem run_config {config s : ClientConfig} {ds : List RandDraw} (hseed : config.useSeed = false)
    (h : run (fun config (d : RandDraw) => loopNext E config d.toOpDraw) config ds = some s) :
    s.useSeed = false ∧ s.maxKey = config.maxKey ∧ s.maxValue = config.maxValue ∧
      s.numOperations ≤ config.numOperations := by
  refine run_keeps _ (fun s => s.useSeed = false ∧ s.maxKey = config.maxKey ∧
    s.maxValue = config.maxValue ∧ s.numOperations ≤ config.numOperations)
    ⟨hseed, rfl, rfl, le_rfl⟩ ?_ h
  rintro s d s' ⟨h1, h2, h3, h4⟩ hstep
  unfold loopNext at hstep
  split at hstep
  · rw [getOperation_random h1] at hstep
    rcases genRandOperation_cases (E := E) s d.toOpDraw with ⟨-, hgen⟩ | ⟨-, op, hgen⟩
    · rw [hgen] at hstep
      cases hstep
    · rw [hgen] at hstep
      split at hstep
      · rename_i o config' hpair
        rw [Prod.mk.injEq] at hpair
        rw [Option.some.injEq] at hstep
        rw [← hstep, ← hpair.2]
        exact ⟨h1, h2, h3, by simp only; omega⟩
      · cases hstep
  · cases hstep

/-- A remainder by a positive number is a key that was stored. -/
theorem isSeeded_tmod {config : ClientConfig} (h : 0 < config.maxKey) (r : ℕ) :
    IsSeeded config (intToString (Int.tmod r config.maxKey)) := by
  have hnonneg : 0 ≤ Int.tmod r config.maxKey := Int.tmod_nonneg _ (Int.natCast_nonneg r)
  have hlt := Int.tmod_lt_of_pos (r : ℤ) h
  refine ⟨(Int.tmod r config.maxKey).toNat, ?_, ?_⟩
  · rwa [Int.toNat_of_nonneg hnonneg]
  · rw [Int.toNat_of_nonneg hnonneg]

/-- The later run stays inside if and only if it makes no operation, or there
are keys and no PUT takes a remainder by zero. -/
theorem staysInside_iff (pGet : ℕ → Bool) (maxKey maxValue numOperations : ℤ) :
    StaysInside E pGet (parsed maxKey maxValue numOperations) ↔
      numOperations ≤ 0 ∨ (0 < maxKey ∧ (maxValue ≠ 0 ∨ ∀ r ≤ randMax, pGet r = true)) := by
  constructor
  · intro h
    by_cases hops : numOperations ≤ 0
    · exact Or.inl hops
    -- the first operation, with `rand()` returning zero for its key and its value
    have hmore : moreOperationsExist (parsed maxKey maxValue numOperations) = true :=
      (moreOperationsExist_random rfl).mpr (not_le.mp hops)
    have hfirst : ∀ r ≤ randMax, 0 < maxKey ∧ (maxValue ≠ 0 ∨ pGet r = true) := by
      intro r hr
      obtain ⟨hdiv, hkey⟩ := h [] (parsed maxKey maxValue numOperations) (shortDraw (pGet r))
        ⟨r, hr, rfl⟩ rfl hmore
      rw [getOperation_random rfl] at hdiv hkey
      rcases genRandOperation_cases (E := E) (parsed maxKey maxValue numOperations)
        (shortDraw (pGet r)).toOpDraw with ⟨-, hgen⟩ | ⟨⟨-, hok⟩, op, hgen⟩
      · rw [hgen] at hdiv
        exact absurd rfl hdiv
      · rw [hgen] at hkey
        obtain ⟨o, ho⟩ := (@encryptFields_ok_iff E (op, _, _) (shortDraw (pGet r)).toOpDraw).mpr
          (shortDraw_value (parsed maxKey maxValue numOperations) (pGet r))
        obtain ⟨i, hi, -⟩ := hkey o ho
        have hi' : (i : ℤ) < maxKey := hi
        exact ⟨by omega, hok.symm⟩
    refine Or.inr ⟨(hfirst 0 (Nat.zero_le _)).1, ?_⟩
    by_cases hvalue : maxValue = 0
    · exact Or.inr fun r hr => (hfirst r hr).2.resolve_left (not_not.mpr hvalue)
    · exact Or.inl hvalue
  · intro h ds s d hd hrun hmore
    obtain ⟨h1, h2, h3, h4⟩ := run_config rfl hrun
    rw [moreOperationsExist_random h1] at hmore
    have hops : ¬ numOperations ≤ 0 := by
      intro hle
      have : s.numOperations ≤ numOperations := h4
      omega
    obtain ⟨hkeys, hputs⟩ := h.resolve_left hops
    have hpos : 0 < s.maxKey := h2 ▸ hkeys
    rw [getOperation_random h1]
    rcases genRandOperation_cases (E := E) s d.toOpDraw with ⟨hbad, -⟩ | ⟨-, op, hgen⟩
    · exfalso
      rcases hbad with hkey | ⟨hput, hvalue⟩
      · omega
      · obtain ⟨r, hr, hdget⟩ := hd
        rcases hputs with hne | hall
        · exact hne (h3.symm.trans hvalue)
        · rw [hdget, hall r hr] at hput
          cases hput
    · rw [hgen]
      refine ⟨encryptFields_ne_divisionByZero _ _, fun o ho => ?_⟩
      rw [encryptFields_key ho]
      simp only
      have hseeded := isSeeded_tmod hpos d.randKey
      unfold IsSeeded at hseeded ⊢
      rwa [h2] at hseeded ⊢

/-- Random mode stays inside the seeded database: the two programs share their
`--max-key` only. -/
theorem random_mode_iff (E : Cipher) (pGet : ℕ → Bool)
    (maxKey maxValue numOperations maxValue' numOperations' : ℤ) :
    (Seeds E (parsed maxKey maxValue numOperations) ∧
        StaysInside E pGet (parsed maxKey maxValue' numOperations')) ↔
      (maxKey ≤ 0 ∨ maxValue ≠ 0) ∧
        (numOperations' ≤ 0 ∨ (0 < maxKey ∧ (maxValue' ≠ 0 ∨ ∀ r ≤ randMax, pGet r = true))) := by
  rw [seeds_iff, staysInside_iff]

/-- Without keys, the first operation of the default budget divides by zero. -/
theorem no_keys_divide_by_zero :
    ¬ (Seeds plainCipher (parsed 0 10000 1000) ∧
      StaysInside plainCipher (fun r => r < 1073741824) (parsed 0 10000 1000)) := by
  rintro ⟨-, h⟩
  rcases (staysInside_iff _ _ _ _).mp h with hops | ⟨hkeys, -⟩
  · exact absurd hops (by decide)
  · exact absurd hkeys (by decide)

end RandomMode
end Tee
end Ortoa
