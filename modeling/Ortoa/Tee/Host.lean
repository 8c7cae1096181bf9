/-
# The host, the enclave and the client of `ortoa-tee`

`RPCHandler::access` reads the stored value of a key from redis, has the
enclave re-encrypt it (GET) or the client's value (PUT), and stores and
returns the outcome. The generated stub copies back as many bytes of the
enclave's `out_val` as the EDL's `[out, count=in_size]` says, that is as many
as the stored value has; the length comes through `out_size` untouched. So a
PUT goes wrong when its ciphertext is longer than the one it replaces
(`longer_put_is_cut`), and otherwise the store is a map from keys to values
(`store_is_map`).

What uninitialised memory holds is an argument of the model (`Draw`).

Key definitions: `accessData`, `outVal`, `accessDataCall`, `access`, `initDB`, `issue`,
`StoreInv`, `Fits`.
Key theorems: `outVal_eq`, `accessDataCall_eq`, `issue_ok`, `store_is_map`.
-/
import Ortoa.Tee.Engine
import Ortoa.Run
import Ortoa.Latest

namespace Ortoa
namespace Tee

/-! ### The enclave -/

/-- `OpType` of `Operation.thrift`. -/
inductive OpType
  | get
  | put
  | eod
  deriving DecidableEq, Repr

/-- What a request draws and what it finds in memory: the suffix, and what is in
the host's `out` before anything is written to it. -/
structure Draw where
  suffix : Suffix
  out : ℕ → UInt8

/-- The redis database. -/
abbrev Db := Bytes → Option Bytes

section Programs

variable (E : Cipher)

/-- `access_data`: what it writes to `cipher_text`. -/
def accessData (op : OpType) (inVal updateVal : Bytes) (s : Suffix) : Except Fault Bytes :=
  if op = .get then (decryptNonDeterministic E inVal).map fun v => encryptNonDeterministic E v s
  else (decryptNonDeterministic E updateVal).map fun v => encryptNonDeterministic E v s

/-- The first `out_len` bytes of the host's `out` after the call: the first
`in_size` are the enclave's, the others as they were. -/
def outVal (inSize : ℕ) (cipherText : Bytes) (d : Draw) : Bytes :=
  (List.range cipherText.length).map fun i =>
    if i < inSize then cipherText.getD i 0 else d.out i

/-- The generated `access_data` of the host: an enclave that has aborted
answers with an error. -/
def accessDataCall (up : Bool) (op : OpType) (inVal updateVal : Bytes) (d : Draw) :
    Except Fault Bytes :=
  if up then
    match accessData E op inVal updateVal d.suffix with
    | .error f => .error f
    | .ok cipherText =>
      if inVal.length ≤ bufferSize ∧ cipherText.length ≤ bufferSize then
        .ok (outVal inVal.length cipherText d)
      else .error .overflow
  else .error .abort

/-! ### The host -/

structure World where
  db : Db
  /-- The enclave has not aborted. -/
  enclaveUp : Bool

/-- `Operation` of `Operation.thrift`. -/
structure Operation where
  op : OpType
  key : Bytes
  value : Bytes
  deriving DecidableEq, Repr

/-- `redisCli::get`. -/
def get (db : Db) (key : Bytes) : Bytes := (db key).getD []

/-- `redisCli::put`. -/
def put (db : Db) (key value : Bytes) : Db := Function.update db key (some value)

/-- `redisCli::put_batch`. -/
def putBatch (db : Db) (operations : List (Bytes × Bytes)) : Db :=
  operations.foldl (fun db op => put db op.1 op.2) db

/-- `RPCHandler::access`, with what is in `_return`; nothing is known after a
write past the end of a buffer. -/
def access (w : World) (o : Operation) (d : Draw) : Option (World × Bytes) :=
  match accessDataCall E w.enclaveUp o.op (get w.db o.key) o.value d with
  | .ok updatedVal => some ({ w with db := put w.db o.key updatedVal }, updatedVal)
  | .error .abort => some ({ w with enclaveUp := false }, [])
  | .error .overflow => none

/-! ### The client -/

/-- `clientEncrypt`. -/
def clientEncrypt (value : Bytes) (s : Suffix) : Except Fault Bytes :=
  if (encryptNonDeterministic E value s).length ≤ bufferSize then
    .ok (encryptNonDeterministic E value s)
  else .error .overflow

/-- A pair to fill the database with. -/
structure Seed where
  key : Bytes
  value : Bytes
  suffix : Suffix

/-- `getInitKV`: the pair, encrypted. -/
def getInitKV (s : Seed) : Except Fault (Bytes × Bytes) :=
  (clientEncrypt E s.value s.suffix).map fun value => (s.key, value)

/-- `initDB`. -/
def initDB (db : Db) (seeds : List Seed) : Except Fault Db :=
  (seeds.mapM (getInitKV E)).map (putBatch db)

/-- A request of the client before it is encrypted, and what its processing
draws. -/
structure Command where
  op : OpType
  key : Bytes
  value : Bytes
  suffix : Suffix
  draw : Draw

/-- The client encrypts the value and calls `access`. -/
def issue (w : World) (c : Command) : Option (World × Bytes) :=
  match clientEncrypt E c.value c.suffix with
  | .ok value => access E w ⟨c.op, c.key, value⟩ c.draw
  | .error _ => none

def next (w : World) (c : Command) : Option World := (issue E w c).map Prod.fst

end Programs

/-! ### One request -/

variable {E : Cipher}

/-- The ciphertext arrives whole if it is no longer than the stored value. -/
theorem outVal_eq {inSize : ℕ} {cipherText : Bytes} (d : Draw) (h : cipherText.length ≤ inSize) :
    outVal inSize cipherText d = cipherText := by
  refine List.ext_getElem (by simp [outVal]) fun i _ hi => ?_
  simp [outVal, show i < inSize by omega, List.getD_eq_getElem?_getD, hi]

/-- A value that a plain string can stand for: no zero bytes, and its
ciphertext fits into a buffer. -/
structure Storable (v : Bytes) : Prop where
  nul_free : (0 : UInt8) ∉ v
  fits : v.length ≤ 4084

/-- What `accessDataCall` needs of a ciphertext: it decrypts to `v`. -/
theorem decrypt_storable {v : Bytes} (hv : Storable v) (s : Suffix) :
    decryptNonDeterministic E (encryptNonDeterministic E v s) = .ok v :=
  decryptNonDeterministic_encrypt s hv.nul_free hv.fits

theorem encrypted_fits {v : Bytes} (s : Suffix) :
    (encryptNonDeterministic E v s).length ≤ bufferSize ↔ v.length ≤ 4084 := by
  rw [encryptNonDeterministic_length, bufferSize]
  omega

theorem clientEncrypt_ok {v : Bytes} (s : Suffix) (hv : v.length ≤ 4084) :
    clientEncrypt E v s = .ok (encryptNonDeterministic E v s) := by
  rw [clientEncrypt, if_pos ((encrypted_fits s).mpr hv)]

theorem clientEncrypt_eq_ok {v c : Bytes} {s : Suffix} (h : clientEncrypt E v s = .ok c) :
    v.length ≤ 4084 ∧ c = encryptNonDeterministic E v s := by
  unfold clientEncrypt at h
  split at h
  · rename_i hfits
    exact ⟨(encrypted_fits s).mp hfits, (Except.ok.inj h).symm⟩
  · cases h

/-- One value is decrypted and encrypted again: the stored one or the client's. -/
theorem accessData_eq (E : Cipher) (op : OpType) (inVal updateVal : Bytes) (s : Suffix) :
    accessData E op inVal updateVal s =
      (decryptNonDeterministic E (if op = .get then inVal else updateVal)).map
        fun v => encryptNonDeterministic E v s := by
  unfold accessData
  split <;> rfl

/-- The call on a stored ciphertext of `u` and a client's ciphertext of `v`. -/
theorem accessDataCall_eq {u v : Bytes} {op : OpType} {inVal updateVal : Bytes} (d : Draw)
    (hin : op = .get → decryptNonDeterministic E inVal = .ok u)
    (hupdate : op ≠ .get → decryptNonDeterministic E updateVal = .ok v)
    (hfits : (if op = .get then u else v).length ≤ 4084) (hsize : inVal.length ≤ bufferSize) :
    accessDataCall E true op inVal updateVal d = .ok (outVal inVal.length
      (encryptNonDeterministic E (if op = .get then u else v) d.suffix) d) := by
  have hdec : decryptNonDeterministic E (if op = .get then inVal else updateVal) =
      .ok (if op = .get then u else v) := by
    by_cases hop : op = .get
    · rw [if_pos hop, if_pos hop, hin hop]
    · rw [if_neg hop, if_neg hop, hupdate hop]
  have hdata : accessData E op inVal updateVal d.suffix =
      .ok (encryptNonDeterministic E (if op = .get then u else v) d.suffix) := by
    rw [accessData_eq, hdec, Except.map]
  simp only [accessDataCall, if_true, hdata]
  rw [if_pos ⟨hsize, (encrypted_fits d.suffix).mpr hfits⟩]

/-- A call that succeeds has re-encrypted a value that can be stored. -/
theorem accessDataCall_inv {up : Bool} {op : OpType} {inVal updateVal out : Bytes} {d : Draw}
    (h : accessDataCall E up op inVal updateVal d = .ok out) : ∃ v,
      decryptNonDeterministic E (if op = .get then inVal else updateVal) = .ok v ∧ Storable v ∧
        out = outVal inVal.length (encryptNonDeterministic E v d.suffix) d := by
  cases up with
  | false => cases h
  | true =>
    unfold accessDataCall at h
    rw [if_pos rfl, accessData_eq] at h
    cases hv : decryptNonDeterministic E (if op = .get then inVal else updateVal) with
    | error f =>
      rw [hv] at h
      cases h
    | ok v =>
      rw [hv] at h
      simp only [Except.map] at h
      split at h
      · rename_i hfits
        exact ⟨v, rfl, ⟨nul_free_of_decryptNonDeterministic hv, (encrypted_fits d.suffix).mp hfits.2⟩,
          (Except.ok.inj h).symm⟩
      · cases h

/-- The enclave aborts if and only if the value does not decrypt. -/
theorem accessDataCall_abort {op : OpType} {inVal updateVal : Bytes} {d : Draw} :
    accessDataCall E true op inVal updateVal d = .error .abort ↔
      decryptNonDeterministic E (if op = .get then inVal else updateVal) = .error .abort := by
  unfold accessDataCall
  rw [if_pos rfl, accessData_eq]
  cases decryptNonDeterministic E (if op = .get then inVal else updateVal) with
  | error f => simp [Except.map]
  | ok v =>
    simp only [Except.map]
    split <;> simp

/-- The request whose call succeeds stores what has arrived. -/
theorem issue_of_call {w : World} {c : Command} {reply : Bytes} (hup : w.enclaveUp = true)
    (hlen : c.value.length ≤ 4084) (hcall : accessDataCall E true c.op (get w.db c.key)
      (encryptNonDeterministic E c.value c.suffix) c.draw = .ok reply) :
    issue E w c = some (⟨put w.db c.key reply, true⟩, reply) := by
  simp only [issue, clientEncrypt_ok c.suffix hlen, access, hup, hcall]

/-! ### Runs -/

/-- The database holds a ciphertext of every last value. -/
def StoreInv (E : Cipher) (ws : List (Bytes × Bytes)) (db : Db) : Prop :=
  ∀ key v, latest ws key = some v → Storable v ∧ ∃ s, db key = some (encryptNonDeterministic E v s)

theorem StoreInv.put {ws : List (Bytes × Bytes)} {db : Db} {key v : Bytes} (h : StoreInv E ws db)
    (hv : Storable v) (s : Suffix) :
    StoreInv E (ws ++ [(key, v)]) (put db key (encryptNonDeterministic E v s)) := by
  intro k u hu
  by_cases hk : k = key
  · rw [hk, latest_concat_self, Option.some.injEq] at hu
    subst hu
    exact ⟨hv, s, by rw [hk, Tee.put, Function.update_self]⟩
  · rw [latest_concat_ne _ _ hk] at hu
    rw [Tee.put, Function.update_of_ne hk]
    exact h k u hu

/-- Re-encrypting a value stores it again. -/
theorem StoreInv.again {ws : List (Bytes × Bytes)} {db : Db} {key v : Bytes} (h : StoreInv E ws db)
    (hv : latest ws key = some v) (s : Suffix) :
    StoreInv E ws (Tee.put db key (encryptNonDeterministic E v s)) := by
  intro k u hu
  by_cases hk : k = key
  · rw [hk, hv, Option.some.injEq] at hu
    subst hu
    exact ⟨(h key v hv).1, s, by rw [hk, Tee.put, Function.update_self]⟩
  · rw [Tee.put, Function.update_of_ne hk]
    exact h k u hu

/-- What `initDB` writes. -/
def seeded (seeds : List Seed) : List (Bytes × Bytes) := seeds.map fun s => (s.key, s.value)

theorem mapM_getInitKV : ∀ {seeds : List Seed} {ops : List (Bytes × Bytes)},
    seeds.mapM (getInitKV E) = .ok ops → (∀ s ∈ seeds, s.value.length ≤ 4084) ∧
      ops = seeds.map fun s => (s.key, encryptNonDeterministic E s.value s.suffix)
  | [], ops, h => by
    rw [List.mapM_nil] at h
    exact ⟨by simp, (Except.ok.inj h).symm⟩
  | s :: seeds, ops, h => by
    rw [List.mapM_cons] at h
    cases hc : clientEncrypt E s.value s.suffix with
    | error f =>
      rw [show getInitKV E s = .error f by rw [getInitKV, hc]; rfl] at h
      cases h
    | ok c =>
      obtain ⟨hlen, rfl⟩ := clientEncrypt_eq_ok hc
      rw [show getInitKV E s = .ok (s.key, _) by rw [getInitKV, hc]; rfl] at h
      cases hrest : seeds.mapM (getInitKV E) with
      | error f =>
        rw [hrest] at h
        cases h
      | ok rest =>
        rw [hrest] at h
        obtain ⟨hlens, rfl⟩ := mapM_getInitKV hrest
        exact ⟨List.forall_mem_cons.mpr ⟨hlen, hlens⟩, (Except.ok.inj h).symm⟩

/-- A database that `initDB` has filled. -/
theorem storeInv_initDB {db0 db : Db} {seeds : List Seed} (h : initDB E db0 seeds = .ok db)
    (hnul : ∀ s ∈ seeds, (0 : UInt8) ∉ s.value) : StoreInv E (seeded seeds) db := by
  obtain ⟨ops, hops, rfl⟩ : ∃ ops, seeds.mapM (getInitKV E) = .ok ops ∧ putBatch db0 ops = db := by
    unfold initDB at h
    cases hm : seeds.mapM (getInitKV E) with
    | error f => rw [hm] at h; cases h
    | ok ops => rw [hm] at h; exact ⟨ops, rfl, Except.ok.inj h⟩
  obtain ⟨hlen, rfl⟩ := mapM_getInitKV hops
  clear h hops
  induction seeds using List.reverseRecOn with
  | nil => exact fun _ _ h => by cases h
  | append_singleton seeds s ih =>
    have hI := ih (fun t ht => hnul t (List.mem_append_left _ ht))
      fun t ht => hlen t (List.mem_append_left _ ht)
    have hs : s ∈ seeds ++ [s] := List.mem_append_right _ List.mem_cons_self
    rw [seeded, List.map_append, List.map_append, putBatch, List.foldl_append]
    exact hI.put ⟨hnul s hs, hlen s hs⟩ s.suffix

/-- What a request writes. -/
def writesOf (c : Command) : List (Bytes × Bytes) := if c.op = .get then [] else [(c.key, c.value)]

def writes (cs : List Command) : List (Bytes × Bytes) := cs.flatMap writesOf

/-- The request's ciphertext is no longer than the stored one, or it is a GET. -/
def Fits (E : Cipher) (w : World) (c : Command) : Prop :=
  c.op = .get ∨ (encryptNonDeterministic E c.value c.suffix).length ≤ (get w.db c.key).length

/-- The value that a request leaves. -/
def leaves (u : Bytes) (c : Command) : Bytes := if c.op = .get then u else c.value

/-- A request stores and returns a ciphertext of the value that it leaves. -/
theorem issue_ok {ws : List (Bytes × Bytes)} {w : World} {c : Command} {u : Bytes}
    (hI : StoreInv E ws w.db) (hup : w.enclaveUp = true) (hu : latest ws c.key = some u)
    (hc : Storable c.value) (hfits : Fits E w c) :
    issue E w c = some (⟨put w.db c.key (encryptNonDeterministic E (leaves u c) c.draw.suffix), true⟩,
      encryptNonDeterministic E (leaves u c) c.draw.suffix) := by
  obtain ⟨hus, s, hdb⟩ := hI c.key u hu
  have hget : get w.db c.key = encryptNonDeterministic E u s := by rw [get, hdb]; rfl
  have hleaves : Storable (leaves u c) := by
    unfold leaves
    split
    · exact hus
    · exact hc
  have hlen : (encryptNonDeterministic E (leaves u c) c.draw.suffix).length ≤
      (encryptNonDeterministic E u s).length := by
    rcases hfits with hget' | hle
    · rw [leaves, if_pos hget', encryptNonDeterministic_length, encryptNonDeterministic_length]
    · rw [hget, encryptNonDeterministic_length] at hle
      unfold leaves
      split <;> rw [encryptNonDeterministic_length]
      · rw [encryptNonDeterministic_length]
      · exact hle
  have hcall : accessDataCall E true c.op (encryptNonDeterministic E u s)
      (encryptNonDeterministic E c.value c.suffix) c.draw =
        .ok (encryptNonDeterministic E (leaves u c) c.draw.suffix) := by
    rw [accessDataCall_eq c.draw (fun _ => decrypt_storable hus s)
      (fun _ => decrypt_storable hc c.suffix) hleaves.fits ((encrypted_fits s).mpr hus.fits)]
    exact congrArg Except.ok (outVal_eq c.draw hlen)
  exact issue_of_call hup hc.fits (hget ▸ hcall)

/-- The requests of a run: on seeded keys, with values that can be stored. -/
structure Request (seeds : List Seed) (c : Command) : Prop where
  known : ∃ s ∈ seeds, s.key = c.key
  storable : Storable c.value

theorem latest_append_isSome (ws ws' : List (Bytes × Bytes)) {key : Bytes}
    (h : (latest ws key).isSome = true) : (latest (ws ++ ws') key).isSome = true := by
  obtain ⟨v, hv⟩ := latest_isSome_iff.mp h
  exact latest_isSome_iff.mpr ⟨v, List.mem_append_left _ hv⟩

theorem seeded_isSome {seeds : List Seed} {c : Command} (h : Request seeds c)
    (ws : List (Bytes × Bytes)) : ∃ u, latest (seeded seeds ++ ws) c.key = some u := by
  obtain ⟨s, hs, hk⟩ := h.known
  refine Option.isSome_iff_exists.mp (latest_append_isSome _ _ (latest_isSome_iff.mpr ⟨s.value, ?_⟩))
  exact hk ▸ List.mem_map_of_mem hs

/-- A request that fits keeps a ciphertext of every last value. -/
theorem next_ok {ws : List (Bytes × Bytes)} {w : World} {c : Command} {u : Bytes}
    (hI : StoreInv E ws w.db) (hup : w.enclaveUp = true) (hu : latest ws c.key = some u)
    (hc : Storable c.value) (hfits : Fits E w c) :
    ∃ w', next E w c = some w' ∧ w'.enclaveUp = true ∧ StoreInv E (ws ++ writesOf c) w'.db := by
  refine ⟨_, by rw [next, issue_ok hI hup hu hc hfits]; rfl, rfl, ?_⟩
  by_cases hop : c.op = .get
  · rw [writesOf, if_pos hop, List.append_nil, leaves, if_pos hop]
    exact hI.again hu _
  · rw [writesOf, if_neg hop, leaves, if_neg hop]
    exact hI.put hc _

theorem run_storeInv {seeds : List Seed} {db : Db} (h0 : StoreInv E (seeded seeds) db)
    {cs : List Command} (hcs : ∀ c ∈ cs, Request seeds c)
    (hfits : Along (next E) (Fits E) ⟨db, true⟩ cs) :
    ∃ w, run (next E) ⟨db, true⟩ cs = some w ∧ w.enclaveUp = true ∧
      StoreInv E (seeded seeds ++ writes cs) w.db := by
  refine run_total (next E) (fun cs w => w.enclaveUp = true ∧
    StoreInv E (seeded seeds ++ writes cs) w.db) ⟨rfl, by simpa [writes] using h0⟩ ?_
    (hfits.and _ (along_of_forall (next E) _ hcs))
  rintro cs w c - ⟨hup, hI⟩ ⟨hfit, hc⟩
  obtain ⟨u, hu⟩ := seeded_isSome hc (writes cs)
  obtain ⟨w', hnext, hup', hI'⟩ := next_ok hI hup hu hc.storable hfit
  refine ⟨w', hnext, hup', ?_⟩
  rwa [writes, List.flatMap_append, ← List.append_assoc, List.flatMap_singleton]

/-- As long as no PUT has a longer ciphertext than the one it replaces, the
store is a map: every request stores and returns a ciphertext of the value of
its key, which a PUT replaces and a GET leaves, and touches no other entry. -/
theorem store_is_map (E : Cipher) {db0 db : Db} {seeds : List Seed}
    (hinit : initDB E db0 seeds = .ok db) (hnul : ∀ s ∈ seeds, (0 : UInt8) ∉ s.value)
    (cs : List Command) (hcs : ∀ c ∈ cs, Request seeds c)
    (hfits : Along (next E) (Fits E) ⟨db, true⟩ cs) :
    (∃ w, run (next E) ⟨db, true⟩ cs = some w) ∧ ∀ pre c post, cs = pre ++ c :: post →
      ∃ w w' reply u, run (next E) ⟨db, true⟩ pre = some w ∧ issue E w c = some (w', reply) ∧
        latest (seeded seeds ++ writes pre) c.key = some u ∧
        decryptNonDeterministic E (get w.db c.key) = .ok u ∧ w'.db c.key = some reply ∧
        decryptNonDeterministic E reply = .ok (if c.op = .get then u else c.value) ∧
        ∀ key, key ≠ c.key → w'.db key = w.db key := by
  have h0 := storeInv_initDB hinit hnul
  refine ⟨(run_storeInv h0 hcs hfits).imp fun _ h => h.1, ?_⟩
  rintro pre c post rfl
  have hc := hcs c (by simp)
  obtain ⟨hpre, hrest⟩ := (along_append (next E)).mp hfits
  obtain ⟨w, hrun, hup, hI⟩ := run_storeInv h0 (fun c' h => hcs c' (List.mem_append_left _ h)) hpre
  obtain ⟨u, hu⟩ := seeded_isSome hc (writes pre)
  obtain ⟨hus, s, hdb⟩ := hI c.key u hu
  refine ⟨w, _, _, u, hrun, issue_ok hI hup hu hc.storable (hrest w hrun).1, hu, ?_, ?_, ?_, ?_⟩
  · rw [get, hdb]
    exact decrypt_storable hus s
  · exact Function.update_self _ _ _
  · refine decrypt_storable ?_ c.draw.suffix
    unfold leaves
    split
    · exact hus
    · exact hc.storable
  · exact fun key hk => Function.update_of_ne hk _ _

/-! ### A PUT that is longer than what it replaces -/

section Longer

def key0 : Bytes := [48]
def one : Bytes := [49]
def tenThousand : Bytes := [49, 48, 48, 48, 48]

def seedOf (value : Bytes) : Seed := ⟨key0, value, zeroSuffix⟩

/-- What `initDB` makes of an empty database. -/
def dbOf (value : Bytes) : Db :=
  put (fun _ => none) key0 (encryptNonDeterministic plainCipher value zeroSuffix)

def plainDraw : Draw := ⟨zeroSuffix, fun _ => 0⟩

def putOf (value : Bytes) : Command := ⟨.put, key0, value, zeroSuffix, plainDraw⟩

theorem initDB_seedOf {value : Bytes} (h : value.length ≤ 4084) :
    initDB plainCipher (fun _ => none) [seedOf value] = .ok (dbOf value) := by
  have hget : getInitKV plainCipher (seedOf value) =
      .ok (key0, encryptNonDeterministic plainCipher value zeroSuffix) := by
    rw [getInitKV, seedOf, clientEncrypt_ok _ h]
    rfl
  rw [initDB, List.mapM_cons, hget]
  rfl

theorem store_is_map_shorter : ∃ w' reply,
    issue plainCipher ⟨dbOf tenThousand, true⟩ (putOf one) = some (w', reply) ∧
      decryptNonDeterministic plainCipher reply = .ok one := by
  obtain ⟨-, h⟩ := store_is_map plainCipher (initDB_seedOf (show tenThousand.length ≤ 4084 by decide))
    (List.forall_mem_singleton.mpr (by decide)) [putOf one]
    (List.forall_mem_singleton.mpr ⟨⟨seedOf tenThousand, by simp, rfl⟩, ⟨by decide, by decide⟩⟩)
    ⟨Or.inr (by decide), fun _ _ => trivial⟩
  obtain ⟨w, w', reply, u, hrun, hissue, -, -, -, hdec, -⟩ := h [] (putOf one) [] rfl
  rw [run_nil, Option.some.injEq] at hrun
  exact ⟨w', reply, hrun ▸ hissue, hdec⟩

/-- What arrives of the longer ciphertext. -/
def cut : Bytes :=
  outVal 16 (encryptNonDeterministic plainCipher tenThousand zeroSuffix) (putOf tenThousand).draw

/-- Of the 32 bytes of the new ciphertext 16 arrive; here the other 16 are
zeros, and what is stored does not decrypt any more. -/
theorem longer_put_is_cut : initDB plainCipher (fun _ => none) [seedOf one] = .ok (dbOf one) ∧
    ∃ w' reply, issue plainCipher ⟨dbOf one, true⟩ (putOf tenThousand) = some (w', reply) ∧
      w'.db key0 = some reply ∧
      decryptNonDeterministic plainCipher reply ≠ .ok tenThousand := by
  have hv : Storable tenThousand := ⟨by decide, by decide⟩
  have hcall : accessDataCall plainCipher true .put (get (dbOf one) key0)
      (encryptNonDeterministic plainCipher tenThousand zeroSuffix) (putOf tenThousand).draw = .ok cut :=
    accessDataCall_eq (u := []) _ (fun h => by cases h) (fun _ => decrypt_storable hv zeroSuffix)
      hv.fits (by decide)
  exact ⟨initDB_seedOf (by decide), ⟨put (dbOf one) key0 cut, true⟩, cut,
    issue_of_call rfl hv.fits hcall, by simp [put], by decide⟩

end Longer

end Tee
end Ortoa
