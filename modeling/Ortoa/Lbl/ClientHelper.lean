/-
# `clientHelper.cpp`: building entries and reading values

The state the helpers share is `Globals`. A `create` entry carries the label
string of the value under a fresh master key; an access entry carries four
tables of sealed labels, from the key's current master key to a fresh one.
Each is built by `PROXY_NUM_THREADS` tasks on the thread pool, which write
into one shared string per field; `Draw` holds what the outside world decides
in such a call: the fresh key, the nonces, the order in which the tasks run,
and the byte an uninitialised local happens to hold.

The maps are total functions with the default that `operator[]` inserts. The
lock table is partial, so that an entry made on demand can be told from one
that `OpScureSetup` made.
-/
import Ortoa.Lbl.Libsodium

namespace Ortoa
namespace Lbl

/-- `Entry` of `KV_RPC.thrift`; `table` is the field `encryptedLabelsA`, `B`,
`C` or `D`. -/
structure Entry where
  keyName : Bytes
  encryptedLabelsA : Bytes
  encryptedLabelsB : Bytes
  encryptedLabelsC : Bytes
  encryptedLabelsD : Bytes
  deriving DecidableEq

def Entry.table (e : Entry) : BitPair → Bytes
  | 0 => e.encryptedLabelsA
  | 1 => e.encryptedLabelsB
  | 2 => e.encryptedLabelsC
  | 3 => e.encryptedLabelsD

/-- The globals of `clientHelper.cpp`. -/
structure Globals where
  keySet : Bytes → Bool
  valueSizes : Bytes → ℕ
  masterKeys : Bytes → Bytes
  locks : Bytes → Option Bool

def Globals.setLock (g : Globals) (key : Bytes) (b : Bool) : Globals :=
  { g with locks := Function.update g.locks key (some b) }

def Globals.setSize (g : Globals) (key : Bytes) (n : ℕ) : Globals :=
  { g with valueSizes := Function.update g.valueSizes key n }

def Globals.insertKey (g : Globals) (key : Bytes) : Globals :=
  { g with keySet := Function.update g.keySet key true }

@[simp] theorem Globals.setSize_self (g : Globals) (key : Bytes) (n : ℕ) :
    (g.setSize key n).valueSizes key = n := Function.update_self _ _ _

@[simp] theorem Globals.insertKey_self (g : Globals) (key : Bytes) :
    (g.insertKey key).keySet key = true := Function.update_self _ _ _

/-- A key that is there stays there. -/
theorem Globals.keySet_insertKey {g : Globals} (key : Bytes) {key' : Bytes}
    (h : g.keySet key' = true) : (g.insertKey key).keySet key' = true := by
  by_cases hk : key' = key
  · rw [hk, insertKey_self]
  · exact (Function.update_of_ne hk _ _).trans h

/-- What libsodium and the scheduler contribute to one call. -/
structure Draw (cfg : Config) where
  /-- `crypto_kdf_keygen`. -/
  masterKey : Bytes
  /-- `randombytes_buf`, for each slot and table. -/
  nonce : ℕ → BitPair → Bytes
  /-- The order in which the pool runs the tasks. -/
  order : List ℕ
  /-- What `char c` of `readValueFromLabels` holds before it is written. -/
  uninit : UInt8
  nonce_length : ∀ s x, (nonce s x).length = cryptoSecretboxNoncebytes
  order_perm : order.Perm (List.range cfg.proxyNumThreads)

/-- A draw one can compute with. -/
def plainDraw (cfg : Config) (masterKey : Bytes) : Draw cfg where
  masterKey := masterKey
  nonce _ _ := List.replicate cryptoSecretboxNoncebytes 0
  order := List.range cfg.proxyNumThreads
  uninit := 0
  nonce_length _ _ := List.length_replicate
  order_perm := List.Perm.refl _

/-- `padToLen`: `std::string` refuses the length that a longer value gives. -/
def padToLen (value : Bytes) (len : ℕ) : Except Fault Bytes :=
  if value.length ≤ len then .ok (value ++ List.replicate (len - value.length) 32)
  else .error .lengthError

/-! ### Set-up and clean-up -/

/-- The lock table of `OpScureSetup`: the keys "0" to `KEY_MAX - 1`, free. -/
def setupLocks (keyMax : ℕ) : Bytes → Option Bool :=
  (List.range keyMax).foldl (fun locks i => Function.update locks (stdToString i) (some true))
    fun _ => none

theorem setupLocks_succ (n : ℕ) :
    setupLocks (n + 1) = Function.update (setupLocks n) (stdToString n) (some true) := by
  rw [setupLocks, List.range_succ, List.foldl_append]
  rfl

/-- The keys in the table are the numerals below `KEY_MAX`. -/
theorem setupLocks_eq_true_iff {keyMax : ℕ} {key : Bytes} :
    setupLocks keyMax key = some true ↔ ∃ n < keyMax, key = stdToString n := by
  induction keyMax with
  | zero => simp [setupLocks]
  | succ m ih =>
    rw [setupLocks_succ, Function.update_apply]
    by_cases hk : key = stdToString m
    · rw [if_pos hk]
      exact ⟨fun _ => ⟨m, by omega, hk⟩, fun _ => rfl⟩
    · rw [if_neg hk, ih]
      constructor
      · rintro ⟨n, hn, rfl⟩
        exact ⟨n, by omega, rfl⟩
      · rintro ⟨n, hn, rfl⟩
        rcases Nat.lt_succ_iff_lt_or_eq.mp hn with hlt | rfl
        · exact ⟨n, hlt, rfl⟩
        · exact absurd rfl hk

/-- What `OpScureCleanup` saves. -/
structure Saved where
  keySet : Bytes → Bool
  valueSizes : Bytes → ℕ
  masterKeys : Bytes → Bytes

/-- `OpScureSetup`: the locks, and the data file if there is one. -/
def opScureSetup (cfg : Config) (file : Option Saved) : Globals :=
  match file with
  | some f => ⟨f.keySet, f.valueSizes, f.masterKeys, setupLocks cfg.keyMax⟩
  | none => ⟨fun _ => false, fun _ => 0, fun _ => [], setupLocks cfg.keyMax⟩

/-- `OpScureCleanup`. -/
def opScureCleanup (g : Globals) : Saved := ⟨g.keySet, g.valueSizes, g.masterKeys⟩

/-! ### The entries -/

section Build

variable (cfg : Config) (L : Libsodium)

/-- `createEntryParallel`: the slots of one part, at the offset of the part. -/
def createEntryParallel (part : ℕ) (paddedVal masterKey label : Bytes) : Except Fault Bytes := do
  let start := partStart cfg.valueSize cfg.proxyNumThreads part
  let limit := partLimit cfg.valueSize cfg.proxyNumThreads part
  let ptr := start * 4 * (1 + cryptoSecretboxKeybytes)
  let (label, _) ← forRange start limit (label, ptr) fun i st => do
    let c ← byteAt paddedVal i
    forRange 0 4 st fun j (label, ptr) => do
      let slot := createSlot L.toSodium masterKey (4 * i + j) (getBits c (2 * j))
      let label ← label.write Fault.outOfBounds ptr [slot.1]
      let label ← label.write Fault.outOfBounds (ptr + 1) slot.2
      pure (label, ptr + 1 + cryptoSecretboxKeybytes)
  pure label

/-- `constructCreateEntry`. The master key is replaced before the tasks run. -/
def constructCreateEntry (g : Globals) (key value : Bytes) (d : Draw cfg) :
    Except Fault (Globals × Entry) := do
  let paddedVal ← padToLen value cfg.valueSize
  let g := { g with masterKeys := Function.update g.masterKeys key d.masterKey }
  let label := List.replicate (cfg.valueSize * 4 * (1 + cryptoSecretboxKeybytes)) 0
  let label ← runTasks d.order label fun part label =>
    createEntryParallel cfg L part paddedVal (g.masterKeys key) label
  pure (g, ⟨key, label, [], [], []⟩)

/-- The four nonces and ciphertexts of a slot, each at the same offset of its
table. -/
def writeTables (tables : BitPair → Bytes) (ptr : ℕ) (nonce ciphertext : BitPair → Bytes) :
    Except Fault (BitPair → Bytes) :=
  ([0, 1, 2, 3] : List BitPair).foldlM (fun tables x => do
    let table ← (tables x).write Fault.outOfBounds ptr (nonce x)
    let table ← table.write Fault.outOfBounds (ptr + cryptoSecretboxNoncebytes) (ciphertext x)
    pure (Function.update tables x table)) tables

/-- The loops `getEntryParallel` and `putEntryParallel` share; `ciphertext i j`
is the body's table for slot `4 * i + j`. -/
def accessEntryParallel (part : ℕ) (nonce : ℕ → BitPair → Bytes)
    (ciphertext : ℕ → ℕ → Except Fault (BitPair → Bytes)) (tables : BitPair → Bytes) :
    Except Fault (BitPair → Bytes) := do
  let start := partStart cfg.valueSize cfg.proxyNumThreads part
  let limit := partLimit cfg.valueSize cfg.proxyNumThreads part
  let ptr := start * 4 * (ciphertextLen + cryptoSecretboxNoncebytes)
  let (tables, _) ← forRange start limit (tables, ptr) fun i st =>
    forRange 0 4 st fun j (tables, ptr) => do
      let slot ← ciphertext i j
      let tables ← writeTables tables ptr (nonce (4 * i + j)) slot
      pure (tables, ptr + (cryptoSecretboxNoncebytes + ciphertextLen))
  pure tables

/-- `getEntryParallel`. -/
def getEntryParallel (part : ℕ) (masterKey newMasterKey : Bytes) (nonce : ℕ → BitPair → Bytes)
    (tables : BitPair → Bytes) : Except Fault (BitPair → Bytes) :=
  accessEntryParallel cfg part nonce
    (fun i j => pure (getSlot L.toSodium masterKey newMasterKey (4 * i + j) (nonce (4 * i + j))))
    tables

/-- `putEntryParallel`. -/
def putEntryParallel (part : ℕ) (paddedVal masterKey newMasterKey : Bytes)
    (nonce : ℕ → BitPair → Bytes) (tables : BitPair → Bytes) : Except Fault (BitPair → Bytes) :=
  accessEntryParallel cfg part nonce
    (fun i j => do
      let c ← byteAt paddedVal i
      pure (putSlot L.toSodium masterKey newMasterKey (4 * i + j) (getBits c (2 * j))
        (nonce (4 * i + j))))
    tables

/-- The four fields of an access entry before the tasks run. -/
def emptyTables : BitPair → Bytes := fun _ =>
  List.replicate (cfg.valueSize * 4 * (cryptoSecretboxNoncebytes + ciphertextLen)) 0

/-- `constructGetEntry`. The master key is replaced once the entry is built. -/
def constructGetEntry (g : Globals) (key : Bytes) (d : Draw cfg) :
    Except Fault (Globals × Entry) := do
  let tables ← runTasks d.order (emptyTables cfg) fun part tables =>
    getEntryParallel cfg L part (g.masterKeys key) d.masterKey d.nonce tables
  pure ({ g with masterKeys := Function.update g.masterKeys key d.masterKey },
    ⟨key, tables 0, tables 1, tables 2, tables 3⟩)

/-- `constructPutEntry`. -/
def constructPutEntry (g : Globals) (key value : Bytes) (d : Draw cfg) :
    Except Fault (Globals × Entry) := do
  let paddedVal ← padToLen value cfg.valueSize
  let tables ← runTasks d.order (emptyTables cfg) fun part tables =>
    putEntryParallel cfg L part paddedVal (g.masterKeys key) d.masterKey d.nonce tables
  pure ({ g with masterKeys := Function.update g.masterKeys key d.masterKey },
    ⟨key, tables 0, tables 1, tables 2, tables 3⟩)

/-- `readValueFromLabels`. One byte `c` serves the whole loop; each pass
overwrites its eight bits. -/
def readValueFromLabels (g : Globals) (key labels : Bytes) (uninit : UInt8) :
    Except Fault Bytes := do
  let result : Bytes := List.replicate cfg.valueSize 0
  let (result, _, _) ← forRange 0 cfg.valueSize (result, 1, uninit) fun i (result, ptr, c) => do
    let (ptr, c) ← forRange 0 4 (ptr, c) fun j (ptr, c) => do
      let currLabel ← labels.read Fault.outOfBounds ptr cryptoSecretboxKeybytes
      let c := modifyBits c (2 * j) (readSlot L.toSodium (g.masterKeys key) (4 * i + j) currLabel)
      pure (ptr + (cryptoSecretboxKeybytes + 1), c)
    let result ← result.write Fault.outOfBounds i [c]
    pure (result, ptr, c)
  pure (result.take (g.valueSizes key))

end Build

end Lbl
end Ortoa
