/-
# What the entry builders compute

Whatever the number of tasks and the order in which they run, a `create`
entry is the label string of the padded value under the fresh master key
(`constructCreateEntry_eq`), and an access entry is the string, for each
table, of the nonces and sealed labels of every slot
(`constructGetEntry_eq`, `constructPutEntry_eq`). Reading back the label
string of a value under the key's master key gives the value
(`readValueFromLabels_eq`).

The tasks write at offsets they compute from their part number; a task fills
exactly the slots of its part (`createEntryParallel_ok`,
`accessEntryParallel_ok`), the parts cover the value (`exists_part`), and
`runTasks_filled` puts them together.
-/
import Ortoa.Lbl.ClientHelper

namespace Ortoa
namespace Lbl

open Bytes

/-- The bit pair of slot `s` of a value. -/
def pairAt (v : Bytes) (s : ℕ) : BitPair := getBits (v.getD (s / 4) 0) (2 * (s % 4))

theorem pairAt_mul_add (v : Bytes) (i : ℕ) {j : ℕ} (hj : j < 4) :
    pairAt v (4 * i + j) = getBits (v.getD i 0) (2 * j) := by
  unfold pairAt
  rw [show (4 * i + j) / 4 = i by omega, show (4 * i + j) % 4 = j by omega]

/-- What is stored in slot `s` for the value `v` under `mk`. -/
def labelSlot (L : Libsodium) (mk v : Bytes) (s : ℕ) : Bytes :=
  slotBytes (createSlot L.toSodium mk s (pairAt v s))

/-- The label string of a value of `size` bytes. -/
def labelString (L : Libsodium) (size : ℕ) (mk v : Bytes) : Bytes :=
  ofSlots (labelSlot L mk v) (size * 4)

/-- One slot of a table: the nonce and the sealed label. -/
def boxSlot (nonce box : ℕ → BitPair → Bytes) (x : BitPair) (s : ℕ) : Bytes := nonce s x ++ box s x

/-- A table of an access entry. -/
def boxString (size : ℕ) (nonce box : ℕ → BitPair → Bytes) (x : BitPair) : Bytes :=
  ofSlots (boxSlot nonce box x) (size * 4)

theorem labelSlot_length (L : Libsodium) (mk v : Bytes) (s : ℕ) :
    (labelSlot L mk v s).length = labelWidth := L.createSlot_length _ _ _

theorem labelString_length (L : Libsodium) (size : ℕ) (mk v : Bytes) :
    (labelString L size mk v).length = size * 4 * labelWidth :=
  ofSlots_length fun _ _ => labelSlot_length _ _ _ _

theorem boxString_length (size : ℕ) {nonce box : ℕ → BitPair → Bytes}
    (hn : ∀ s x, (nonce s x).length = cryptoSecretboxNoncebytes)
    (hb : ∀ s x, (box s x).length = ciphertextLen) (x : BitPair) :
    (boxString size nonce box x).length = size * 4 * boxWidth :=
  ofSlots_length fun s _ => by rw [boxSlot, List.length_append, hn, hb]

/-- The slots of the bytes of one part. -/
def partSlots (size threads part k : ℕ) : Prop :=
  4 * partStart size threads part ≤ k ∧ k < 4 * partLimit size threads part

/-- Every slot is in a part. -/
theorem exists_partSlots {size threads k : ℕ} (ht : 0 < threads) (hk : k < size * 4) :
    ∃ p < threads, partSlots size threads p k := by
  obtain ⟨p, hp, h1, h2⟩ := exists_part ht (i := k / 4) (by omega : k / 4 < size)
  exact ⟨p, hp, by omega, by omega⟩

section Build

variable (cfg : Config) (L : Libsodium)

/-! ### The tasks -/

/-- A task of a `create` fills the slots of its part. -/
theorem createEntryParallel_ok (part : ℕ) {paddedVal label : Bytes} (masterKey : Bytes)
    (hpad : paddedVal.length = cfg.valueSize)
    (hlabel : label.length = cfg.valueSize * 4 * labelWidth) :
    ∃ label', createEntryParallel cfg L part paddedVal masterKey label = .ok label' ∧
      Filled labelWidth (cfg.valueSize * 4) (labelSlot L masterKey paddedVal)
        (partSlots cfg.valueSize cfg.proxyNumThreads part) label label' := by
  unfold createEntryParallel partSlots
  simp only
  have hlim := partLimit_le cfg.valueSize cfg.proxyNumThreads part
  generalize partStart cfg.valueSize cfg.proxyNumThreads part = start at *
  generalize partLimit cfg.valueSize cfg.proxyNumThreads part = limit at *
  rcases Nat.lt_or_ge limit start with hlt | hle
  · rw [forRange_of_le hlt.le]
    exact ⟨label, rfl, Filled.refl (fun k _ => by omega) _⟩
  -- the pointer is at the slot the loops have come to; the slots before it are filled
  let I : ℕ → Bytes × ℕ → Prop := fun k st => st.2 = k * labelWidth ∧
    Filled labelWidth (cfg.valueSize * 4) (labelSlot L masterKey paddedVal)
      (fun s => 4 * start ≤ s ∧ s < k) label st.1
  refine forRange_bind (fun i => I (4 * i)) hle
    ⟨by rw [labelWidth, Nat.mul_comm start], Filled.refl (fun k _ => by omega) _⟩ ?_ fun st h => ⟨st.1, rfl, h.2⟩
  intro i st hs hi hI
  rw [byteAt_ok (by omega : i < paddedVal.length)]
  refine forRange_ok (fun j => I (4 * i + j)) (by omega) hI fun j ⟨lab, ptr⟩ _ hj ⟨hp, hF⟩ => ?_
  simp only at hp
  subst hp
  have hslot : labelSlot L masterKey paddedVal (4 * i + j) =
      [(createSlot L.toSodium masterKey (4 * i + j) (getBits (paddedVal.getD i 0) (2 * j))).1] ++
        (createSlot L.toSodium masterKey (4 * i + j) (getBits (paddedVal.getD i 0) (2 * j))).2 := by
    rw [labelSlot, pairAt_mul_add _ _ hj]
    rfl
  obtain ⟨s1, s2, hw1, hw2, hF2⟩ := write_slot_two Fault.outOfBounds _ _
    (hF.length.trans hlabel) (by omega : 4 * i + j < cfg.valueSize * 4) hslot
    (by simp [createSlot, L.slotLabel_length])
  refine ⟨(s2, (4 * i + j + 1) * labelWidth), ?_, rfl, (hF.trans hF2).congr fun k _ => by omega⟩
  simp only [List.length_singleton] at hw2
  simp only [hw1, hw2, bind, Except.bind, pure, Except.pure, Except.ok.injEq, Prod.mk.injEq,
    true_and]
  ring

/-- The eight writes of a slot fill it in all four tables. -/
theorem writeTables_ok (nonce box : ℕ → BitPair → Bytes) {n k : ℕ} {tables : BitPair → Bytes}
    (hlen : ∀ x, (tables x).length = n * boxWidth) (hk : k < n)
    (hn : ∀ x, (nonce k x).length = cryptoSecretboxNoncebytes)
    (hb : ∀ x, (box k x).length = ciphertextLen) :
    ∃ tables', writeTables tables (k * boxWidth) (nonce k) (box k) = .ok tables' ∧
      ∀ x, Filled boxWidth n (boxSlot nonce box x) (· = k) (tables x) (tables' x) := by
  unfold writeTables
  refine (foldlM_ok (fun done T => ∀ y, Filled boxWidth n (boxSlot nonce box y)
    (fun s => s = k ∧ y ∈ done) (tables y) (T y)) [0, 1, 2, 3] [] tables
    (fun y => Filled.refl (by simp) _) ?_).imp fun T' h => ⟨h.1, fun x => (h.2 x).congr fun s _ => ?_⟩
  · intro done x T _ hI
    obtain ⟨s1, s2, hw1, hw2, hF⟩ := write_slot_two Fault.outOfBounds (nonce k x) (box k x)
      (f := boxSlot nonce box x) ((hI x).length.trans (hlen x)) hk rfl (by rw [hn, hb])
    rw [hn] at hw2
    refine ⟨Function.update T x s2, by simp only [hw1, hw2, bind, Except.bind, pure, Except.pure],
      fun y => ?_⟩
    by_cases hy : y = x
    · subst hy
      rw [Function.update_self]
      exact ((hI y).trans hF).congr fun s _ => by simp; tauto
    · rw [Function.update_of_ne hy]
      exact (hI y).congr fun s _ => by simp [hy]
  · have hall : ∀ x : BitPair, x ∈ [] ++ ([0, 1, 2, 3] : List BitPair) := by decide
    exact and_iff_left (hall x)

/-- A task of an access entry fills the slots of its part, in every table. -/
theorem accessEntryParallel_ok (part : ℕ) {nonce box : ℕ → BitPair → Bytes}
    {ciphertext : ℕ → ℕ → Except Fault (BitPair → Bytes)} {tables : BitPair → Bytes}
    (hlen : ∀ x, (tables x).length = cfg.valueSize * 4 * boxWidth)
    (hn : ∀ s x, (nonce s x).length = cryptoSecretboxNoncebytes)
    (hb : ∀ s x, (box s x).length = ciphertextLen)
    (hc : ∀ i < cfg.valueSize, ∀ j < 4, ciphertext i j = .ok (box (4 * i + j))) :
    ∃ tables', accessEntryParallel cfg part nonce ciphertext tables = .ok tables' ∧
      ∀ x, Filled boxWidth (cfg.valueSize * 4) (boxSlot nonce box x)
        (partSlots cfg.valueSize cfg.proxyNumThreads part) (tables x) (tables' x) := by
  unfold accessEntryParallel partSlots
  simp only
  have hlim := partLimit_le cfg.valueSize cfg.proxyNumThreads part
  generalize partStart cfg.valueSize cfg.proxyNumThreads part = start at *
  generalize partLimit cfg.valueSize cfg.proxyNumThreads part = limit at *
  rcases Nat.lt_or_ge limit start with hlt | hle
  · rw [forRange_of_le hlt.le]
    exact ⟨tables, rfl, fun x => Filled.refl (fun k _ => by omega) _⟩
  let I : ℕ → (BitPair → Bytes) × ℕ → Prop := fun k st => st.2 = k * boxWidth ∧
    ∀ x, Filled boxWidth (cfg.valueSize * 4) (boxSlot nonce box x)
      (fun s => 4 * start ≤ s ∧ s < k) (tables x) (st.1 x)
  refine forRange_bind (fun i => I (4 * i)) hle
    ⟨by rw [boxWidth, Nat.add_comm, Nat.mul_comm start], fun x => Filled.refl (fun k _ => by omega) _⟩ ?_
    fun st h => ⟨st.1, rfl, h.2⟩
  intro i st hs hi hI
  refine forRange_ok (fun j => I (4 * i + j)) (by omega) hI fun j ⟨T, ptr⟩ _ hj ⟨hp, hF⟩ => ?_
  simp only at hp
  subst hp
  obtain ⟨T', hw, hF2⟩ := writeTables_ok nonce box (fun x => (hF x).length.trans (hlen x))
    (show 4 * i + j < cfg.valueSize * 4 by omega) (hn _) (hb _)
  refine ⟨(T', (4 * i + j + 1) * boxWidth), ?_, rfl, fun x => ((hF x).trans (hF2 x)).congr
    fun k _ => by omega⟩
  simp only [hc i (by omega) j hj, hw, bind, Except.bind, pure, Except.pure, Except.ok.injEq,
    Prod.mk.injEq, true_and]
  ring

/-! ### The entries -/

/-- A value padded with spaces. -/
def padded (value : Bytes) (len : ℕ) : Bytes := value ++ List.replicate (len - value.length) 32

theorem padded_length {value : Bytes} {len : ℕ} (h : value.length ≤ len) :
    (padded value len).length = len := by
  simp only [padded, List.length_append, List.length_replicate]
  omega

theorem take_padded (value : Bytes) (len : ℕ) : (padded value len).take value.length = value :=
  List.take_left' rfl

/-- An access entry with the nonces and sealed labels of every slot. -/
def accessEntry (size : ℕ) (key : Bytes) (nonce box : ℕ → BitPair → Bytes) : Entry :=
  ⟨key, boxString size nonce box 0, boxString size nonce box 1, boxString size nonce box 2,
    boxString size nonce box 3⟩

theorem accessEntry_table (size : ℕ) (key : Bytes) (nonce box : ℕ → BitPair → Bytes) (x : BitPair) :
    (accessEntry size key nonce box).table x = boxString size nonce box x := by
  have hx : ∀ y : BitPair, y = 0 ∨ y = 1 ∨ y = 2 ∨ y = 3 := by decide
  rcases hx x with rfl | rfl | rfl | rfl <;> rfl

/-- An entry has the boxes of its slots. -/
theorem accessEntry_congr {size : ℕ} {key : Bytes} {nonce box box' : ℕ → BitPair → Bytes}
    (h : ∀ s < size * 4, box s = box' s) : accessEntry size key nonce box = accessEntry size key nonce box' := by
  have hstring : ∀ x, boxString size nonce box x = boxString size nonce box' x := fun x =>
    ofSlots_congr fun s hs => by rw [boxSlot, boxSlot, h s hs]
  unfold accessEntry
  rw [hstring, hstring, hstring, hstring]

/-- The sealed labels of a GET entry from `mk` to `mk'`. -/
def getBoxes (mk mk' : Bytes) (nonce : ℕ → BitPair → Bytes) (s : ℕ) : BitPair → Bytes :=
  getSlot L.toSodium mk mk' s (nonce s)

/-- The sealed labels of a PUT entry of `v` from `mk` to `mk'`. -/
def putBoxes (mk mk' v : Bytes) (nonce : ℕ → BitPair → Bytes) (s : ℕ) : BitPair → Bytes :=
  putSlot L.toSodium mk mk' s (pairAt v s) (nonce s)

/-- The entry of `constructGetEntry`. -/
def getEntry (key mk : Bytes) (d : Draw cfg) : Entry :=
  accessEntry cfg.valueSize key d.nonce (getBoxes L mk d.masterKey d.nonce)

/-- The entry of `constructPutEntry`. -/
def putEntry (key mk value : Bytes) (d : Draw cfg) : Entry :=
  accessEntry cfg.valueSize key d.nonce
    (putBoxes L mk d.masterKey (padded value cfg.valueSize) d.nonce)

/-- The entry of `constructCreateEntry`. -/
def createEntry (key value : Bytes) (d : Draw cfg) : Entry :=
  ⟨key, labelString L cfg.valueSize d.masterKey (padded value cfg.valueSize), [], [], []⟩

theorem padToLen_ok {value : Bytes} {len : ℕ} (h : value.length ≤ len) :
    padToLen value len = .ok (padded value len) := if_pos h

theorem padToLen_long {value : Bytes} {len : ℕ} (h : len < value.length) :
    padToLen value len = .error .lengthError := if_neg (by omega)

/-- The replaced master key. -/
def Globals.rekey (g : Globals) (key mk : Bytes) : Globals :=
  { g with masterKeys := Function.update g.masterKeys key mk }

@[simp] theorem Globals.rekey_self (g : Globals) (key mk : Bytes) :
    (g.rekey key mk).masterKeys key = mk := Function.update_self _ _ _

theorem constructCreateEntry_eq (g : Globals) (key : Bytes) {value : Bytes} (d : Draw cfg)
    (h : value.length ≤ cfg.valueSize) :
    constructCreateEntry cfg L g key value d =
      .ok (g.rekey key d.masterKey, createEntry cfg L key value d) := by
  have htask : ∀ p < cfg.proxyNumThreads, ∀ label : Bytes,
      (∀ _ : Unit, label.length = cfg.valueSize * 4 * labelWidth) →
      ∃ label', createEntryParallel cfg L p (padded value cfg.valueSize) d.masterKey label =
        .ok label' ∧ ∀ _ : Unit, Filled labelWidth (cfg.valueSize * 4)
          (labelSlot L d.masterKey (padded value cfg.valueSize))
          (partSlots cfg.valueSize cfg.proxyNumThreads p) label label' := by
    intro p _ label hl
    obtain ⟨label', h1, h2⟩ := createEntryParallel_ok cfg L p d.masterKey (padded_length h) (hl ())
    exact ⟨label', h1, fun _ => h2⟩
  have hlen : ∀ _ : Unit, (List.replicate (cfg.valueSize * 4 * labelWidth) (0 : UInt8)).length =
      cfg.valueSize * 4 * labelWidth := fun _ => List.length_replicate
  obtain ⟨label, h1, h2⟩ := runTasks_filled (fun (_ : Unit) (label : Bytes) => label) d.order_perm
    hlen htask
  have hlabel : label = labelString L cfg.valueSize d.masterKey (padded value cfg.valueSize) :=
    (h2 ()).eq_all (hlen ()) (fun k _ => labelSlot_length _ _ _ _)
      fun k hk => exists_partSlots cfg.proxyNumThreads_pos hk
  unfold constructCreateEntry
  simp only [padToLen_ok h, bind, Except.bind, Function.update_self, h1, hlabel]
  rfl

/-- All tasks of an access entry together. -/
theorem runTasks_access (d : Draw cfg) {box : ℕ → BitPair → Bytes}
    {ciphertext : ℕ → ℕ → Except Fault (BitPair → Bytes)}
    (hb : ∀ s x, (box s x).length = ciphertextLen)
    (hc : ∀ i < cfg.valueSize, ∀ j < 4, ciphertext i j = .ok (box (4 * i + j))) :
    runTasks d.order (emptyTables cfg)
        (fun part tables => accessEntryParallel cfg part d.nonce ciphertext tables) =
      .ok (boxString cfg.valueSize d.nonce box) := by
  have hlen : ∀ s x, (boxSlot d.nonce box x s).length = boxWidth := fun s x => by
    rw [boxSlot, List.length_append, d.nonce_length, hb]
  have hlen0 : ∀ x, (emptyTables cfg x).length = cfg.valueSize * 4 * boxWidth :=
    fun _ => List.length_replicate
  obtain ⟨T, h1, h2⟩ := runTasks_filled (fun x (T : BitPair → Bytes) => T x) d.order_perm
    hlen0 fun p _ st hst =>
      accessEntryParallel_ok cfg p hst d.nonce_length hb hc
  rw [h1]
  congr 1
  funext x
  exact (h2 x).eq_all (hlen0 x) (fun k _ => hlen k x)
    fun k hk => exists_partSlots cfg.proxyNumThreads_pos hk

/-- The body of `getEntryParallel`'s loops gives the boxes of its slot. -/
theorem getCiphertext_ok (mk mk' : Bytes) (nonce : ℕ → BitPair → Bytes) (i j : ℕ) :
    (pure (getSlot L.toSodium mk mk' (4 * i + j) (nonce (4 * i + j))) : Except Fault _) =
      .ok (getBoxes L mk mk' nonce (4 * i + j)) := rfl

theorem getBoxes_length (mk mk' : Bytes) (nonce : ℕ → BitPair → Bytes) (s : ℕ) (x : BitPair) :
    (getBoxes L mk mk' nonce s x).length = ciphertextLen := L.getSlot_length _ _ _ _ _

/-- The body of `putEntryParallel`'s loops gives the boxes of its slot. -/
theorem putCiphertext_ok (mk mk' : Bytes) {v : Bytes} (nonce : ℕ → BitPair → Bytes) {i j : ℕ}
    (hi : i < v.length) (hj : j < 4) : (do
      let c ← byteAt v i
      pure (putSlot L.toSodium mk mk' (4 * i + j) (getBits c (2 * j)) (nonce (4 * i + j)))) =
      .ok (putBoxes L mk mk' v nonce (4 * i + j)) := by
  rw [byteAt_ok hi]
  simp only [bind, Except.bind, pure, Except.pure, putBoxes, pairAt_mul_add _ _ hj]

theorem putBoxes_length (mk mk' v : Bytes) (nonce : ℕ → BitPair → Bytes) (s : ℕ) (x : BitPair) :
    (putBoxes L mk mk' v nonce s x).length = ciphertextLen := L.putSlot_length _ _ _ _ _ _

theorem constructGetEntry_eq (g : Globals) (key : Bytes) (d : Draw cfg) :
    constructGetEntry cfg L g key d =
      .ok (g.rekey key d.masterKey, getEntry cfg L key (g.masterKeys key) d) := by
  have htasks := runTasks_access cfg d (getBoxes_length L (g.masterKeys key) d.masterKey d.nonce)
    fun i _ j _ => getCiphertext_ok L (g.masterKeys key) d.masterKey d.nonce i j
  unfold constructGetEntry getEntryParallel
  rw [bind_of_ok htasks]
  simp only [Globals.rekey, getEntry, accessEntry, pure, Except.pure]

theorem constructPutEntry_eq (g : Globals) (key : Bytes) {value : Bytes} (d : Draw cfg)
    (h : value.length ≤ cfg.valueSize) :
    constructPutEntry cfg L g key value d =
      .ok (g.rekey key d.masterKey, putEntry cfg L key (g.masterKeys key) value d) := by
  have htasks := runTasks_access cfg d
    (putBoxes_length L (g.masterKeys key) d.masterKey (padded value cfg.valueSize) d.nonce)
    fun i hi j hj => putCiphertext_ok L (g.masterKeys key) d.masterKey d.nonce
      (by rw [padded_length h]; exact hi) hj
  unfold constructPutEntry putEntryParallel
  rw [bind_of_ok (padToLen_ok h), bind_of_ok htasks]
  simp only [Globals.rekey, putEntry, accessEntry, pure, Except.pure]

/-- A value too long to pad ends both builders before anything is changed. -/
theorem constructCreateEntry_long (g : Globals) (key : Bytes) {value : Bytes} (d : Draw cfg)
    (h : cfg.valueSize < value.length) :
    constructCreateEntry cfg L g key value d = .error .lengthError := by
  unfold constructCreateEntry
  rw [padToLen_long h]
  rfl

theorem constructPutEntry_long (g : Globals) (key : Bytes) {value : Bytes} (d : Draw cfg)
    (h : cfg.valueSize < value.length) :
    constructPutEntry cfg L g key value d = .error .lengthError := by
  unfold constructPutEntry
  rw [padToLen_long h]
  rfl

/-! ### Reading a value back -/

/-- The label of slot `k`, where `readValueFromLabels` looks for it. -/
theorem read_labelString (mk v : Bytes) {size k : ℕ} (hk : k < size * 4) :
    (labelString L size mk v).read Fault.outOfBounds (1 + k * labelWidth) cryptoSecretboxKeybytes =
      .ok (slotLabel L.toSodium k (pairAt v k) mk) := by
  have hslot : slot labelWidth (labelString L size mk v) k =
      [(createSlot L.toSodium mk k (pairAt v k)).1] ++ slotLabel L.toSodium k (pairAt v k) mk :=
    slot_ofSlots (fun j _ => labelSlot_length L mk v j) hk
  have := read_slot_right Fault.outOfBounds (labelString_length L size mk v) hk hslot
  rwa [L.slotLabel_length, List.length_singleton, Nat.add_comm] at this

/-- The labels of every slot below `slots` differ under `mk`. -/
def LabelsDiffer (slots : ℕ) (mk : Bytes) : Prop :=
  ∀ s < slots, ∀ b b', slotLabel L.toSodium s b mk = slotLabel L.toSodium s b' mk → b = b'

/-- Distinct subkeys make distinct labels in every slot. -/
theorem labelsDiffer_of_injectiveOn {keys : List Bytes} {mk : Bytes}
    (hinj : L.InjectiveOn keys (20 * cfg.valueSize)) (hmk : mk ∈ keys) :
    LabelsDiffer L (cfg.valueSize * 4) mk := by
  intro s hs b b' h
  have hb := b.isLt
  have hb' := b'.isLt
  have := (hinj mk hmk mk hmk _ (by omega) _ (by omega) h).2
  exact BitVec.eq_of_toNat_eq (by omega)

theorem readValueFromLabels_eq (g : Globals) (key : Bytes) (uninit : UInt8) {v : Bytes}
    (hv : v.length = cfg.valueSize) (hd : LabelsDiffer L (cfg.valueSize * 4) (g.masterKeys key)) :
    readValueFromLabels cfg L g key (labelString L cfg.valueSize (g.masterKeys key) v) uninit =
      .ok (v.take (g.valueSizes key)) := by
  have hlen : ∀ i, i < cfg.valueSize →
      (v.take i ++ List.replicate (cfg.valueSize - i) 0).length = cfg.valueSize := by
    intro i hi
    simp only [List.length_append, List.length_take, List.length_replicate]
    omega
  have hstep : ∀ i < cfg.valueSize, ∀ c : UInt8,
      forRange 0 4 (1 + (4 * i) * labelWidth, c) (fun j st => do
        let currLabel ← (labelString L cfg.valueSize (g.masterKeys key) v).read Fault.outOfBounds
          st.1 cryptoSecretboxKeybytes
        let c := modifyBits st.2 (2 * j)
          (readSlot L.toSodium (g.masterKeys key) (4 * i + j) currLabel)
        pure (st.1 + (cryptoSecretboxKeybytes + 1), c)) =
      .ok (1 + (4 * (i + 1)) * labelWidth, v.getD i 0) := by
    intro i hi c
    -- the four labels of byte `i`, at the offsets the pointer passes
    have hread : ∀ p, ∀ j < 4, p = 1 + (4 * i + j) * labelWidth →
        (labelString L cfg.valueSize (g.masterKeys key) v).read Fault.outOfBounds p
          cryptoSecretboxKeybytes =
        .ok (slotLabel L.toSodium (4 * i + j) (pairAt v (4 * i + j)) (g.masterKeys key)) := by
      rintro p j hj rfl
      exact read_labelString L _ _ (by omega)
    have hpair : ∀ j < 4, readSlot L.toSodium (g.masterKeys key) (4 * i + j)
        (slotLabel L.toSodium (4 * i + j) (pairAt v (4 * i + j)) (g.masterKeys key)) =
          getBits (v.getD i 0) (2 * j) := by
      intro j hj
      rw [readSlot_slotLabel (hd (4 * i + j) (by omega)), pairAt_mul_add _ _ hj]
    rw [forRange, show List.range' 0 (4 - 0) = [0, 1, 2, 3] from rfl]
    simp only [List.foldlM_cons, List.foldlM_nil, bind, Except.bind, pure, Except.pure]
    rw [hread _ 0 (by omega) (by rw [labelWidth]; ring)]
    simp only
    rw [hread _ 1 (by omega) (by rw [labelWidth]; ring)]
    simp only
    rw [hread _ 2 (by omega) (by rw [labelWidth]; ring)]
    simp only
    rw [hread _ 3 (by omega) (by rw [labelWidth]; ring)]
    simp only [hpair 0 (by omega), hpair 1 (by omega), hpair 2 (by omega), hpair 3 (by omega)]
    rw [modifyBits_getBits, labelWidth]
    congr 2
    ring
  unfold readValueFromLabels
  let I : ℕ → Bytes × ℕ × UInt8 → Prop := fun i st =>
    st.1 = v.take i ++ List.replicate (cfg.valueSize - i) 0 ∧ st.2.1 = 1 + (4 * i) * labelWidth
  suffices h : ∃ t, (_ : Except Fault Bytes) = .ok t ∧ t = v.take (g.valueSizes key) by
    obtain ⟨t, h1, rfl⟩ := h
    exact h1
  refine forRange_bind I (Nat.zero_le cfg.valueSize) ⟨by simp, by simp⟩ ?_ ?_
  · rintro i ⟨res, p, c⟩ _ hi ⟨hres, hp⟩
    simp only at hres hp
    subst hres hp
    have hw := write_ok Fault.outOfBounds (show i + [v.getD i 0].length ≤
      (v.take i ++ List.replicate (cfg.valueSize - i) 0).length by rw [hlen i hi]; exact hi)
    refine ⟨_, (bind_of_ok (hstep i hi c) _).trans (bind_of_ok hw _), ?_, rfl⟩
    have hi' : (v.take i).length = i := by rw [List.length_take]; omega
    have hdrop : (v.take i ++ List.replicate (cfg.valueSize - i) (0 : UInt8)).drop (i + 1) =
        List.replicate (cfg.valueSize - (i + 1)) 0 := by
      rw [← List.drop_drop, List.drop_left' hi', List.drop_replicate]
      rfl
    simp only [List.length_singleton, hdrop, List.take_left' hi']
    rw [List.take_succ_eq_append_getElem (by omega)]
    simp [List.getD_eq_getElem?_getD, show i < v.length by omega]
  · rintro ⟨res, p, c⟩ ⟨hres, -⟩
    simp only at hres
    exact ⟨_, rfl, by rw [hres, ← hv]; simp⟩

end Build

end Lbl
end Ortoa
