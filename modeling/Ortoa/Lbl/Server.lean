/-
# `server.cpp`: opening the selected ciphertexts

The server keeps one label string per key. A `create` stores the string it
is sent. An access opens, in each slot, the ciphertext that the stored
auxiliary bits select under the stored label, and stores and returns the
string of what they contain; `SERVER_NUM_THREADS` tasks each open the slots
of one part of the value.

A task starts its pointers at `start` slots, where the byte `start` of the
value has its slots from `4 * start` on. So part `p` opens the slots
`start, …, start + 4 * (limit - start) - 1` (`serverSlots`), and with more
than one part the slots at the end are opened by none
(`not_reached_last`): the result holds zeros there. The string is right
exactly when one thread does it all, the value is one byte, or the slots
nobody reaches hold zeros anyway (`access_eq_single_iff`).

Key definitions: `access`, `decryptPortion`, `opening`, `reached`.
Key theorems: `access_filled`, `access_eq_single_iff`, `opening_getEntry`,
`opening_putEntry`.
-/
import Ortoa.Lbl.Entries

namespace Ortoa
namespace Lbl

open Bytes

/-- The rocksdb database. -/
abbrev Db := Bytes → Option Bytes

/-- `KV_RPCHandler::create`. -/
def create (db : Db) (entry : Entry) : Db :=
  Function.update db entry.keyName (some entry.encryptedLabelsA)

section Server

variable (cfg : Config) (L : Libsodium)

/-- The body of `decryptPortion`'s loops, with `newKey` and `oldKey` at the
offset `keyPtr` and `A`, `B`, `C`, `D` at `boxPtr`. -/
def decryptSlot (oldKeys : Bytes) (entry : Entry) (newKeys : Bytes) (keyPtr boxPtr : ℕ) :
    Except Fault Bytes := do
  let aux ← byteAt oldKeys keyPtr
  let table := entry.table (low2 aux)
  let nonce ← table.read Fault.outOfBounds boxPtr cryptoSecretboxNoncebytes
  let ciphertext ← table.read Fault.outOfBounds (boxPtr + cryptoSecretboxNoncebytes) ciphertextLen
  let oldLabel ← oldKeys.read Fault.outOfBounds (keyPtr + 1) cryptoSecretboxKeybytes
  match L.cryptoSecretboxOpenEasy ciphertext nonce oldLabel with
  | none => .error .exit
  | some newLabel => newKeys.write Fault.outOfBounds keyPtr newLabel

/-- `decryptPortion`. `newKey` and `oldKey` advance together, and so do `A`,
`B`, `C` and `D`. -/
def decryptPortion (part : ℕ) (oldKeys : Bytes) (entry : Entry) (newKeys : Bytes) :
    Except Fault Bytes := do
  let start := partStart cfg.valueSize cfg.serverNumThreads part
  let limit := partLimit cfg.valueSize cfg.serverNumThreads part
  let keyPtr := start * (1 + cryptoSecretboxKeybytes)
  let boxPtr := start * (cryptoSecretboxNoncebytes + ciphertextLen)
  let (newKeys, _, _) ← forRange start limit (newKeys, keyPtr, boxPtr) fun _ st =>
    forRange 0 4 st fun _ (newKeys, keyPtr, boxPtr) => do
      let newKeys ← decryptSlot L oldKeys entry newKeys keyPtr boxPtr
      pure (newKeys, keyPtr + (cryptoSecretboxKeybytes + 1),
        boxPtr + (cryptoSecretboxNoncebytes + ciphertextLen))
  pure newKeys

/-- `KV_RPCHandler::access`: the label string returned, and the database. A
key that is not in the database reads as the empty string. -/
def access (order : List ℕ) (db : Db) (entry : Entry) : Except Fault (Bytes × Db) := do
  let oldKeys := (db entry.keyName).getD []
  let blockSize := cfg.valueSize * 4 * (1 + cryptoSecretboxKeybytes)
  let newKeys ← runTasks order (List.replicate blockSize 0) fun part newKeys =>
    decryptPortion cfg L part oldKeys entry newKeys
  pure (newKeys, Function.update db entry.keyName (some newKeys))

/-! ### What an access opens -/

/-- The opening of slot `k`'s selected ciphertext under that slot's old label. -/
def opening (oldKeys : Bytes) (entry : Entry) (k : ℕ) : Option Bytes :=
  let old := slot labelWidth oldKeys k
  let box := slot boxWidth (entry.table (low2 (old.headD 0))) k
  L.cryptoSecretboxOpenEasy (box.drop cryptoSecretboxNoncebytes)
    (box.take cryptoSecretboxNoncebytes) old.tail

/-- The slots that part `part` opens. -/
def serverSlots (size threads part k : ℕ) : Prop :=
  let start := partStart size threads part
  start ≤ k ∧ k < start + 4 * (partLimit size threads part - start)

/-- Slot `k` is opened by some task. -/
def reached (k : ℕ) : Prop :=
  ∃ p < cfg.serverNumThreads, serverSlots cfg.valueSize cfg.serverNumThreads p k

/-- What a well-sized request and store look like. -/
structure WellSized (oldKeys : Bytes) (entry : Entry) : Prop where
  oldKeys : oldKeys.length = cfg.valueSize * 4 * labelWidth
  table : ∀ x, (entry.table x).length = cfg.valueSize * 4 * boxWidth

/-- Every selected ciphertext opens. -/
def AllOpen (oldKeys : Bytes) (entry : Entry) : Prop :=
  ∀ k < cfg.valueSize * 4, (opening L oldKeys entry k).isSome = true

/-- What the selected ciphertext of slot `k` contains. -/
def opened (oldKeys : Bytes) (entry : Entry) (k : ℕ) : Bytes := (opening L oldKeys entry k).getD []

variable {cfg L} {oldKeys : Bytes} {entry : Entry}

theorem opening_eq (hopen : AllOpen cfg L oldKeys entry) {k : ℕ} (hk : k < cfg.valueSize * 4) :
    opening L oldKeys entry k = some (opened L oldKeys entry k) := by
  obtain ⟨m, hm⟩ := Option.isSome_iff_exists.mp (hopen k hk)
  rw [opened, hm, Option.getD_some]

/-- A selected ciphertext holds one slot of a label string. -/
theorem opened_length (hsz : WellSized cfg oldKeys entry) (hopen : AllOpen cfg L oldKeys entry)
    {k : ℕ} (hk : k < cfg.valueSize * 4) : (opened L oldKeys entry k).length = labelWidth := by
  have h := L.open_length (opening_eq hopen hk)
  rw [List.length_drop, slot_length (hsz.table _) hk] at h
  simp only [boxWidth, ciphertextLen, labelWidth, cryptoSecretboxNoncebytes,
    cryptoSecretboxMacbytes, cryptoSecretboxKeybytes] at h ⊢
  omega

/-- The old key of a slot: its auxiliary byte and its label. -/
theorem slot_oldKeys (hsz : WellSized cfg oldKeys entry) {k : ℕ} (hk : k < cfg.valueSize * 4) :
    slot labelWidth oldKeys k =
        [(slot labelWidth oldKeys k).headD 0] ++ (slot labelWidth oldKeys k).tail ∧
      (slot labelWidth oldKeys k).tail.length = cryptoSecretboxKeybytes := by
  have hlen : (slot labelWidth oldKeys k).length = labelWidth := slot_length hsz.oldKeys hk
  constructor
  · cases h : slot labelWidth oldKeys k with
    | nil => rw [h] at hlen; exact absurd hlen (by decide)
    | cons a l => rfl
  · rw [List.length_tail, hlen, labelWidth, Nat.add_sub_cancel_left]

/-- With both pointers at slot `k`, the body puts there what the selected
ciphertext contains. -/
theorem decryptSlot_ok (hsz : WellSized cfg oldKeys entry) (hopen : AllOpen cfg L oldKeys entry)
    {k : ℕ} (hk : k < cfg.valueSize * 4) {newKeys : Bytes}
    (hnew : newKeys.length = cfg.valueSize * 4 * labelWidth) :
    ∃ newKeys', decryptSlot L oldKeys entry newKeys (k * labelWidth) (k * boxWidth) = .ok newKeys' ∧
      Filled labelWidth (cfg.valueSize * 4) (opened L oldKeys entry) (· = k) newKeys newKeys' := by
  obtain ⟨hold, htail⟩ := slot_oldKeys hsz hk
  have haux : byteAt oldKeys (k * labelWidth) = .ok ((slot labelWidth oldKeys k).headD 0) := by
    have hlt : k * labelWidth < oldKeys.length := by
      rw [hsz.oldKeys]
      exact lt_of_lt_of_le (Nat.lt_add_of_pos_right (by decide)) (slot_end_le hk)
    rw [byteAt_ok hlt]
    simp [slot, labelWidth, List.getD_eq_getElem?_getD, hlt, List.head?_take]
  have hlabel := read_slot_right Fault.outOfBounds hsz.oldKeys hk hold
  rw [List.length_singleton, htail] at hlabel
  generalize htab : slot boxWidth (entry.table (low2 ((slot labelWidth oldKeys k).headD 0))) k = box
  have hboxlen : box.length = boxWidth := htab ▸ slot_length (hsz.table _) hk
  have hsplit := htab.trans (List.take_append_drop cryptoSecretboxNoncebytes box).symm
  have hn := read_slot_left Fault.outOfBounds (hsz.table _) hk hsplit
  have hc := read_slot_right Fault.outOfBounds (hsz.table _) hk hsplit
  have hnl : (box.take cryptoSecretboxNoncebytes).length = cryptoSecretboxNoncebytes := by
    rw [List.length_take, hboxlen, boxWidth]; omega
  have hcl : (box.drop cryptoSecretboxNoncebytes).length = ciphertextLen := by
    rw [List.length_drop, hboxlen, boxWidth, Nat.add_sub_cancel_left]
  rw [hnl] at hn
  rw [hnl, hcl] at hc
  have hm := opening_eq hopen hk
  simp only [opening, htab] at hm
  obtain ⟨new', hw, hF⟩ := write_slot Fault.outOfBounds hnew hk (opened_length hsz hopen hk)
  refine ⟨new', ?_, hF⟩
  simp only [decryptSlot, haux, hn, hc, hlabel, hm, hw, bind, Except.bind]

/-- A task opens the slots of its part. -/
theorem decryptPortion_ok (hsz : WellSized cfg oldKeys entry) (hopen : AllOpen cfg L oldKeys entry)
    (part : ℕ) {newKeys : Bytes} (hnew : newKeys.length = cfg.valueSize * 4 * labelWidth) :
    ∃ newKeys', decryptPortion cfg L part oldKeys entry newKeys = .ok newKeys' ∧
      Filled labelWidth (cfg.valueSize * 4) (opened L oldKeys entry)
        (serverSlots cfg.valueSize cfg.serverNumThreads part) newKeys newKeys' := by
  unfold decryptPortion serverSlots
  simp only
  have hlim := partLimit_le cfg.valueSize cfg.serverNumThreads part
  generalize partStart cfg.valueSize cfg.serverNumThreads part = start at *
  generalize partLimit cfg.valueSize cfg.serverNumThreads part = limit at *
  rcases Nat.lt_or_ge limit start with hlt | hle
  · rw [forRange_of_le hlt.le]
    exact ⟨newKeys, rfl, Filled.refl (fun k _ => by omega) _⟩
  -- after `k - start` slots both pointers are at slot `k`
  let I : ℕ → Bytes × ℕ × ℕ → Prop := fun k st => st.2.1 = k * labelWidth ∧
    st.2.2 = k * boxWidth ∧ Filled labelWidth (cfg.valueSize * 4) (opened L oldKeys entry)
      (fun s => start ≤ s ∧ s < k) newKeys st.1
  refine forRange_bind (fun i => I (start + 4 * (i - start))) hle
    ⟨by simp, by simp, Filled.refl (fun k _ => by omega) _⟩ ?_ fun st h => ⟨st.1, rfl, h.2.2⟩
  intro i st hs hi hI
  rw [show start + 4 * (i + 1 - start) = start + 4 * (i - start) + 4 by omega]
  refine forRange_ok (fun j => I (start + 4 * (i - start) + j)) (by omega) hI ?_
  rintro j ⟨new, keyPtr, boxPtr⟩ _ hj ⟨hkey, hbox, hF⟩
  simp only at hkey hbox
  subst hkey hbox
  obtain ⟨new', hw, hF2⟩ := decryptSlot_ok hsz hopen
    (show start + 4 * (i - start) + j < cfg.valueSize * 4 by omega) (hF.length.trans hnew)
  refine ⟨(new', (start + 4 * (i - start) + j + 1) * labelWidth,
    (start + 4 * (i - start) + j + 1) * boxWidth), ?_, rfl, rfl,
    (hF.trans hF2).congr fun s _ => by omega⟩
  simp only [hw, bind, Except.bind, pure, Except.pure, Except.ok.injEq, Prod.mk.injEq, true_and]
  constructor <;> simp only [labelWidth, boxWidth] <;> ring

/-- An access whose selected ciphertexts all open returns, and stores, zeros
but for the slots some task reaches, which hold what their selected
ciphertexts contain: whatever the order of the tasks. -/
theorem access_filled {order : List ℕ} {db : Db}
    (horder : order.Perm (List.range cfg.serverNumThreads)) (hdb : db entry.keyName = some oldKeys)
    (hsz : WellSized cfg oldKeys entry) (hopen : AllOpen cfg L oldKeys entry) :
    ∃ r, access cfg L order db entry = .ok (r, Function.update db entry.keyName (some r)) ∧
      Filled labelWidth (cfg.valueSize * 4) (opened L oldKeys entry) (reached cfg)
        (List.replicate (cfg.valueSize * 4 * labelWidth) 0) r := by
  have htask : ∀ p < cfg.serverNumThreads, ∀ newKeys : Bytes,
      (∀ _ : Unit, newKeys.length = cfg.valueSize * 4 * labelWidth) →
      ∃ newKeys', decryptPortion cfg L p oldKeys entry newKeys = .ok newKeys' ∧
        ∀ _ : Unit, Filled labelWidth (cfg.valueSize * 4) (opened L oldKeys entry)
          (serverSlots cfg.valueSize cfg.serverNumThreads p) newKeys newKeys' := by
    intro p _ newKeys hl
    obtain ⟨newKeys', h1, h2⟩ := decryptPortion_ok hsz hopen p (hl ())
    exact ⟨newKeys', h1, fun _ => h2⟩
  have hlen : ∀ _ : Unit, (List.replicate (cfg.valueSize * 4 * labelWidth) (0 : UInt8)).length =
      cfg.valueSize * 4 * labelWidth := fun _ => List.length_replicate
  obtain ⟨r, h1, h2⟩ := runTasks_filled (fun (_ : Unit) (newKeys : Bytes) => newKeys) horder
    hlen htask
  refine ⟨r, ?_, h2 ()⟩
  unfold access
  simp only [hdb, Option.getD_some]
  exact bind_of_ok h1 _

/-! ### Which slots are reached -/

theorem reached_of_single (h : cfg.serverNumThreads = 1) {k : ℕ} (hk : k < cfg.valueSize * 4) :
    reached cfg k := by
  refine ⟨0, cfg.serverNumThreads_pos, ?_⟩
  have hps : partSize cfg.valueSize 1 = cfg.valueSize := by
    rw [partSize, Nat.div_one, Nat.mod_one]
    rfl
  simp only [serverSlots, partStart, partLimit, h, hps]
  omega

theorem reached_of_size_one (h : cfg.valueSize = 1) {k : ℕ} (hk : k < cfg.valueSize * 4) :
    reached cfg k := by
  refine ⟨0, cfg.serverNumThreads_pos, ?_⟩
  have hps := partSize_pos cfg.valueSize_pos cfg.serverNumThreads_pos
  simp only [serverSlots, partStart, partLimit]
  omega

/-- With two threads and two bytes the last slot is left out. -/
theorem not_reached_last (ht : 2 ≤ cfg.serverNumThreads) (hv : 2 ≤ cfg.valueSize) :
    ¬ reached cfg (cfg.valueSize * 4 - 1) := by
  rintro ⟨p, -, h1, h2⟩
  have hps : partSize cfg.valueSize cfg.serverNumThreads < cfg.valueSize := by
    have hd : cfg.valueSize / cfg.serverNumThreads ≤ cfg.valueSize / 2 :=
      Nat.div_le_div_left ht (by omega)
    unfold partSize
    split
    · rename_i hmod
      rcases Nat.lt_or_ge cfg.valueSize 3 with h3 | h3
      · have h2 : cfg.valueSize = 2 := by omega
        rcases Nat.lt_or_ge 2 cfg.serverNumThreads with h | h
        · rw [h2, Nat.div_eq_of_lt h]; omega
        · have : cfg.serverNumThreads = 2 := by omega
          rw [h2, this] at hmod; exact absurd rfl hmod
      · omega
    · omega
  simp only [partStart, partLimit] at h1 h2
  have hp1 : (p + 1) * partSize cfg.valueSize cfg.serverNumThreads =
      p * partSize cfg.valueSize cfg.serverNumThreads +
        partSize cfg.valueSize cfg.serverNumThreads := Nat.succ_mul _ _
  rw [hp1] at h2
  rcases Nat.eq_zero_or_pos p with rfl | hp
  · rw [Nat.zero_mul] at h2; omega
  · have := Nat.mul_le_mul hp (partSize_pos cfg.valueSize_pos cfg.serverNumThreads_pos)
    omega

/-! ### The proxy's entries, opened -/

/-- On the entries the proxy builds the server opens slot by slot. -/
theorem opening_map {size k : ℕ} (key : Bytes) {old : UInt8 × Bytes} {nonce box : ℕ → BitPair → Bytes}
    (hold : slot labelWidth oldKeys k = slotBytes old) (hk : k < size * 4)
    (hn : ∀ s x, (nonce s x).length = cryptoSecretboxNoncebytes)
    (hb : ∀ s x, (box s x).length = ciphertextLen) :
    (opening L oldKeys (accessEntry size key nonce box) k).map ofSlotBytes =
      openSlot L.toSodium old (nonce k) (box k) := by
  have hlen : ∀ s x, (boxSlot nonce box x s).length = boxWidth := fun s x => by
    rw [boxSlot, List.length_append, hn, hb]
  have hbox : ∀ x, slot boxWidth ((accessEntry size key nonce box).table x) k =
      nonce k x ++ box k x := fun x => by
    rw [accessEntry_table]
    exact slot_ofSlots (fun s _ => hlen s x) hk
  simp only [opening, hold, slotBytes, List.headD_cons, List.tail_cons, hbox,
    List.drop_left' (hn k _), List.take_left' (hn k _)]
  rfl

/-- An opened message of one slot is known by its auxiliary byte and label. -/
theorem opening_of_map {k : ℕ} {m : UInt8 × Bytes}
    (h : (opening L oldKeys entry k).map ofSlotBytes = some m) (hm : m.2 ≠ []) :
    opening L oldKeys entry k = some (slotBytes m) := by
  obtain ⟨bs, hbs, rfl⟩ := Option.map_eq_some_iff.mp h
  rw [hbs, slotBytes_ofSlotBytes]
  rintro rfl
  exact hm rfl

theorem slot_labelString (mk v : Bytes) {k : ℕ} (hk : k < cfg.valueSize * 4) :
    slot labelWidth (labelString L cfg.valueSize mk v) k =
      slotBytes (createSlot L.toSodium mk k (pairAt v k)) :=
  slot_ofSlots (fun j _ => labelSlot_length L mk v j) hk

theorem createSlot_label_ne (mk : Bytes) (s : ℕ) (b : BitPair) :
    (createSlot L.toSodium mk s b).2 ≠ [] := by
  intro h
  have hlabel : slotLabel L.toSodium s b mk = [] := h
  have hlen := L.slotLabel_length s b mk
  rw [hlabel] at hlen
  exact absurd hlen (by decide)

/-- A GET entry built against the stored labels opens, in every slot, to the
same pair's label under the new master key. -/
theorem opening_getEntry (key mk v : Bytes) (d : Draw cfg) {k : ℕ} (hk : k < cfg.valueSize * 4) :
    opening L (labelString L cfg.valueSize mk v) (getEntry cfg L key mk d) k =
      some (labelSlot L d.masterKey v k) := by
  refine opening_of_map ?_ (createSlot_label_ne _ _ _)
  have hboxes : ∀ s x, (getBoxes L mk d.masterKey d.nonce s x).length = ciphertextLen :=
    fun _ _ => L.getSlot_length _ _ _ _ _
  have hmap := opening_map (L := L) key (slot_labelString (L := L) mk v hk) hk d.nonce_length hboxes
  exact hmap.trans (openSlot_getSlot L.toSodium_opens _ _ _ _ _)

/-- A PUT entry built against the stored labels opens, in every slot, to the
label of the value it writes. -/
theorem opening_putEntry (key mk v value : Bytes) (d : Draw cfg) {k : ℕ}
    (hk : k < cfg.valueSize * 4) :
    opening L (labelString L cfg.valueSize mk v) (putEntry cfg L key mk value d) k =
      some (labelSlot L d.masterKey (padded value cfg.valueSize) k) := by
  refine opening_of_map ?_ (createSlot_label_ne _ _ _)
  have hboxes : ∀ s x, (putBoxes L mk d.masterKey (padded value cfg.valueSize) d.nonce s x).length =
      ciphertextLen := fun _ _ => L.putSlot_length _ _ _ _ _ _
  have hmap := opening_map (L := L) key (slot_labelString (L := L) mk v hk) hk d.nonce_length hboxes
  exact hmap.trans (openSlot_putSlot L.toSodium_opens _ _ _ _ _ _)

theorem wellSized_getEntry (key mk mk' v : Bytes) (d : Draw cfg) :
    WellSized cfg (labelString L cfg.valueSize mk v) (getEntry cfg L key mk' d) where
  oldKeys := labelString_length _ _ _ _
  table x := by
    rw [getEntry, accessEntry_table]
    exact boxString_length _ d.nonce_length (fun _ _ => L.getSlot_length _ _ _ _ _) x

theorem wellSized_putEntry (key mk mk' v value : Bytes) (d : Draw cfg) :
    WellSized cfg (labelString L cfg.valueSize mk v) (putEntry cfg L key mk' value d) where
  oldKeys := labelString_length _ _ _ _
  table x := by
    rw [putEntry, accessEntry_table]
    exact boxString_length _ d.nonce_length (fun _ _ => L.putSlot_length _ _ _ _ _ _) x

theorem allOpen_getEntry (key mk v : Bytes) (d : Draw cfg) :
    AllOpen cfg L (labelString L cfg.valueSize mk v) (getEntry cfg L key mk d) :=
  fun k hk => by rw [opening_getEntry key mk v d hk]; rfl

theorem allOpen_putEntry (key mk v value : Bytes) (d : Draw cfg) :
    AllOpen cfg L (labelString L cfg.valueSize mk v) (putEntry cfg L key mk value d) :=
  fun k hk => by rw [opening_putEntry key mk v value d hk]; rfl

/-! ### The result when every slot is reached -/

/-- When every slot is reached, the result is what the ciphertexts contain. -/
theorem access_eq_of_reached {order : List ℕ} {db : Db}
    (horder : order.Perm (List.range cfg.serverNumThreads)) (hdb : db entry.keyName = some oldKeys)
    (hsz : WellSized cfg oldKeys entry) (hopen : AllOpen cfg L oldKeys entry)
    (hall : ∀ k < cfg.valueSize * 4, reached cfg k) :
    access cfg L order db entry =
      .ok (ofSlots (opened L oldKeys entry) (cfg.valueSize * 4),
        Function.update db entry.keyName
          (some (ofSlots (opened L oldKeys entry) (cfg.valueSize * 4)))) := by
  obtain ⟨r, hr, hF⟩ := access_filled horder hdb hsz hopen
  rw [hr, hF.eq_all List.length_replicate (fun k hk => opened_length hsz hopen hk) hall]

/-- A GET re-keys the stored value. -/
theorem access_getEntry {order : List ℕ} {db : Db} {key mk v : Bytes} (d : Draw cfg)
    (horder : order.Perm (List.range cfg.serverNumThreads))
    (hdb : db key = some (labelString L cfg.valueSize mk v))
    (hall : ∀ k < cfg.valueSize * 4, reached cfg k) :
    access cfg L order db (getEntry cfg L key mk d) =
      .ok (labelString L cfg.valueSize d.masterKey v,
        Function.update db key (some (labelString L cfg.valueSize d.masterKey v))) := by
  rw [access_eq_of_reached horder hdb (wellSized_getEntry key mk mk v d)
    (allOpen_getEntry key mk v d) hall]
  have hstr : ofSlots (opened L (labelString L cfg.valueSize mk v) (getEntry cfg L key mk d))
      (cfg.valueSize * 4) = labelString L cfg.valueSize d.masterKey v :=
    ofSlots_congr fun k hk => by rw [opened, opening_getEntry key mk v d hk, Option.getD_some]
  rw [hstr]
  rfl

/-- A PUT replaces the stored value. -/
theorem access_putEntry {order : List ℕ} {db : Db} {key mk v : Bytes} (value : Bytes)
    (d : Draw cfg) (horder : order.Perm (List.range cfg.serverNumThreads))
    (hdb : db key = some (labelString L cfg.valueSize mk v))
    (hall : ∀ k < cfg.valueSize * 4, reached cfg k) :
    access cfg L order db (putEntry cfg L key mk value d) =
      .ok (labelString L cfg.valueSize d.masterKey (padded value cfg.valueSize),
        Function.update db key
          (some (labelString L cfg.valueSize d.masterKey (padded value cfg.valueSize)))) := by
  rw [access_eq_of_reached horder hdb (wellSized_putEntry key mk mk v value d)
    (allOpen_putEntry key mk v value d) hall]
  have hstr : ofSlots (opened L (labelString L cfg.valueSize mk v) (putEntry cfg L key mk value d))
      (cfg.valueSize * 4) = labelString L cfg.valueSize d.masterKey (padded value cfg.valueSize) :=
    ofSlots_congr fun k hk => by
      rw [opened, opening_putEntry key mk v value d hk, Option.getD_some]
  rw [hstr]
  rfl

/-! ### One thread and several -/

/-- The same configuration with one server thread. -/
def Config.single (cfg : Config) : Config :=
  { cfg with serverNumThreads := 1, serverNumThreads_pos := Nat.one_pos }

/-- The access returns and stores what it does with one thread, and each slot
of the result is the opening of that slot's selected ciphertext. -/
def OpensEverySlot (cfg : Config) (L : Libsodium) (order : List ℕ) (db : Db) (oldKeys : Bytes)
    (entry : Entry) : Prop :=
  ∃ r, access cfg L order db entry = .ok (r, Function.update db entry.keyName (some r)) ∧
    access cfg.single L [0] db entry = .ok (r, Function.update db entry.keyName (some r)) ∧
    ∀ k < cfg.valueSize * 4, opening L oldKeys entry k = some (slot labelWidth r k)

/-- The slots that `resize` leaves are zero. -/
theorem slot_zeros {n k : ℕ} (hk : k < n) :
    slot labelWidth (List.replicate (n * labelWidth) 0) k = List.replicate labelWidth 0 := by
  have := slot_end_le (w := labelWidth) hk
  rw [slot, List.drop_replicate, List.take_replicate, min_eq_left (by omega)]

/-- The result is right if and only if the slots nobody reaches hold zeros. -/
theorem opensEverySlot_iff {order : List ℕ} {db : Db}
    (horder : order.Perm (List.range cfg.serverNumThreads)) (hdb : db entry.keyName = some oldKeys)
    (hsz : WellSized cfg oldKeys entry) (hopen : AllOpen cfg L oldKeys entry) :
    OpensEverySlot cfg L order db oldKeys entry ↔ ∀ k < cfg.valueSize * 4, ¬ reached cfg k →
      opening L oldKeys entry k = some (List.replicate labelWidth 0) := by
  obtain ⟨r, hr, hF⟩ := access_filled horder hdb hsz hopen
  have hsingle : access cfg.single L [0] db entry = _ := access_eq_of_reached (List.Perm.refl [0]) hdb
    ⟨hsz.oldKeys, hsz.table⟩ hopen fun k hk => reached_of_single rfl hk
  constructor
  · rintro ⟨r', hr', -, hslots⟩ k hk hnot
    have hrr : r' = r := by
      rw [hr'] at hr
      simp only [Except.ok.injEq, Prod.mk.injEq] at hr
      exact hr.1
    rw [hslots k hk, hrr, hF.miss k hk hnot, slot_zeros hk]
  · intro hzero
    have hslots : ∀ k < cfg.valueSize * 4, slot labelWidth r k = opened L oldKeys entry k := by
      intro k hk
      by_cases hreach : reached cfg k
      · exact hF.hit k hk hreach
      · rw [hF.miss k hk hreach, slot_zeros hk, opened, hzero k hk hreach, Option.getD_some]
    have hall : r = ofSlots (opened L oldKeys entry) (cfg.valueSize * 4) :=
      ext_slots (hF.length.trans List.length_replicate)
        (ofSlots_length fun k hk => opened_length hsz hopen hk) fun k hk => by
          rw [hslots k hk, slot_ofSlots (fun j hj => opened_length hsz hopen hj) hk]
    refine ⟨r, hr, hall ▸ hsingle, fun k hk => ?_⟩
    rw [hslots k hk, opening_eq hopen hk]

/-- An access agrees with the one of a single thread if and only if there is
one thread, the value is one byte, or the slots nobody reaches hold zeros. -/
theorem access_eq_single_iff {order : List ℕ} {db : Db}
    (horder : order.Perm (List.range cfg.serverNumThreads)) (hdb : db entry.keyName = some oldKeys)
    (hsz : WellSized cfg oldKeys entry) (hopen : AllOpen cfg L oldKeys entry) :
    OpensEverySlot cfg L order db oldKeys entry ↔
      cfg.serverNumThreads = 1 ∨ cfg.valueSize = 1 ∨ ∀ k < cfg.valueSize * 4, ¬ reached cfg k →
        opening L oldKeys entry k = some (List.replicate labelWidth 0) := by
  rw [opensEverySlot_iff horder hdb hsz hopen]
  refine ⟨fun h => Or.inr (Or.inr h), ?_⟩
  rintro (h | h | h) k hk hnot
  · exact absurd (reached_of_single h hk) hnot
  · exact absurd (reached_of_size_one h hk) hnot
  · exact h k hk hnot

end Server

/-! ### The shipped configuration -/

/-- A store that holds the empty value for the empty key, and a GET of it. -/
def plainKeys : Bytes := labelString Libsodium.plain constants.valueSize [1] []

def plainGet : Entry := getEntry constants Libsodium.plain [] [1] (plainDraw constants [2])

/-- A label of `Libsodium.plain` starts with its subkey id. -/
theorem labelSlot_plain_id (mk v : Bytes) (s : ℕ) :
    (labelSlot Libsodium.plain mk v s).getD 1 0 = UInt8.ofNat (5 * s + 1 + (pairAt v s).toNat) := rfl

theorem access_eq_single_iff_plain :
    OpensEverySlot constants Libsodium.plain (List.range 64) (fun _ => some plainKeys) plainKeys
        plainGet ↔
      constants.serverNumThreads = 1 ∨ constants.valueSize = 1 ∨
        ∀ k < constants.valueSize * 4, ¬ reached constants k →
          opening Libsodium.plain plainKeys plainGet k = some (List.replicate labelWidth 0) :=
  access_eq_single_iff (List.Perm.refl _) rfl (wellSized_getEntry _ _ _ _ _)
    (allOpen_getEntry _ _ _ _)

/-- With 64 threads and 160 bytes the last slot's label is dropped. -/
theorem access_drops_last_slot :
    WellSized constants plainKeys plainGet ∧ AllOpen constants Libsodium.plain plainKeys plainGet ∧
      ¬ OpensEverySlot constants Libsodium.plain (List.range 64) (fun _ => some plainKeys) plainKeys
        plainGet := by
  refine ⟨wellSized_getEntry _ _ _ _ _, allOpen_getEntry _ _ _ _, fun h => ?_⟩
  have hiff : OpensEverySlot constants Libsodium.plain (List.range 64) (fun _ => some plainKeys)
      plainKeys plainGet ↔ _ := opensEverySlot_iff (List.Perm.refl _) rfl
    (wellSized_getEntry _ _ _ _ _) (allOpen_getEntry _ _ _ _)
  have hlast : 639 = constants.valueSize * 4 - 1 := by decide
  have hnot : ¬ reached constants 639 := hlast ▸ not_reached_last (by decide) (by decide)
  have hzero := hiff.mp h 639 (by decide) hnot
  unfold plainKeys plainGet at hzero
  rw [opening_getEntry _ _ _ _ (by decide), Option.some.injEq] at hzero
  have hid := congrArg (fun l : Bytes => l.getD 1 0) hzero
  simp only [labelSlot_plain_id] at hid
  have hne : ∀ b : BitPair, UInt8.ofNat (5 * 639 + 1 + b.toNat) ≠ 0 := by decide
  exact hne _ hid

end Lbl
end Ortoa
