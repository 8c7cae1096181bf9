/-
# `server.cpp`: the offsets of `decryptPortion`

The server takes every offset from `VALUE_SIZE` and the part's number, and
looks neither at the lengths of the strings it walks nor at the status of its
lookup. A task stops at the first of its slots whose bytes are not all there
(`Held`) or whose ciphertext does not open; which of the two it is decides
whether an access, in any order of its tasks, stays inside its strings
(`access_inBounds_iff`). A request that should be turned away is so by luck
only, when some ciphertext of it does not open (`guarded_iff`).

Key definitions: `Held`, `slotFault`, `next`, `Guarded`, `Covered`.
Key theorems: `decryptSlot_ends`, `access_ends`, `access_inBounds_iff`, `guarded_iff`.
-/
import Ortoa.Lbl.Server
import Ortoa.Run

namespace Ortoa
namespace Lbl

open Bytes

/-! ### One slot -/

/-- The bytes of slot `k` are all there: those of the stored string, and those
of the table that its auxiliary bits select. -/
def Held (oldKeys : Bytes) (entry : Entry) (k : ℕ) : Prop :=
  (k + 1) * labelWidth ≤ oldKeys.length ∧
    (k + 1) * boxWidth ≤ (entry.table (low2 (oldKeys.getD (k * labelWidth) 0))).length

instance (oldKeys : Bytes) (entry : Entry) (k : ℕ) : Decidable (Held oldKeys entry k) :=
  inferInstanceAs (Decidable (_ ∧ _))

section Faults

variable (cfg : Config) (L : Libsodium) (oldKeys : Bytes) (entry : Entry)

/-- How the body of `decryptPortion`'s loops stops at slot `k`, if it does. -/
def slotFault (k : ℕ) : Option Fault :=
  if Held oldKeys entry k then
    if (opening L oldKeys entry k).isSome then none else some .exit
  else some .outOfBounds

/-- The slots of a task, in order. -/
def taskSlots (part : ℕ) : List ℕ :=
  List.range' (partStart cfg.valueSize cfg.serverNumThreads part)
    (4 * (partLimit cfg.valueSize cfg.serverNumThreads part -
      partStart cfg.valueSize cfg.serverNumThreads part))

/-- How a task stops. -/
def taskFault (part : ℕ) : Option Fault := (taskSlots cfg part).findSome? (slotFault L oldKeys entry)

end Faults

variable {cfg : Config} {L : Libsodium} {oldKeys : Bytes} {entry : Entry}

/-- The first byte of a slot. -/
theorem headD_slot {w k : ℕ} (hw : 0 < w) (s : Bytes) : (slot w s k).headD 0 = s.getD (k * w) 0 := by
  unfold slot
  cases w with
  | zero => omega
  | succ w =>
    cases hdrop : s.drop (k * (w + 1)) with
    | nil =>
      have hlen : s.length ≤ k * (w + 1) := List.drop_eq_nil_iff.mp hdrop
      rw [List.getD_eq_getElem?_getD, List.getElem?_eq_none hlen]
      rfl
    | cons c cs =>
      have hget := congrArg (fun l => l[0]?) hdrop
      simp only [List.getElem?_drop, Nat.add_zero, List.getElem?_cons_zero] at hget
      rw [List.getD_eq_getElem?_getD, hget]
      rfl

/-- The opening of a slot, by the offsets of its strings. -/
theorem opening_eq_slices (k : ℕ) : opening L oldKeys entry k =
    L.cryptoSecretboxOpenEasy
      (((entry.table (low2 (oldKeys.getD (k * labelWidth) 0))).drop
        (k * boxWidth + cryptoSecretboxNoncebytes)).take ciphertextLen)
      (((entry.table (low2 (oldKeys.getD (k * labelWidth) 0))).drop (k * boxWidth)).take
        cryptoSecretboxNoncebytes)
      ((oldKeys.drop (k * labelWidth + 1)).take cryptoSecretboxKeybytes) := by
  have htail : (slot labelWidth oldKeys k).tail =
      (oldKeys.drop (k * labelWidth + 1)).take cryptoSecretboxKeybytes := by
    rw [slot, ← List.drop_one, List.drop_take, List.drop_drop, labelWidth, Nat.add_sub_cancel_left]
  have hnonce : ∀ t : Bytes, (slot boxWidth t k).take cryptoSecretboxNoncebytes =
      (t.drop (k * boxWidth)).take cryptoSecretboxNoncebytes := by
    intro t
    rw [slot, List.take_take, min_eq_left (by decide)]
  have hbox : ∀ t : Bytes, (slot boxWidth t k).drop cryptoSecretboxNoncebytes =
      (t.drop (k * boxWidth + cryptoSecretboxNoncebytes)).take ciphertextLen := by
    intro t
    rw [slot, List.drop_take, List.drop_drop, boxWidth, Nat.add_sub_cancel_left]
  simp only [opening, headD_slot (show 0 < labelWidth by decide), htail, hnonce, hbox]

theorem read_short {s : Bytes} {off n : ℕ} (h : ¬ off + n ≤ s.length) :
    s.read Fault.outOfBounds off n = .error .outOfBounds := if_neg h

/-- The body of the loops at slot `k`. -/
theorem decryptSlot_ends {k : ℕ} {newKeys : Bytes} (hk : k < cfg.valueSize * 4)
    (hnew : newKeys.length = cfg.valueSize * 4 * labelWidth) :
    Ends (decryptSlot L oldKeys entry newKeys (k * labelWidth) (k * boxWidth))
      (slotFault L oldKeys entry k) fun newKeys' => newKeys'.length = cfg.valueSize * 4 * labelWidth := by
  have hlabel : (k + 1) * labelWidth = k * labelWidth + 1 + cryptoSecretboxKeybytes := by
    rw [Nat.succ_mul, labelWidth, Nat.add_assoc]
  have hbox : (k + 1) * boxWidth = k * boxWidth + cryptoSecretboxNoncebytes + ciphertextLen := by
    rw [Nat.succ_mul, boxWidth, Nat.add_assoc]
  unfold decryptSlot slotFault
  by_cases haux : k * labelWidth < oldKeys.length
  · rw [byteAt_ok haux, bind_of_ok rfl]
    generalize htable : entry.table (low2 (oldKeys.getD (k * labelWidth) 0)) = table
    dsimp only
    by_cases htab : (k + 1) * boxWidth ≤ table.length
    · rw [bind_of_ok (read_ok _ (by omega)), bind_of_ok (read_ok _ (by omega))]
      by_cases hold : (k + 1) * labelWidth ≤ oldKeys.length
      · have hheld : Held oldKeys entry k := ⟨hold, by rw [htable]; exact htab⟩
        rw [bind_of_ok (read_ok _ (by omega)), if_pos hheld, opening_eq_slices, htable]
        split
        · rename_i hopen
          rw [hopen]
          exact rfl
        · rename_i newLabel hopen
          rw [hopen]
          have hlen := L.open_length hopen
          rw [List.length_take, List.length_drop] at hlen
          have hend := slot_end_le (w := labelWidth) hk
          have hwidth : newLabel.length = labelWidth := by
            simp only [labelWidth, ciphertextLen, cryptoSecretboxMacbytes, cryptoSecretboxKeybytes] at *
            omega
          have hwrite := @write_ok Fault .outOfBounds newKeys (k * labelWidth) newLabel (by omega)
          exact ⟨_, hwrite, (write_length _ hwrite).trans hnew⟩
      · have hheld : ¬ Held oldKeys entry k := fun h => hold h.1
        rw [if_neg hheld, read_short (by omega)]
        exact rfl
    · have hheld : ¬ Held oldKeys entry k := fun h => htab (htable ▸ h.2)
      rw [if_neg hheld]
      by_cases hnonce : k * boxWidth + cryptoSecretboxNoncebytes ≤ table.length
      · rw [bind_of_ok (read_ok _ hnonce), read_short (by omega)]
        exact rfl
      · rw [read_short hnonce]
        exact rfl
  · have hheld : ¬ Held oldKeys entry k := fun h => by
      have := h.1
      omega
    have hnone : oldKeys[k * labelWidth]? = none := List.getElem?_eq_none (Nat.not_lt.mp haux)
    rw [if_neg hheld, byteAt, hnone]
    exact rfl

/-- A task. -/
theorem decryptPortion_ends (part : ℕ) {newKeys : Bytes}
    (hnew : newKeys.length = cfg.valueSize * 4 * labelWidth) :
    Ends (decryptPortion cfg L part oldKeys entry newKeys) (taskFault cfg L oldKeys entry part)
      fun newKeys' => newKeys'.length = cfg.valueSize * 4 * labelWidth := by
  unfold decryptPortion taskFault taskSlots
  simp only
  have hlim := partLimit_le cfg.valueSize cfg.serverNumThreads part
  generalize partStart cfg.valueSize cfg.serverNumThreads part = start at *
  generalize partLimit cfg.valueSize cfg.serverNumThreads part = limit at *
  rcases Nat.lt_or_ge limit start with hlt | hle
  · rw [forRange_of_le hlt.le, Nat.sub_eq_zero_of_le hlt.le]
    exact ⟨newKeys, rfl, hnew⟩
  -- after `k - start` slots both pointers are at slot `k`
  let I : ℕ → Bytes × ℕ × ℕ → Prop := fun k st => st.2.1 = k * labelWidth ∧
    st.2.2 = k * boxWidth ∧ st.1.length = cfg.valueSize * 4 * labelWidth
  rw [← findSome?_blocks _ 4 start start (limit - start)]
  refine (forRange_ends (fun i => I (start + 4 * (i - start))) hle ⟨by simp, by simp, hnew⟩ ?_).bind
    fun st h => ⟨st.1, rfl, h.2.2⟩
  intro i st hs hi hI
  generalize hbase : start + 4 * (i - start) = base at *
  rw [show start + 4 * (i + 1 - start) = base + 4 by omega]
  have hslots : (List.range' base 4).findSome? (slotFault L oldKeys entry) =
      (List.range' 0 (4 - 0)).findSome? fun j => slotFault L oldKeys entry (base + j) := by
    rw [show List.range' base 4 = (List.range' 0 (4 - 0)).map (base + ·) from
      (List.map_add_range' (a := base) 0 4 1).symm, List.findSome?_map]
    rfl
  rw [hslots]
  refine forRange_ends (fun j => I (base + j)) (by omega) hI ?_
  rintro j ⟨new, keyPtr, boxPtr⟩ _ hj ⟨hkey, hbox, hlen⟩
  simp only at hkey hbox
  subst hkey hbox
  refine (decryptSlot_ends (show base + j < cfg.valueSize * 4 by omega) hlen).bind
    fun new' hnew' => ⟨_, rfl, ?_, ?_, hnew'⟩
  · simp only [labelWidth]; ring
  · simp only [boxWidth]; ring

/-- An access. -/
theorem access_ends (order : List ℕ) (db : Db) :
    Ends (access cfg L order db entry)
      (order.findSome? (taskFault cfg L ((db entry.keyName).getD []) entry)) fun r =>
        r.2 = Function.update db entry.keyName (some r.1) := by
  unfold access runTasks
  simp only
  refine (foldlM_ends (fun _ newKeys => newKeys.length = cfg.valueSize * 4 * labelWidth) order [] _
    List.length_replicate ?_).bind fun newKeys _ => ⟨_, rfl, rfl⟩
  intro _ part newKeys _ hlen
  exact decryptPortion_ends part hlen

/-- What an access that is answered leaves. -/
theorem access_update {order : List ℕ} {db db' : Db} {r : Bytes}
    (h : access cfg L order db entry = .ok (r, db')) :
    db' = Function.update db entry.keyName (some r) := by
  have hends := @access_ends cfg L entry order db
  unfold Ends at hends
  split at hends
  · rw [h] at hends
    cases hends
  · obtain ⟨st, hst, hupd⟩ := hends
    rw [h, Except.ok.injEq] at hst
    subst hst
    exact hupd

/-! ### Which fault it is -/

theorem slotFault_eq_none_iff {k : ℕ} : slotFault L oldKeys entry k = none ↔
    Held oldKeys entry k ∧ (opening L oldKeys entry k).isSome := by
  unfold slotFault
  split_ifs <;> simp_all

theorem slotFault_eq_outOfBounds_iff {k : ℕ} :
    slotFault L oldKeys entry k = some .outOfBounds ↔ ¬ Held oldKeys entry k := by
  unfold slotFault
  split_ifs <;> simp_all

theorem slotFault_eq_exit_iff {k : ℕ} : slotFault L oldKeys entry k = some .exit ↔
    Held oldKeys entry k ∧ ¬ (opening L oldKeys entry k).isSome := by
  unfold slotFault
  split_ifs <;> simp_all

theorem slotFault_cases {k : ℕ} {fault : Fault} (h : slotFault L oldKeys entry k = some fault) :
    fault = .outOfBounds ∨ fault = .exit := by
  unfold slotFault at h
  split_ifs at h <;> simp_all

/-- A task stops as the first of its slots does that stops it. -/
theorem taskFault_eq_some_iff {part : ℕ} {fault : Fault} :
    taskFault cfg L oldKeys entry part = some fault ↔
      ∃ k, serverSlots cfg.valueSize cfg.serverNumThreads part k ∧
        slotFault L oldKeys entry k = some fault ∧
        ∀ j, serverSlots cfg.valueSize cfg.serverNumThreads part j → j < k →
          slotFault L oldKeys entry j = none := by
  unfold taskFault taskSlots serverSlots
  rw [findSome?_range'_eq_some]
  constructor
  · rintro ⟨k, h1, h2, hk, hfirst⟩
    exact ⟨k, ⟨h1, h2⟩, hk, fun j hj hjk => hfirst j hj.1 hjk⟩
  · rintro ⟨k, ⟨h1, h2⟩, hk, hfirst⟩
    exact ⟨k, h1, h2, hk, fun j hj hjk => hfirst j ⟨hj, by omega⟩ hjk⟩

/-- Every slot that a task comes to is held. -/
def Covers (cfg : Config) (L : Libsodium) (oldKeys : Bytes) (entry : Entry) (part : ℕ) : Prop :=
  ∀ k, serverSlots cfg.valueSize cfg.serverNumThreads part k →
    (∀ j, serverSlots cfg.valueSize cfg.serverNumThreads part j → j < k →
      (opening L oldKeys entry j).isSome) → Held oldKeys entry k

theorem taskFault_ne_outOfBounds_iff {part : ℕ} :
    taskFault cfg L oldKeys entry part ≠ some .outOfBounds ↔ Covers cfg L oldKeys entry part := by
  constructor
  · intro hne k
    induction k using Nat.strong_induction_on with
    | h k ih =>
      intro hk hopen
      by_contra hheld
      apply hne
      refine taskFault_eq_some_iff.mpr ⟨k, hk, slotFault_eq_outOfBounds_iff.mpr hheld, fun j hj hjk => ?_⟩
      have hjheld := ih j hjk hj fun i hi hij => hopen i hi (hij.trans hjk)
      exact slotFault_eq_none_iff.mpr ⟨hjheld, hopen j hj hjk⟩
  · intro hcov hfault
    obtain ⟨k, hk, hout, hfirst⟩ := taskFault_eq_some_iff.mp hfault
    refine slotFault_eq_outOfBounds_iff.mp hout (hcov k hk fun j hj hjk => ?_)
    exact (slotFault_eq_none_iff.mp (hfirst j hj hjk)).2

/-- The tasks of an access, in the order in which they run. -/
abbrev TaskOrder (cfg : Config) := {order : List ℕ // order.Perm (List.range cfg.serverNumThreads)}

theorem TaskOrder.mem_iff (order : TaskOrder cfg) {part : ℕ} :
    part ∈ order.1 ↔ part < cfg.serverNumThreads :=
  order.2.mem_iff.trans List.mem_range

/-- Any task may be the first. -/
def TaskOrder.startingWith {part : ℕ} (h : part < cfg.serverNumThreads) : TaskOrder cfg :=
  ⟨part :: (List.range cfg.serverNumThreads).erase part,
    (List.perm_cons_erase (List.mem_range.mpr h)).symm⟩

/-- An access stays inside its strings, in every order of its tasks, if and
only if each task comes to held slots only. -/
theorem access_inBounds_iff {db : Db} :
    (∀ order : TaskOrder cfg, access cfg L order.1 db entry ≠ .error .outOfBounds) ↔
      ∀ p < cfg.serverNumThreads, Covers cfg L ((db entry.keyName).getD []) entry p := by
  constructor
  · intro hall p hp
    refine taskFault_ne_outOfBounds_iff.mp fun hfault => ?_
    refine hall (TaskOrder.startingWith hp) ((access_ends _ db).error_iff.mpr ?_)
    rw [TaskOrder.startingWith, List.findSome?_cons, hfault]
  · intro hcov order herr
    have hsome := (access_ends order.1 db).error_iff.mp herr
    obtain ⟨p, hp, hfault⟩ := List.exists_of_findSome?_eq_some hsome
    exact taskFault_ne_outOfBounds_iff.mpr (hcov p (order.mem_iff.mp hp)) hfault

/-- When some task stops, the access stops as some task does. -/
theorem access_faults {db : Db} {p : ℕ} (hp : p < cfg.serverNumThreads)
    (hfault : taskFault cfg L ((db entry.keyName).getD []) entry p ≠ none) (order : TaskOrder cfg) :
    ∃ fault, access cfg L order.1 db entry = .error fault ∧
      ∃ q < cfg.serverNumThreads, taskFault cfg L ((db entry.keyName).getD []) entry q = some fault := by
  have hany : order.1.findSome? (taskFault cfg L ((db entry.keyName).getD []) entry) ≠ none :=
    fun hnone => hfault (List.findSome?_eq_none_iff.mp hnone p (order.mem_iff.mpr hp))
  obtain ⟨fault, hsome⟩ := Option.ne_none_iff_exists'.mp hany
  obtain ⟨q, hq, hqfault⟩ := List.exists_of_findSome?_eq_some hsome
  exact ⟨fault, (access_ends order.1 db).error_iff.mpr hsome, q, order.mem_iff.mp hq, hqfault⟩

/-- A slot of a task at which the task would stop. -/
theorem taskFault_ne_none {part k : ℕ} (hk : serverSlots cfg.valueSize cfg.serverNumThreads part k)
    (hfault : slotFault L oldKeys entry k ≠ none) : taskFault cfg L oldKeys entry part ≠ none :=
  fun hnone => hfault (List.findSome?_eq_none_iff.mp hnone k (List.mem_range'_1.mpr hk))

/-- Staying inside, an access is turned away if and only if some ciphertext
that a task should open does not. -/
theorem access_exit_iff {db : Db}
    (hcov : ∀ p < cfg.serverNumThreads, Covers cfg L ((db entry.keyName).getD []) entry p) :
    (∀ order : TaskOrder cfg, access cfg L order.1 db entry = .error .exit) ↔
      ∃ k, reached cfg k ∧ ¬ (opening L ((db entry.keyName).getD []) entry k).isSome := by
  constructor
  · intro hall
    have hsome := (access_ends _ db).error_iff.mp (hall (TaskOrder.startingWith cfg.serverNumThreads_pos))
    obtain ⟨p, hp, hfault⟩ := List.exists_of_findSome?_eq_some hsome
    obtain ⟨k, hk, hexit, -⟩ := taskFault_eq_some_iff.mp hfault
    exact ⟨k, ⟨p, (TaskOrder.mem_iff _).mp hp, hk⟩, (slotFault_eq_exit_iff.mp hexit).2⟩
  · rintro ⟨k, ⟨p, hp, hk⟩, hclosed⟩ order
    have hstops := taskFault_ne_none hk fun hnone => hclosed (slotFault_eq_none_iff.mp hnone).2
    obtain ⟨fault, hacc, q, hq, hqfault⟩ := access_faults hp hstops order
    obtain ⟨j, -, hj, -⟩ := taskFault_eq_some_iff.mp hqfault
    rcases slotFault_cases hj with rfl | rfl
    · exact absurd hqfault (taskFault_ne_outOfBounds_iff.mpr (hcov q hq))
    · exact hacc

/-- The first slot of the first task is slot 0. -/
theorem serverSlots_zero (cfg : Config) : serverSlots cfg.valueSize cfg.serverNumThreads 0 0 := by
  have hps := partSize_pos cfg.valueSize_pos cfg.serverNumThreads_pos
  have hv := cfg.valueSize_pos
  simp only [serverSlots, partStart, partLimit]
  omega

/-- No slot of the empty string is held. -/
theorem not_held_nil (k : ℕ) : ¬ Held [] entry k := by
  rintro ⟨hlen, -⟩
  rw [List.length_nil, Nat.succ_mul] at hlen
  exact absurd (Nat.le_trans (Nat.le_add_left _ _) hlen) (by decide)

/-- The key of an access is not in the database: the lookup leaves the empty
string, and the first task to run walks past its end. -/
theorem access_of_missing {db : Db} (h : db entry.keyName = none) (order : TaskOrder cfg) :
    access cfg L order.1 db entry = .error .outOfBounds := by
  have hout : ∀ k, slotFault L ((db entry.keyName).getD []) entry k = some .outOfBounds := by
    intro k
    rw [h]
    exact slotFault_eq_outOfBounds_iff.mpr (not_held_nil k)
  have hstops := taskFault_ne_none (serverSlots_zero cfg) fun hnone => by
    rw [hout 0] at hnone
    cases hnone
  obtain ⟨fault, hacc, q, -, hqfault⟩ := access_faults cfg.serverNumThreads_pos hstops order
  obtain ⟨j, -, hj, -⟩ := taskFault_eq_some_iff.mp hqfault
  rw [hout j, Option.some.injEq] at hj
  rw [hacc, hj]

/-! ### The messages of a server -/

/-- What the server receives. An access comes with the order in which the
pool runs its tasks. -/
inductive Msg (cfg : Config)
  | create (entry : Entry)
  | access (order : TaskOrder cfg) (entry : Entry)

variable (cfg L)

/-- The database after a message. After an access that left its strings there
is nothing to say, and after `exit` no server. -/
def next (db : Db) : Msg cfg → Option Db
  | .create entry => some (create db entry)
  | .access order entry =>
    match access cfg L order.1 db entry with
    | .ok (_, db') => some db'
    | .error _ => none

/-- The database of a new server. -/
def emptyDb : Db := fun _ => none

/-- `KV_RPCHandler::create` has been called for the key. -/
def Created (msgs : List (Msg cfg)) (key : Bytes) : Prop :=
  ∃ entry, Msg.create entry ∈ msgs ∧ entry.keyName = key

/-- One of the tables is shorter than the `VALUE_SIZE` that the offsets assume. -/
def TooShort (entry : Entry) : Prop := ∃ x, (entry.table x).length < cfg.valueSize * 4 * boxWidth

/-- What an access owes its strings after the messages `msgs`: it stays inside
them, and one that should be turned away is, before anything is stored. -/
structure Guarded (msgs : List (Msg cfg)) (db : Db) (entry : Entry) : Prop where
  inside : ∀ order : TaskOrder cfg, access cfg L order.1 db entry ≠ .error .outOfBounds
  rejects : ¬ Created cfg msgs entry.keyName ∨ TooShort cfg entry →
    ∀ order : TaskOrder cfg, access cfg L order.1 db entry = .error .exit

/-- Each task comes to held slots only, and if a table is too short one of the
ciphertexts that a task should open does not. -/
structure Covered (oldKeys : Bytes) (entry : Entry) : Prop where
  held : ∀ p < cfg.serverNumThreads, Covers cfg L oldKeys entry p
  short : TooShort cfg entry → ∃ k, reached cfg k ∧ ¬ (opening L oldKeys entry k).isSome

/-- `P` speaks of every access of the messages and the database it meets. -/
def Throughout (P : List (Msg cfg) → Db → Entry → Prop) (msgs : List (Msg cfg)) : Prop :=
  ∀ before order entry after db, msgs = before ++ .access order entry :: after →
    run (next cfg L) emptyDb before = some db → P before db entry

variable {cfg L}

/-- The database has no key but those created. -/
theorem created_of_run {msgs : List (Msg cfg)} {db : Db} (h : run (next cfg L) emptyDb msgs = some db) :
    ∀ key, db key ≠ none → Created cfg msgs key := by
  refine run_inv (next cfg L) (C := fun _ _ => True)
    (fun msgs db => ∀ key, db key ≠ none → Created cfg msgs key) (fun key hkey => absurd rfl hkey) ?_
    (along_of_forall (next cfg L) emptyDb fun _ _ => trivial) h
  intro msgs db msg db' _ ih _ hstep key hkey
  have hold : db key ≠ none → Created cfg (msgs ++ [msg]) key := by
    intro hdb
    obtain ⟨entry, hmem, rfl⟩ := ih key hdb
    exact ⟨entry, List.mem_append_left _ hmem, rfl⟩
  cases msg with
  | create entry =>
    simp only [next, Option.some.injEq] at hstep
    subst hstep
    by_cases heq : key = entry.keyName
    · exact ⟨entry, by simp, heq.symm⟩
    · rw [create, Function.update_of_ne heq] at hkey
      exact hold hkey
  | access order entry =>
    simp only [next] at hstep
    split at hstep
    · rename_i r db1 hacc
      simp only [Option.some.injEq] at hstep
      subst hstep
      have hupd : db1 = Function.update db entry.keyName (some r) := access_update hacc
      by_cases heq : key = entry.keyName
      · refine hold fun hnone => ?_
        rw [access_of_missing (heq ▸ hnone) order] at hacc
        cases hacc
      · rw [hupd, Function.update_of_ne heq] at hkey
        exact hold hkey
    · cases hstep

/-- After any messages, an access is guarded if and only if it is covered. -/
theorem guarded_iff {msgs : List (Msg cfg)} {db : Db} (h : run (next cfg L) emptyDb msgs = some db) :
    Guarded cfg L msgs db entry ↔ Covered cfg L ((db entry.keyName).getD []) entry := by
  constructor
  · rintro ⟨hinside, hrejects⟩
    have hcov := access_inBounds_iff.mp hinside
    exact ⟨hcov, fun hshort => (access_exit_iff hcov).mp (hrejects (Or.inr hshort))⟩
  · rintro ⟨hcov, hshort⟩
    have hinside := access_inBounds_iff.mpr hcov
    have hcreated : Created cfg msgs entry.keyName := by
      refine created_of_run h _ fun hnone => ?_
      exact hinside (TaskOrder.startingWith cfg.serverNumThreads_pos) (access_of_missing hnone _)
    refine ⟨hinside, ?_⟩
    rintro (hnot | htoo)
    · exact absurd hcreated hnot
    · exact (access_exit_iff hcov).mpr (hshort htoo)

/-- Every access of a sequence of messages is guarded if and only if every
access of it is covered. -/
theorem guarded_throughout_iff (msgs : List (Msg cfg)) :
    Throughout cfg L (Guarded cfg L) msgs ↔
      Throughout cfg L (fun _ db entry => Covered cfg L ((db entry.keyName).getD []) entry) msgs := by
  constructor
  · intro hall before order entry after db hmsgs hrun
    exact (guarded_iff hrun).mp (hall before order entry after db hmsgs hrun)
  · intro hall before order entry after db hmsgs hrun
    exact (guarded_iff hrun).mpr (hall before order entry after db hmsgs hrun)

/-- A new server reads outside its strings at the first access. -/
theorem first_access_unguarded : ¬ ∀ msgs : List (Msg constants),
    Throughout constants Libsodium.plain (Guarded constants Libsodium.plain) msgs := by
  intro hall
  let order : TaskOrder constants := TaskOrder.startingWith constants.serverNumThreads_pos
  have hguard := hall [.access order plainGet] [] order plainGet [] emptyDb rfl rfl
  exact hguard.inside order (access_of_missing rfl order)

end Lbl
end Ortoa
