/-
# `client.cpp` from start to start

The command line again, one statement at a time, with everything a restart
finds: the data file, the server's database, and the messages that were sent
and not yet processed. The process ends by `EXIT` or `SIGINT`, which save the
globals, or by an exception, which does not. `create` is oneway; each start
opens a new connection, and the server processes the messages of one
connection in order and those of different connections in any order.

The thread pool's tasks read the globals and change none, so a builder's loops
are one statement here. A pass of the loop that nobody interrupts is one of
`Client.lean` (`passes_of_loopBody`).

Key definitions: `Pc`, `World`, `stepMain`, `next`, `MainStep`, `Steps`.
Key theorems: `mainStep_of_stepMain`, `steps_of_next`, `passes_of_loopBody`.
-/
import Ortoa.Lbl.Client

namespace Ortoa
namespace Lbl
namespace Restart

open Client (Operation)

/-! ### The process, the connection and the server -/

/-- The three ways through the body of the loop. -/
inductive Path
  | create
  | get
  | put
  deriving DecidableEq

/-- Where the client is: before which statement, with the locals it needs. -/
inductive Pc (cfg : Config)
  /-- No process. -/
  | stopped
  /-- Before `parseOperation`. -/
  | prompt
  /-- Before the tests of `op.type` and `keySet`. -/
  | parsed (op : Operation)
  /-- Before `constructCreateEntry`, `constructGetEntry` or `constructPutEntry`. -/
  | building (op : Operation) (path : Path)
  /-- In `constructCreateEntry`, before `crypto_kdf_keygen`. -/
  | emptied (op : Operation)
  /-- In `constructCreateEntry`, before the tasks. -/
  | keyed (op : Operation) (d : Draw cfg)
  /-- Before `masterKeys[key] = newMasterKeyStr`, the last statement of the
  access builders. -/
  | encrypted (op : Operation) (path : Path) (entry : Entry) (newMasterKey : Bytes)
  /-- Before `valueSizes[op.key] = op.value.length()`. -/
  | built (op : Operation) (path : Path) (entry : Entry)
  /-- Before `keySet.insert`. -/
  | sized (op : Operation) (entry : Entry)
  /-- Before `client.create` or `client.access`. -/
  | ready (op : Operation) (path : Path) (entry : Entry)
  /-- In `client.access`, the entry sent. -/
  | waiting (op : Operation) (path : Path)
  /-- After `client.access`. -/
  | replied (op : Operation) (path : Path) (labels : Bytes)

/-- A message in flight: on which connection, for which command. -/
structure Message where
  session : ℕ
  op : Operation
  path : Path
  entry : Entry

structure World (cfg : Config) where
  pc : Pc cfg
  globals : Globals
  /-- The messages sent and not yet processed, oldest first. -/
  net : List Message
  db : Db
  /-- The server has not run into `exit(1)`. -/
  serverUp : Bool
  /-- `DATA_FILE`. -/
  file : Option Saved
  /-- The number of starts; each opens a connection. -/
  session : ℕ
  /-- The keys for which this process has sent an access. No code reads it. -/
  accessed : List Bytes

/-- No data file, an empty database. -/
def initial (cfg : Config) : World cfg where
  pc := .stopped
  globals := opScureSetup cfg none
  net := []
  db := fun _ => none
  serverUp := true
  file := none
  session := 0
  accessed := []

/-- What can happen next. -/
inductive Act (cfg : Config)
  /-- `main` up to its loop. -/
  | start
  /-- A command is read. -/
  | command (op : Operation)
  /-- The client executes its next statement. -/
  | step (d : Draw cfg)
  /-- The RPC throws a `TException`. -/
  | fail
  | sigint
  /-- The server processes the `n`-th message in flight. -/
  | serve (n : ℕ) (order : List ℕ) (horder : order.Perm (List.range cfg.serverNumThreads))

section Step

variable {cfg : Config} (L : Libsodium)

def World.goto (w : World cfg) (pc : Pc cfg) : World cfg := { w with pc := pc }

def World.setGlobals (w : World cfg) (g : Globals) : World cfg := { w with globals := g }

def World.send (w : World cfg) (op : Operation) (path : Path) (entry : Entry) : World cfg :=
  { w with net := w.net ++ [(⟨w.session, op, path, entry⟩ : Message)] }

/-- `OpScureCleanup` and the end of the process. -/
def World.save (w : World cfg) : World cfg :=
  { w with pc := .stopped, file := some (opScureCleanup w.globals), accessed := [] }

/-- The end of the process without `OpScureCleanup`. -/
def World.abandon (w : World cfg) : World cfg := { w with pc := .stopped, accessed := [] }

/-- The entry of an access; the builder's last statement is still to come. -/
def accessEntryOf (g : Globals) (op : Operation) (d : Draw cfg) (path : Path) :
    Except Fault (Globals × Entry) :=
  if path = .get then constructGetEntry cfg L g op.key d
  else constructPutEntry cfg L g op.key op.value d

/-- The next statement. `std::length_error` of `padToLen` is no `TException`
and ends the process; a GET that has its labels prints them and changes
nothing. -/
def stepMain (w : World cfg) (d : Draw cfg) : Option (World cfg) :=
  match w.pc with
  | .parsed op =>
    if op.type = .exit then some w.save
    else if w.globals.keySet op.key then
      some (w.goto (.building op (if op.type = .get then .get else .put)))
    else if op.type = .get then some (w.goto .prompt)
    else some (w.goto (.building op .create))
  | .building op path =>
    if path = .create then
      match padToLen op.value cfg.valueSize with
      | .ok _ =>
        some ((w.setGlobals (w.globals.rekey op.key (List.replicate cryptoKdfKeybytes 0))).goto (.emptied op))
      | .error _ => some w.abandon
    else
      match accessEntryOf L w.globals op d path with
      | .ok (_, entry) => some (w.goto (.encrypted op path entry d.masterKey))
      | .error _ => some w.abandon
  | .emptied op => some ((w.setGlobals (w.globals.rekey op.key d.masterKey)).goto (.keyed op d))
  | .keyed op d =>
    match constructCreateEntry cfg L w.globals op.key op.value d with
    | .ok (_, entry) => some (w.goto (.built op .create entry))
    | .error _ => some w.abandon
  | .encrypted op path entry newMasterKey =>
    some ((w.setGlobals (w.globals.rekey op.key newMasterKey)).goto
      (if path = .get then .ready op path entry else .built op path entry))
  | .built op path entry =>
    some ((w.setGlobals (w.globals.setSize op.key op.value.length)).goto
      (if path = .create then .sized op entry else .ready op path entry))
  | .sized op entry =>
    some ((w.setGlobals (w.globals.insertKey op.key)).goto (.ready op .create entry))
  | .ready op path entry =>
    if path = .create then some ((w.send op path entry).goto .prompt)
    else
      some ({ w.send op path entry with
        accessed := op.key :: w.accessed }.goto (.waiting op path))
  | .replied _ _ _ => some (w.goto .prompt)
  | .stopped => none
  | .prompt => none
  | .waiting _ _ => none

/-- The reply reaches the client, if it is still there to take it. -/
def World.reply (w : World cfg) (session : ℕ) (labels : Bytes) : World cfg :=
  match w.pc with
  | .waiting op path => if w.session = session then w.goto (.replied op path labels) else w
  | _ => w

/-- The server processes message `m`, the `n`-th in flight. -/
def serve (w : World cfg) (n : ℕ) (m : Message) (order : List ℕ) : World cfg :=
  if m.path = .create then { w with net := w.net.eraseIdx n, db := create w.db m.entry }
  else
    match access cfg L order w.db m.entry with
    | .ok (labels, db) => { w with net := w.net.eraseIdx n, db := db }.reply m.session labels
    | .error _ => { w with net := w.net.eraseIdx n, serverUp := false }

/-- The `n`-th message is the oldest of its connection. -/
def atHead (w : World cfg) (n : ℕ) (m : Message) : Bool :=
  (w.net.take n).all fun m' => m'.session ≠ m.session

def next (w : World cfg) : Act cfg → Option (World cfg)
  | .start =>
    match w.pc with
    | .stopped => some { w with
        pc := .prompt
        globals := opScureSetup cfg w.file
        session := w.session + 1
        accessed := [] }
    | _ => none
  | .command op =>
    match w.pc with
    | .prompt => some (w.goto (.parsed op))
    | _ => none
  | .step d => stepMain L w d
  | .fail =>
    match w.pc with
    | .ready _ _ _ => some w.abandon
    | .waiting _ _ => some w.abandon
    | _ => none
  | .sigint =>
    match w.pc with
    | .stopped => none
    | _ => some w.save
  | .serve n order _ =>
    match w.net[n]? with
    | some m => if w.serverUp ∧ atHead w n m then some (serve L w n m order) else none
    | none => none

end Step

/-! ### What a step can do -/

section Inversion

variable {cfg : Config} {L : Libsodium}

/-- What a client on the way to an access has built. -/
def accessOf (cfg : Config) (L : Libsodium) (op : Operation) (mk : Bytes) (d : Draw cfg) (path : Path) :
    Entry :=
  if path = .get then getEntry cfg L op.key mk d else putEntry cfg L op.key mk op.value d

/-- A step of the client: how the process ends, which statement it executes,
or which message it sends. -/
inductive MainStep (L : Libsodium) (w : World cfg) (d : Draw cfg) : World cfg → Prop
  | exit (op : Operation) : w.pc = .parsed op → MainStep L w d w.save
  | missing (op : Operation) : w.pc = .parsed op → MainStep L w d (w.goto .prompt)
  | test (op : Operation) (path : Path) : w.pc = .parsed op →
    (w.globals.keySet op.key = true ↔ path ≠ .create) → (op.type = .put ↔ path ≠ .get) →
    MainStep L w d (w.goto (.building op path))
  | tooLong (op : Operation) (path : Path) : w.pc = .building op path → path ≠ .get →
    cfg.valueSize < op.value.length → MainStep L w d w.abandon
  | empty (op : Operation) : w.pc = .building op .create → op.value.length ≤ cfg.valueSize →
    MainStep L w d
      ((w.setGlobals (w.globals.rekey op.key (List.replicate cryptoKdfKeybytes 0))).goto (.emptied op))
  | encrypt (op : Operation) (path : Path) : w.pc = .building op path → path ≠ .create →
    (path ≠ .get → op.value.length ≤ cfg.valueSize) →
    MainStep L w d (w.goto
      (.encrypted op path (accessOf cfg L op (w.globals.masterKeys op.key) d path) d.masterKey))
  | keygen (op : Operation) : w.pc = .emptied op →
    MainStep L w d ((w.setGlobals (w.globals.rekey op.key d.masterKey)).goto (.keyed op d))
  | create (op : Operation) (d' : Draw cfg) : w.pc = .keyed op d' →
    op.value.length ≤ cfg.valueSize →
    MainStep L w d (w.goto (.built op .create (createEntry cfg L op.key op.value d')))
  | createTooLong (op : Operation) (d' : Draw cfg) : w.pc = .keyed op d' →
    cfg.valueSize < op.value.length → MainStep L w d w.abandon
  | install (op : Operation) (path : Path) (entry : Entry) (mk : Bytes) :
    w.pc = .encrypted op path entry mk →
    MainStep L w d ((w.setGlobals (w.globals.rekey op.key mk)).goto
      (if path = .get then .ready op path entry else .built op path entry))
  | setSize (op : Operation) (path : Path) (entry : Entry) : w.pc = .built op path entry →
    MainStep L w d ((w.setGlobals (w.globals.setSize op.key op.value.length)).goto
      (if path = .create then .sized op entry else .ready op path entry))
  | insertKey (op : Operation) (entry : Entry) : w.pc = .sized op entry →
    MainStep L w d ((w.setGlobals (w.globals.insertKey op.key)).goto (.ready op .create entry))
  | sendCreate (op : Operation) (entry : Entry) : w.pc = .ready op .create entry →
    MainStep L w d ((w.send op .create entry).goto .prompt)
  | sendAccess (op : Operation) (path : Path) (entry : Entry) : w.pc = .ready op path entry →
    path ≠ .create → MainStep L w d
      ({ w.send op path entry with accessed := op.key :: w.accessed }.goto (.waiting op path))
  | print (op : Operation) (path : Path) (labels : Bytes) : w.pc = .replied op path labels →
    MainStep L w d (w.goto .prompt)

theorem accessEntryOf_eq {g : Globals} {op : Operation} {d : Draw cfg} {path : Path}
    (hfits : path ≠ .get → op.value.length ≤ cfg.valueSize) : accessEntryOf L g op d path =
      .ok (g.rekey op.key d.masterKey, accessOf cfg L op (g.masterKeys op.key) d path) := by
  unfold accessEntryOf accessOf
  split
  · exact constructGetEntry_eq cfg L g op.key d
  · rename_i hpath
    exact constructPutEntry_eq cfg L g op.key d (hfits hpath)

theorem put_of_ne {type : Client.OperationType} (hexit : type ≠ .exit) (hget : type ≠ .get) :
    type = .put := by
  cases type with
  | exit => exact absurd rfl hexit
  | get => exact absurd rfl hget
  | put => rfl

theorem mainStep_of_stepMain {w w' : World cfg} {d : Draw cfg} (h : stepMain L w d = some w') :
    MainStep L w d w' := by
  unfold stepMain at h
  cases hpc : w.pc with
  | parsed op =>
    simp only [hpc] at h
    by_cases hexit : op.type = .exit
    · rw [if_pos hexit, Option.some.injEq] at h
      exact h ▸ .exit op hpc
    rw [if_neg hexit] at h
    cases hset : w.globals.keySet op.key with
    | true =>
      rw [if_pos hset, Option.some.injEq] at h
      by_cases hget : op.type = .get
      · rw [if_pos hget] at h
        exact h ▸ .test op .get hpc (by simp [hset]) (by simp [hget])
      · rw [if_neg hget] at h
        exact h ▸ .test op .put hpc (by simp [hset]) (by simp [put_of_ne hexit hget])
    | false =>
      rw [if_neg (by rw [hset]; decide)] at h
      by_cases hget : op.type = .get
      · rw [if_pos hget, Option.some.injEq] at h
        exact h ▸ .missing op hpc
      · rw [if_neg hget, Option.some.injEq] at h
        exact h ▸ .test op .create hpc (by simp [hset]) (by simp [put_of_ne hexit hget])
  | building op path =>
    simp only [hpc] at h
    by_cases hlong : path ≠ .get ∧ cfg.valueSize < op.value.length
    · have habandon : w.abandon = w' := by
        by_cases hpath : path = .create
        · rw [if_pos hpath, padToLen, if_neg (by omega)] at h
          exact Option.some.inj h
        · rw [if_neg hpath, accessEntryOf, if_neg hlong.1,
            constructPutEntry_long cfg L w.globals op.key d hlong.2] at h
          exact Option.some.inj h
      exact habandon ▸ .tooLong op path hpc hlong.1 hlong.2
    · have hfits : path ≠ .get → op.value.length ≤ cfg.valueSize := by
        intro hpath
        by_contra hlt
        exact hlong ⟨hpath, by omega⟩
      by_cases hpath : path = .create
      · subst hpath
        rw [if_pos rfl, padToLen, if_pos (hfits (by decide))] at h
        exact Option.some.inj h ▸ .empty op hpc (hfits (by decide))
      · rw [if_neg hpath, accessEntryOf_eq hfits] at h
        exact Option.some.inj h ▸ .encrypt op path hpc hpath hfits
  | emptied op =>
    simp only [hpc, Option.some.injEq] at h
    exact h ▸ .keygen op hpc
  | keyed op d' =>
    simp only [hpc] at h
    rcases Nat.lt_or_ge cfg.valueSize op.value.length with hlt | hle
    · rw [constructCreateEntry_long cfg L w.globals op.key d' hlt] at h
      exact Option.some.inj h ▸ .createTooLong op d' hpc hlt
    · rw [constructCreateEntry_eq cfg L w.globals op.key d' hle] at h
      exact Option.some.inj h ▸ .create op d' hpc hle
  | encrypted op path entry mk =>
    simp only [hpc, Option.some.injEq] at h
    exact h ▸ .install op path entry mk hpc
  | built op path entry =>
    simp only [hpc, Option.some.injEq] at h
    exact h ▸ .setSize op path entry hpc
  | sized op entry =>
    simp only [hpc, Option.some.injEq] at h
    exact h ▸ .insertKey op entry hpc
  | ready op path entry =>
    simp only [hpc] at h
    by_cases hpath : path = .create
    · subst hpath
      rw [if_pos rfl, Option.some.injEq] at h
      exact h ▸ .sendCreate op entry hpc
    · rw [if_neg hpath, Option.some.injEq] at h
      exact h ▸ .sendAccess op path entry hpc hpath
  | replied op path labels =>
    simp only [hpc, Option.some.injEq] at h
    exact h ▸ .print op path labels hpc
  | stopped => simp only [hpc] at h; cases h
  | prompt => simp only [hpc] at h; cases h
  | waiting op path => simp only [hpc] at h; cases h

/-- What can happen, the client's own statements apart. -/
inductive Steps (L : Libsodium) (w : World cfg) : Act cfg → World cfg → Prop
  | start : w.pc = .stopped → Steps L w .start { w with
      pc := .prompt, globals := opScureSetup cfg w.file, session := w.session + 1, accessed := [] }
  | command (op : Operation) : w.pc = .prompt → Steps L w (.command op) (w.goto (.parsed op))
  | main (d : Draw cfg) (w' : World cfg) : MainStep L w d w' → Steps L w (.step d) w'
  | fail : w.pc ≠ .stopped → Steps L w .fail w.abandon
  | sigint : w.pc ≠ .stopped → Steps L w .sigint w.save
  | serve (n : ℕ) (order : List ℕ) (horder : order.Perm (List.range cfg.serverNumThreads))
    (m : Message) : w.net[n]? = some m → Steps L w (.serve n order horder) (serve L w n m order)

theorem steps_of_next {w w' : World cfg} {a : Act cfg} (h : next L w a = some w') : Steps L w a w' := by
  cases a with
  | start =>
    rw [next] at h
    split at h
    · rename_i hpc
      exact Option.some.inj h ▸ .start hpc
    · cases h
  | command op =>
    rw [next] at h
    split at h
    · rename_i hpc
      exact Option.some.inj h ▸ .command op hpc
    · cases h
  | step d => exact .main d w' (mainStep_of_stepMain h)
  | fail =>
    rw [next] at h
    split at h
    · rename_i hpc
      exact Option.some.inj h ▸ .fail (by rw [hpc]; simp)
    · rename_i hpc
      exact Option.some.inj h ▸ .fail (by rw [hpc]; simp)
    · cases h
  | sigint =>
    rw [next] at h
    split at h
    · cases h
    · rename_i hpc
      exact Option.some.inj h ▸ .sigint hpc
  | serve n order horder =>
    rw [next] at h
    split at h
    · rename_i m hm
      split at h
      · exact Option.some.inj h ▸ .serve n order horder m hm
      · cases h
    · cases h

/-- A reply moves the client, and nothing else. -/
theorem reply_cases (w : World cfg) (session : ℕ) (labels : Bytes) :
    w.reply session labels = w ∨ ∃ op path, w.pc = .waiting op path ∧
      w.reply session labels = w.goto (.replied op path labels) := by
  unfold World.reply
  split
  · rename_i op path hpc
    split
    · exact Or.inr ⟨op, path, hpc, rfl⟩
    · exact Or.inl rfl
  · exact Or.inl rfl

/-- The server moves the client, by a reply, and changes none of its data. -/
theorem serve_client (w : World cfg) (n : ℕ) (m : Message) (order : List ℕ) :
    (serve L w n m order).globals = w.globals ∧ (serve L w n m order).file = w.file ∧
      (serve L w n m order).accessed = w.accessed ∧
      ((serve L w n m order).pc = w.pc ∨ ∃ op path labels, w.pc = .waiting op path ∧
        (serve L w n m order).pc = .replied op path labels) := by
  unfold serve
  split
  · exact ⟨rfl, rfl, rfl, Or.inl rfl⟩
  · split
    · rename_i labels db _
      rcases reply_cases { w with net := w.net.eraseIdx n, db := db } m.session labels with
        hr | ⟨op, path, hpc, hr⟩
      · rw [hr]
        exact ⟨rfl, rfl, rfl, Or.inl rfl⟩
      · rw [hr]
        exact ⟨rfl, rfl, rfl, Or.inr ⟨op, path, labels, hpc, rfl⟩⟩
    · exact ⟨rfl, rfl, rfl, Or.inl rfl⟩

end Inversion

/-! ### Commands that nobody interrupts -/

section Undisturbed

variable {cfg : Config} {L : Libsodium} {w : World cfg} {op : Operation}

/-- A PUT of a new key. -/
theorem run_put (d : Draw cfg) (hpc : w.pc = .prompt) (hset : w.globals.keySet op.key = false)
    (hput : op.type = .put) (hfits : op.value.length ≤ cfg.valueSize) :
    run (next L) w (.command op :: List.replicate 7 (.step d)) =
      some { w with
        globals := ((w.globals.rekey op.key d.masterKey).setSize op.key op.value.length).insertKey op.key
        net := w.net ++ [(⟨w.session, op, .create, createEntry cfg L op.key op.value d⟩ : Message)] } := by
  have hpad := padToLen_ok hfits
  have hc : ∀ g, constructCreateEntry cfg L g op.key op.value d = .ok _ :=
    fun g => constructCreateEntry_eq cfg L g op.key d hfits
  simp only [List.replicate, run_cons, run_nil, next, stepMain, hpc, hset, hput, hpad, hc,
    Option.bind_some, Bool.false_eq_true, if_false, if_true, reduceCtorEq, World.goto,
    World.setGlobals, World.send]
  simp [Globals.rekey]

/-- A GET of a key that is there, up to its message. -/
theorem run_get_ready (d : Draw cfg) (hpc : w.pc = .prompt) (hset : w.globals.keySet op.key = true)
    (hget : op.type = .get) :
    run (next L) w (.command op :: List.replicate 3 (.step d)) =
      some { w with
        pc := .ready op .get (getEntry cfg L op.key (w.globals.masterKeys op.key) d)
        globals := w.globals.rekey op.key d.masterKey } := by
  have hc : ∀ g, accessEntryOf L g op d .get = .ok _ :=
    fun g => accessEntryOf_eq fun hpath => absurd rfl hpath
  simp only [List.replicate, run_cons, run_nil, next, stepMain, hpc, hset, hget, hc,
    Option.bind_some, if_false, if_true, reduceCtorEq, World.goto, World.setGlobals]
  rfl

/-- A PUT of a key that is there, up to its message. -/
theorem run_put_ready (d : Draw cfg) (hpc : w.pc = .prompt) (hset : w.globals.keySet op.key = true)
    (hput : op.type = .put) (hfits : op.value.length ≤ cfg.valueSize) :
    run (next L) w (.command op :: List.replicate 4 (.step d)) =
      some { w with
        pc := .ready op .put (putEntry cfg L op.key (w.globals.masterKeys op.key) op.value d)
        globals := (w.globals.rekey op.key d.masterKey).setSize op.key op.value.length } := by
  have hc : ∀ g, accessEntryOf L g op d .put = .ok _ := fun g => accessEntryOf_eq fun _ => hfits
  simp only [List.replicate, run_cons, run_nil, next, stepMain, hpc, hset, hput, hc,
    Option.bind_some, if_false, if_true, reduceCtorEq, World.goto, World.setGlobals]
  rfl

/-- The message is sent, processed and replied to. -/
theorem run_access (d : Draw cfg) {path : Path} {entry : Entry} {order : List ℕ} {labels : Bytes} {db : Db}
    (horder : order.Perm (List.range cfg.serverNumThreads)) (hpc : w.pc = .ready op path entry)
    (hpath : path ≠ .create) (hnet : w.net = []) (hup : w.serverUp = true)
    (hacc : access cfg L order w.db entry = .ok (labels, db)) :
    run (next L) w [.step d, .serve 0 order horder, .step d] =
      some { w with pc := .prompt, db := db, accessed := op.key :: w.accessed } := by
  simp only [run_cons, run_nil, next, stepMain, hpc, if_neg hpath, Option.bind_some, World.goto,
    World.send, hnet, List.nil_append, List.getElem?_cons_zero, hup, atHead, List.take_zero,
    List.all_nil, and_self, if_true, serve, hacc, World.reply, List.eraseIdx_cons_zero]

/-- A run to the prompt, with nothing in flight. -/
def Passes (L : Libsodium) (w : World cfg) (g : Globals) (db : Db) : Prop :=
  ∃ as w', run (next L) w as = some w' ∧ w'.pc = .prompt ∧ w'.net = [] ∧ w'.globals = g ∧ w'.db = db

theorem passes_of_ready {w' : World cfg} {as : List (Act cfg)} {path : Path} {entry : Entry}
    {order : List ℕ} {r : Bytes × Db} (d : Draw cfg)
    (horder : order.Perm (List.range cfg.serverNumThreads)) (hrun : run (next L) w as = some w')
    (hpc : w'.pc = .ready op path entry) (hpath : path ≠ .create) (hnet : w'.net = [])
    (hup : w'.serverUp = true) (hacc : access cfg L order w'.db entry = .ok r) :
    Passes L w w'.globals r.2 := by
  refine ⟨as ++ [.step d, .serve 0 order horder, .step d],
    { w' with pc := .prompt, db := r.2, accessed := op.key :: w'.accessed }, ?_, rfl, hnet, rfl, rfl⟩
  rw [run_append, hrun, Option.bind_some]
  exact run_access d horder hpc hpath hnet hup hacc

/-- A pass of the loop that nobody interrupts, with the server's part of it. -/
theorem passes_of_loopBody {t : Client.Pass cfg} {r : Client.World × Client.Output}
    (hpc : w.pc = .prompt) (hnet : w.net = []) (hup : w.serverUp = true) (hexit : t.op.type ≠ .exit)
    (h : Client.loopBody cfg L ⟨w.globals, w.db⟩ t = .ok r) : Passes L w r.1.globals r.1.db := by
  unfold Client.loopBody at h
  cases hset : w.globals.keySet t.op.key with
  | true =>
    cases htype : t.op.type with
    | exit => exact absurd htype hexit
    | get =>
      simp only [htype, hset, if_true, constructGetEntry_eq, bind, Except.bind] at h
      split at h
      · cases h
      · rename_i res hacc
        split at h
        · cases h
        · obtain rfl := Except.ok.inj h
          exact passes_of_ready t.draw t.serverOrder_perm (run_get_ready t.draw hpc hset htype) rfl
            (by decide) hnet hup hacc
    | put =>
      rcases Nat.lt_or_ge cfg.valueSize t.op.value.length with hlt | hle
      · simp only [htype, hset, if_true, constructPutEntry_long cfg L _ _ _ hlt, bind, Except.bind] at h
        cases h
      simp only [htype, hset, if_true, constructPutEntry_eq cfg L _ _ _ hle, bind, Except.bind] at h
      split at h
      · cases h
      · rename_i res hacc
        obtain rfl := Except.ok.inj h
        exact passes_of_ready t.draw t.serverOrder_perm (run_put_ready t.draw hpc hset htype hle) rfl
          (by decide) hnet hup hacc
  | false =>
    cases htype : t.op.type with
    | exit => exact absurd htype hexit
    | get =>
      simp only [htype, hset, Bool.false_eq_true, if_false] at h
      obtain rfl := Except.ok.inj h
      refine ⟨[.command t.op, .step t.draw], w, ?_, hpc, hnet, rfl, rfl⟩
      simp only [run_cons, run_nil, next, stepMain, hpc, hset, htype, Option.bind_some, World.goto,
        Bool.false_eq_true, if_false, if_true, reduceCtorEq]
      rw [← hpc]
    | put =>
      rcases Nat.lt_or_ge cfg.valueSize t.op.value.length with hlt | hle
      · simp only [htype, hset, Bool.false_eq_true, if_false,
          constructCreateEntry_long cfg L _ _ _ hlt, bind, Except.bind] at h
        cases h
      simp only [htype, hset, Bool.false_eq_true, if_false, constructCreateEntry_eq cfg L _ _ _ hle,
        bind, Except.bind] at h
      obtain rfl := Except.ok.inj h
      refine ⟨(.command t.op :: List.replicate 7 (.step t.draw)) ++
        [.serve 0 t.serverOrder t.serverOrder_perm],
        { w with
          globals := ((w.globals.rekey t.op.key t.draw.masterKey).setSize t.op.key
            t.op.value.length).insertKey t.op.key
          net := []
          db := create w.db (createEntry cfg L t.op.key t.op.value t.draw) }, ?_, hpc, rfl, rfl, rfl⟩
      rw [run_append, run_put t.draw hpc hset htype hle, Option.bind_some]
      simp only [run_cons, run_nil, next, hnet, List.nil_append, List.getElem?_cons_zero, hup, atHead,
        List.take_zero, List.all_nil, and_self, if_true, serve, Option.bind_some]
      rfl

end Undisturbed

end Restart
end Lbl
end Ortoa
