/-
# `proxy.cpp`: concurrent `handleOp` calls

Every client request is a `handleOp` call in a thread of its own, with its
own connection to the server. A call tests `keySet`, takes the key's lock by
`exchange(false)` or gives up, builds its entry, updates `valueSizes` and
`keySet`, sends the entry and releases the lock by `exchange(true)`; `Pc` has
one state before each of these statements, and `stepCall` executes the next
one. `create` is oneway, so the call goes on once the message is sent; an
`access` waits for its reply. Messages are in flight until the server
processes them, one at a time and in any order; a label that does not open
ends the server. An RPC may fail before the message is sent or while its
reply is awaited (`Act.fail`); nothing then releases the lock.

Accesses to the maps and to the lock table are atomic here, one statement at
a time.

Key definitions: `Pc`, `World`, `stepCall`, `next`, `CallStep`, `NextStep`.
Key theorems: `callStep_of_stepCall`, `nextStep_of_next`, `construct_ok`.
-/
import Ortoa.Lbl.Server
import Ortoa.Run

namespace Ortoa
namespace Lbl
namespace Proxy

/-! ### Calls -/

/-- `Operation` of `Operation.thrift`. -/
structure Operation where
  op : Bytes
  key : Bytes
  value : Bytes
  deriving DecidableEq

/-- `op.op == "GET"`; every other word is taken for a PUT. -/
def Operation.isGet (o : Operation) : Bool := o.op = ascii ['G', 'E', 'T']

/-- The three ways through `handleOp`. -/
inductive Path
  | create
  | get
  | put
  deriving DecidableEq

/-- Where a call of `handleOp` is: the next statement, and the locals it
needs. -/
inductive Pc
  | idle
  /-- Before `keySet.count`. -/
  | called (op : Operation)
  /-- Before `locks[op.key].exchange(false)`. -/
  | tested (op : Operation) (path : Path)
  /-- Before `constructCreateEntry`, `constructGetEntry` or `constructPutEntry`. -/
  | locked (op : Operation) (path : Path)
  /-- Before `valueSizes[op.key] = op.value.length()`. -/
  | built (op : Operation) (path : Path) (entry : Entry)
  /-- Before `keySet.insert`. -/
  | sized (op : Operation) (path : Path) (entry : Entry)
  /-- Before `client.create` or `client.access`. -/
  | ready (op : Operation) (path : Path) (entry : Entry)
  /-- In `client.access`. -/
  | waiting (op : Operation) (path : Path)
  /-- After `client.access`. -/
  | replied (op : Operation) (path : Path) (labels : Bytes)
  /-- Before `accesses++`, with what is in `*_return`. -/
  | done (op : Operation) (path : Path) (result : Bytes)
  /-- Before `locks[op.key].exchange(true)`. -/
  | counted (op : Operation) (result : Bytes)
  | returned (op : Operation) (result : Bytes)
  /-- An exception has left `handleOp`. -/
  | threw (op : Operation)

/-- The operation of a call that is between its `exchange(false)`, when that
gave it the lock, and its `exchange(true)`. -/
def Pc.holding : Pc → Option Operation
  | .locked op _ => some op
  | .built op _ _ => some op
  | .sized op _ _ => some op
  | .ready op _ _ => some op
  | .waiting op _ => some op
  | .replied op _ _ => some op
  | .done op _ _ => some op
  | .counted op _ => some op
  | _ => none

/-- The operation of a call. -/
def Pc.operation : Pc → Option Operation
  | .called op => some op
  | .tested op _ => some op
  | .returned op _ => some op
  | .threw op => some op
  | pc => pc.holding

/-! ### The system -/

/-- The method a message calls. -/
inductive Method
  | create
  | access
  deriving DecidableEq

/-- A message in flight: who sent it, and what. -/
structure Message where
  call : ℕ
  method : Method
  entry : Entry

structure World where
  globals : Globals
  accesses : ℕ
  aborted : ℕ
  calls : ℕ → Pc
  /-- The messages sent and not yet processed, oldest first. -/
  net : List Message
  db : Db
  /-- The server has not run into `exit(1)`. -/
  serverUp : Bool

/-- The proxy after `OpScureSetup`, before the first request. -/
def initial (cfg : Config) (file : Option Saved) (db : Db) : World where
  globals := opScureSetup cfg file
  accesses := 0
  aborted := 0
  calls := fun _ => .idle
  net := []
  db := db
  serverUp := true

@[simp] theorem initial_locks (cfg : Config) (file : Option Saved) (db : Db) :
    (initial cfg file db).globals.locks = setupLocks cfg.keyMax := by
  cases file <;> rfl

def World.goto (w : World) (i : ℕ) (pc : Pc) : World := { w with calls := Function.update w.calls i pc }

def World.setGlobals (w : World) (g : Globals) : World := { w with globals := g }

def World.send (w : World) (m : Message) : World := { w with net := w.net ++ [m] }

section Fields

variable (w : World) (i : ℕ) (pc : Pc)

@[simp] theorem goto_globals : (w.goto i pc).globals = w.globals := rfl
@[simp] theorem goto_net : (w.goto i pc).net = w.net := rfl
@[simp] theorem goto_db : (w.goto i pc).db = w.db := rfl
@[simp] theorem goto_aborted : (w.goto i pc).aborted = w.aborted := rfl
@[simp] theorem goto_calls_self : (w.goto i pc).calls i = pc := Function.update_self _ _ _
theorem goto_calls_ne {j : ℕ} (h : j ≠ i) : (w.goto i pc).calls j = w.calls j :=
  Function.update_of_ne h _ _

@[simp] theorem setGlobals_globals (g : Globals) : (w.setGlobals g).globals = g := rfl

end Fields

/-- What can happen next. -/
inductive Act (cfg : Config)
  /-- A client sends a request: a new call `i`. -/
  | call (i : ℕ) (op : Operation)
  /-- Call `i` executes its next statement. -/
  | step (i : ℕ) (d : Draw cfg)
  /-- The RPC of call `i` throws. -/
  | fail (i : ℕ)
  /-- The server processes the `n`-th message in flight. -/
  | process (n : ℕ) (order : List ℕ) (horder : order.Perm (List.range cfg.serverNumThreads))

section Step

variable (cfg : Config) (L : Libsodium)

/-- The builder of each path. -/
def construct (g : Globals) (op : Operation) (d : Draw cfg) : Path → Except Fault (Globals × Entry)
  | .create => constructCreateEntry cfg L g op.key op.value d
  | .get => constructGetEntry cfg L g op.key d
  | .put => constructPutEntry cfg L g op.key op.value d

/-- The next statement of call `i`. -/
def stepCall (w : World) (i : ℕ) (d : Draw cfg) : Option World :=
  match w.calls i with
  | .called op =>
    if w.globals.keySet op.key then
      some (w.goto i (.tested op (if op.isGet then .get else .put)))
    else if op.isGet then some ({ w with aborted := w.aborted + 1 }.goto i (.returned op []))
    else some (w.goto i (.tested op .create))
  | .tested op path =>
    if w.globals.locks op.key = some true then
      some ((w.setGlobals (w.globals.setLock op.key false)).goto i (.locked op path))
    else
      some ({ w with aborted := w.aborted + 1, globals := w.globals.setLock op.key false }.goto i
        (.returned op []))
  | .locked op path =>
    match construct cfg L w.globals op d path with
    | .ok (g, entry) =>
      some ((w.setGlobals g).goto i (if path = .get then .ready op path entry else .built op path entry))
    | .error _ => some (w.goto i (.threw op))
  | .built op path entry =>
    some ((w.setGlobals (w.globals.setSize op.key op.value.length)).goto i
      (if path = .create then .sized op path entry else .ready op path entry))
  | .sized op path entry =>
    some ((w.setGlobals (w.globals.insertKey op.key)).goto i (.ready op path entry))
  | .ready op path entry =>
    if path = .create then some ((w.send ⟨i, .create, entry⟩).goto i (.done op path []))
    else some ((w.send ⟨i, .access, entry⟩).goto i (.waiting op path))
  | .replied op path labels =>
    if path = .get then
      match readValueFromLabels cfg L w.globals op.key labels d.uninit with
      | .ok value => some (w.goto i (.done op path value))
      | .error _ => some (w.goto i (.threw op))
    else some (w.goto i (.done op path []))
  | .done op _ result => some ({ w with accesses := w.accesses + 1 }.goto i (.counted op result))
  | .counted op result =>
    some ((w.setGlobals (w.globals.setLock op.key true)).goto i (.returned op result))
  | _ => none

/-- The reply reaches the call, if it is still there to take it. -/
def World.reply (w : World) (i : ℕ) (labels : Bytes) : World :=
  match w.calls i with
  | .waiting op path => w.goto i (.replied op path labels)
  | _ => w

/-- The server processes message `m`, the `n`-th in flight. -/
def serve (w : World) (n : ℕ) (m : Message) (order : List ℕ) : World :=
  match m.method with
  | .create => { w with net := w.net.eraseIdx n, db := create w.db m.entry }
  | .access =>
    match access cfg L order w.db m.entry with
    | .ok (labels, db) => { w with net := w.net.eraseIdx n, db := db }.reply m.call labels
    | .error _ => { w with net := w.net.eraseIdx n, serverUp := false }

def next (w : World) : Act cfg → Option World
  | .call i op =>
    match w.calls i with
    | .idle => some (w.goto i (.called op))
    | _ => none
  | .step i d => stepCall cfg L w i d
  | .fail i =>
    match w.calls i with
    | .ready op _ _ => some (w.goto i (.threw op))
    | .waiting op _ => some (w.goto i (.threw op))
    | _ => none
  | .process n order _ =>
    if w.serverUp then (w.net[n]?).map fun m => serve cfg L w n m order else none

end Step

/-! ### What a statement can do -/

variable {cfg : Config} {L : Libsodium}

/-- The entry of each path, from the master key `mk` on. -/
def pathEntry (cfg : Config) (L : Libsodium) (op : Operation) (mk : Bytes) (d : Draw cfg) :
    Path → Entry
  | .create => createEntry cfg L op.key op.value d
  | .get => getEntry cfg L op.key mk d
  | .put => putEntry cfg L op.key mk op.value d

/-- A builder succeeds if the value fits, and replaces the master key. -/
theorem construct_ok {g g' : Globals} {op : Operation} {d : Draw cfg} {path : Path} {entry : Entry}
    (h : construct cfg L g op d path = .ok (g', entry)) :
    (path ≠ .get → op.value.length ≤ cfg.valueSize) ∧ g' = g.rekey op.key d.masterKey ∧
      entry = pathEntry cfg L op (g.masterKeys op.key) d path := by
  cases path with
  | get =>
    rw [construct, constructGetEntry_eq, Except.ok.injEq, Prod.mk.injEq] at h
    exact ⟨fun hp => absurd rfl hp, h.1.symm, h.2.symm⟩
  | create =>
    rcases Nat.lt_or_ge cfg.valueSize op.value.length with hlt | hle
    · rw [construct, constructCreateEntry_long cfg L g op.key d hlt] at h
      cases h
    · rw [construct, constructCreateEntry_eq cfg L g op.key d hle, Except.ok.injEq,
        Prod.mk.injEq] at h
      exact ⟨fun _ => hle, h.1.symm, h.2.symm⟩
  | put =>
    rcases Nat.lt_or_ge cfg.valueSize op.value.length with hlt | hle
    · rw [construct, constructPutEntry_long cfg L g op.key d hlt] at h
      cases h
    · rw [construct, constructPutEntry_eq cfg L g op.key d hle, Except.ok.injEq,
        Prod.mk.injEq] at h
      exact ⟨fun _ => hle, h.1.symm, h.2.symm⟩

theorem construct_of_fits (g : Globals) {op : Operation} (d : Draw cfg) {path : Path}
    (h : path ≠ .get → op.value.length ≤ cfg.valueSize) : construct cfg L g op d path =
      .ok (g.rekey op.key d.masterKey, pathEntry cfg L op (g.masterKeys op.key) d path) := by
  cases path with
  | get => exact constructGetEntry_eq cfg L g op.key d
  | create => exact constructCreateEntry_eq cfg L g op.key d (h (by decide))
  | put => exact constructPutEntry_eq cfg L g op.key d (h (by decide))

/-- The statements of `handleOp`, one by one. -/
inductive CallStep (cfg : Config) (L : Libsodium) (w : World) (i : ℕ) (d : Draw cfg) : World → Prop
  | test (op : Operation) : w.calls i = .called op → w.globals.keySet op.key = true →
    CallStep cfg L w i d (w.goto i (.tested op (if op.isGet then .get else .put)))
  | testMissing (op : Operation) : w.calls i = .called op → w.globals.keySet op.key = false →
    op.isGet = true →
    CallStep cfg L w i d ({ w with aborted := w.aborted + 1 }.goto i (.returned op []))
  | testNew (op : Operation) : w.calls i = .called op → w.globals.keySet op.key = false →
    op.isGet = false → CallStep cfg L w i d (w.goto i (.tested op .create))
  | lock (op : Operation) (path : Path) : w.calls i = .tested op path →
    w.globals.locks op.key = some true →
    CallStep cfg L w i d ((w.setGlobals (w.globals.setLock op.key false)).goto i (.locked op path))
  | refuse (op : Operation) (path : Path) : w.calls i = .tested op path →
    w.globals.locks op.key ≠ some true →
    CallStep cfg L w i d ({ w with
      aborted := w.aborted + 1, globals := w.globals.setLock op.key false }.goto i (.returned op []))
  | constructed (op : Operation) (path : Path) : w.calls i = .locked op path →
    (path ≠ .get → op.value.length ≤ cfg.valueSize) →
    CallStep cfg L w i d ((w.setGlobals (w.globals.rekey op.key d.masterKey)).goto i
      (if path = .get then .ready op path (pathEntry cfg L op (w.globals.masterKeys op.key) d path)
        else .built op path (pathEntry cfg L op (w.globals.masterKeys op.key) d path)))
  | tooLong (op : Operation) (path : Path) : w.calls i = .locked op path →
    ¬ (path ≠ .get → op.value.length ≤ cfg.valueSize) → CallStep cfg L w i d (w.goto i (.threw op))
  | setSize (op : Operation) (path : Path) (entry : Entry) : w.calls i = .built op path entry →
    CallStep cfg L w i d ((w.setGlobals (w.globals.setSize op.key op.value.length)).goto i
      (if path = .create then .sized op path entry else .ready op path entry))
  | insertKey (op : Operation) (path : Path) (entry : Entry) : w.calls i = .sized op path entry →
    CallStep cfg L w i d ((w.setGlobals (w.globals.insertKey op.key)).goto i (.ready op path entry))
  | sendCreate (op : Operation) (entry : Entry) : w.calls i = .ready op .create entry →
    CallStep cfg L w i d ((w.send ⟨i, .create, entry⟩).goto i (.done op .create []))
  | sendAccess (op : Operation) (path : Path) (entry : Entry) : w.calls i = .ready op path entry →
    path ≠ .create → CallStep cfg L w i d ((w.send ⟨i, .access, entry⟩).goto i (.waiting op path))
  | read (op : Operation) (labels value : Bytes) : w.calls i = .replied op .get labels →
    readValueFromLabels cfg L w.globals op.key labels d.uninit = .ok value →
    CallStep cfg L w i d (w.goto i (.done op .get value))
  | readFault (op : Operation) (labels : Bytes) (f : Fault) : w.calls i = .replied op .get labels →
    readValueFromLabels cfg L w.globals op.key labels d.uninit = .error f →
    CallStep cfg L w i d (w.goto i (.threw op))
  | skipRead (op : Operation) (path : Path) (labels : Bytes) : w.calls i = .replied op path labels →
    path ≠ .get → CallStep cfg L w i d (w.goto i (.done op path []))
  | count (op : Operation) (path : Path) (result : Bytes) : w.calls i = .done op path result →
    CallStep cfg L w i d ({ w with accesses := w.accesses + 1 }.goto i (.counted op result))
  | unlock (op : Operation) (result : Bytes) : w.calls i = .counted op result →
    CallStep cfg L w i d
      ((w.setGlobals (w.globals.setLock op.key true)).goto i (.returned op result))

theorem callStep_of_stepCall {w w' : World} {i : ℕ} {d : Draw cfg}
    (h : stepCall cfg L w i d = some w') : CallStep cfg L w i d w' := by
  unfold stepCall at h
  cases hpc : w.calls i with
  | called op =>
    simp only [hpc] at h
    cases hset : w.globals.keySet op.key with
    | true =>
      rw [if_pos hset, Option.some.injEq] at h
      exact h ▸ .test op hpc hset
    | false =>
      rw [if_neg (by rw [hset]; decide)] at h
      cases hget : op.isGet with
      | true =>
        rw [if_pos hget, Option.some.injEq] at h
        exact h ▸ .testMissing op hpc hset hget
      | false =>
        rw [if_neg (by rw [hget]; decide), Option.some.injEq] at h
        exact h ▸ .testNew op hpc hset hget
  | tested op path =>
    simp only [hpc] at h
    by_cases hlock : w.globals.locks op.key = some true
    · rw [if_pos hlock, Option.some.injEq] at h
      exact h ▸ .lock op path hpc hlock
    · rw [if_neg hlock, Option.some.injEq] at h
      exact h ▸ .refuse op path hpc hlock
  | locked op path =>
    simp only [hpc] at h
    cases hc : construct cfg L w.globals op d path with
    | ok r =>
      obtain ⟨hfit, hg, he⟩ := construct_ok hc
      simp only [hc, Option.some.injEq] at h
      rw [← h, hg, he]
      exact .constructed op path hpc hfit
    | error f =>
      simp only [hc, Option.some.injEq] at h
      refine h ▸ .tooLong op path hpc fun hfit => ?_
      rw [construct_of_fits _ _ hfit] at hc
      cases hc
  | built op path entry =>
    simp only [hpc, Option.some.injEq] at h
    exact h ▸ .setSize op path entry hpc
  | sized op path entry =>
    simp only [hpc, Option.some.injEq] at h
    exact h ▸ .insertKey op path entry hpc
  | ready op path entry =>
    simp only [hpc] at h
    by_cases hp : path = .create
    · rw [if_pos hp, Option.some.injEq] at h
      subst hp
      exact h ▸ .sendCreate op entry hpc
    · rw [if_neg hp, Option.some.injEq] at h
      exact h ▸ .sendAccess op path entry hpc hp
  | replied op path labels =>
    simp only [hpc] at h
    by_cases hp : path = .get
    · rw [if_pos hp] at h
      subst hp
      cases hread : readValueFromLabels cfg L w.globals op.key labels d.uninit with
      | ok value =>
        simp only [hread, Option.some.injEq] at h
        exact h ▸ .read op labels value hpc hread
      | error f =>
        simp only [hread, Option.some.injEq] at h
        exact h ▸ .readFault op labels f hpc hread
    · rw [if_neg hp, Option.some.injEq] at h
      exact h ▸ .skipRead op path labels hpc hp
  | done op path result =>
    simp only [hpc, Option.some.injEq] at h
    exact h ▸ .count op path result hpc
  | counted op result =>
    simp only [hpc, Option.some.injEq] at h
    exact h ▸ .unlock op result hpc
  | idle => simp only [hpc] at h; cases h
  | waiting op path => simp only [hpc] at h; cases h
  | returned op result => simp only [hpc] at h; cases h
  | threw op => simp only [hpc] at h; cases h

/-- The steps of the system, action by action. -/
inductive NextStep (cfg : Config) (L : Libsodium) (w : World) : Act cfg → World → Prop
  | call (i : ℕ) (op : Operation) : w.calls i = .idle →
    NextStep cfg L w (.call i op) (w.goto i (.called op))
  | step (i : ℕ) (d : Draw cfg) (w' : World) : CallStep cfg L w i d w' →
    NextStep cfg L w (.step i d) w'
  | failReady (i : ℕ) (op : Operation) (path : Path) (entry : Entry) :
    w.calls i = .ready op path entry → NextStep cfg L w (.fail i) (w.goto i (.threw op))
  | failWaiting (i : ℕ) (op : Operation) (path : Path) : w.calls i = .waiting op path →
    NextStep cfg L w (.fail i) (w.goto i (.threw op))
  | process (n : ℕ) (order : List ℕ) (horder : order.Perm (List.range cfg.serverNumThreads))
    (m : Message) : w.serverUp = true → w.net[n]? = some m →
    NextStep cfg L w (.process n order horder) (serve cfg L w n m order)

theorem nextStep_of_next {w w' : World} {a : Act cfg} (h : next cfg L w a = some w') :
    NextStep cfg L w a w' := by
  cases a with
  | call i op =>
    simp only [next] at h
    split at h
    · rename_i hpc
      rw [Option.some.injEq] at h
      exact h ▸ .call i op hpc
    · cases h
  | step i d => exact .step i d w' (callStep_of_stepCall h)
  | fail i =>
    simp only [next] at h
    split at h
    · rename_i op path entry hpc
      rw [Option.some.injEq] at h
      exact h ▸ .failReady i op path entry hpc
    · rename_i op path hpc
      rw [Option.some.injEq] at h
      exact h ▸ .failWaiting i op path hpc
    · cases h
  | process n order horder =>
    simp only [next] at h
    split at h
    · rename_i hup
      obtain ⟨m, hm, rfl⟩ := Option.map_eq_some_iff.mp h
      exact .process n order horder m hup hm
    · cases h

end Proxy
end Lbl
end Ortoa
