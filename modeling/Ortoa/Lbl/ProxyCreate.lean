/-
# Creating a key once

Whether a PUT goes out as a `create` or as an access is decided by a test of
`keySet` that a call makes before it takes the key's lock; the key is inserted
by another call while that one holds the lock. If every call that found its
key missing still finds it missing when it takes the lock, a key is created
by its first message and only accessed from then on
(`created_once`), whatever fails in between. But nothing repeats the test: two
PUTs of a new key that both find it missing create it twice (`two_creates`).

Key definitions: `sentFor`, `StillMissing`, `CreateInv`.
Key theorems: `CreateInv.move`, `created_once`.
-/
import Ortoa.Lbl.ProxyChain

namespace Ortoa
namespace Lbl
namespace Proxy

variable {cfg : Config} {L : Libsodium}

/-! ### What is sent -/

/-- The methods of the messages for `key` that are sent in a step. -/
def sentFor (key : Bytes) (w : World) : Act cfg → List Method
  | .step i _ =>
    match w.calls i with
    | .ready _ path entry => if entry.keyName = key then [path.method] else []
    | _ => []
  | .call _ _ => []
  | .fail _ => []
  | .process _ _ _ => []

/-- The methods of the messages for `key`, in the order of sending. -/
def methodsSent (cfg : Config) (L : Libsodium) (w : World) (as : List (Act cfg)) (key : Bytes) :
    List Method :=
  collect (next cfg L) (sentFor key) w as

/-- A call that found its key missing and takes the key's lock finds it still missing. -/
def StillMissing (w : World) : Act cfg → Prop
  | .step i _ => ∀ op, w.calls i = .tested op .create → w.globals.locks op.key = some true →
      w.globals.keySet op.key = false
  | .call _ _ => True
  | .fail _ => True
  | .process _ _ _ => True

/-! ### What is known of the calls -/

/-- The operation of a call that is to insert its key. -/
def Pc.creating : Pc → Option Operation
  | .locked op .create => some op
  | .built op .create _ => some op
  | .sized op _ _ => some op
  | _ => none

/-- The operation of a call that has inserted its key and not yet sent the `create`. -/
def Pc.inserted : Pc → Option Operation
  | .ready op .create _ => some op
  | _ => none

/-- The operation of a call that is on its way to an access. -/
def Pc.accessing : Pc → Option Operation
  | .tested op path => if path = .create then none else some op
  | .locked op path => if path = .create then none else some op
  | .built op path _ => if path = .create then none else some op
  | .ready op path _ => if path = .create then none else some op
  | _ => none

/-- An entry names the key of its call, and only a create is before `keySet.insert`. -/
def Pc.WellFormed : Pc → Prop
  | .built op _ entry => entry.keyName = op.key
  | .sized op path entry => entry.keyName = op.key ∧ path = .create
  | .ready op _ entry => entry.keyName = op.key
  | _ => True

/-- A key that is in `keySet` was created by its first message and accessed
by the others, or its `create` is still to be sent, or has failed. -/
structure CreateInv (ms : Bytes → List Method) (w : World) : Prop where
  wellFormed : ∀ i, (w.calls i).WellFormed
  absent : ∀ key, w.globals.keySet key = false → ms key = []
  creating : ∀ i op, (w.calls i).creating = some op → w.globals.keySet op.key = false
  inserted : ∀ i op, (w.calls i).inserted = some op →
    w.globals.keySet op.key = true ∧ ms op.key = []
  accessing : ∀ i op, (w.calls i).accessing = some op → w.globals.keySet op.key = true
  present : ∀ key, w.globals.keySet key = true →
    (∃ n, ms key = .create :: List.replicate n .access) ∨
      (ms key = [] ∧ ∃ i op, ((w.calls i).inserted = some op ∨ w.calls i = .threw op) ∧ op.key = key)

theorem createInv_initial (db : Db) : CreateInv (fun _ => []) (initial cfg none db) where
  wellFormed _ := trivial
  absent _ _ := rfl
  creating _ _ h := by cases h
  inserted _ _ h := by cases h
  accessing _ _ h := by cases h
  present _ h := by cases h

/-- A call that is to insert its key, or has just done so, holds its lock. -/
theorem Pc.holding_of_creating {pc : Pc} {op : Operation}
    (h : pc.creating = some op ∨ pc.inserted = some op) : pc.holding = some op := by
  rcases h with h | h
  · cases pc with
    | locked op' path =>
      cases path with
      | create => exact h
      | get => cases h
      | put => cases h
    | built op' path entry =>
      cases path with
      | create => exact h
      | get => cases h
      | put => cases h
    | sized op' path entry => exact h
    | _ => cases h
  · cases pc with
    | ready op' path entry =>
      cases path with
      | create => exact h
      | get => cases h
      | put => cases h
    | _ => cases h

section Steps

variable {ms : Bytes → List Method} {w w' : World}

/-- A call that goes on without inserting a key or sending a message. -/
theorem CreateInv.move {i : ℕ} {pc pc' : Pc} (h : CreateInv ms w) (hpc : w.calls i = pc)
    (hcalls : w'.calls = Function.update w.calls i pc')
    (hset : w'.globals.keySet = w.globals.keySet) (hwell : pc'.WellFormed)
    (hcreating : ∀ op, pc'.creating = some op → w.globals.keySet op.key = false)
    (hinserted : pc'.inserted = none)
    (haccessing : ∀ op, pc'.accessing = some op → w.globals.keySet op.key = true)
    (hkeep : ∀ op, pc.inserted = some op ∨ pc = .threw op → pc' = .threw op) : CreateInv ms w' := by
  have hself : w'.calls i = pc' := by rw [hcalls, Function.update_self]
  have hother : ∀ j, j ≠ i → w'.calls j = w.calls j := fun j hj => by
    rw [hcalls, Function.update_of_ne hj]
  constructor
  · intro j
    by_cases hj : j = i
    · rw [hj, hself]
      exact hwell
    · rw [hother j hj]
      exact h.wellFormed j
  · intro key hkey
    rw [hset] at hkey
    exact h.absent key hkey
  · intro j op hop
    rw [hset]
    by_cases hj : j = i
    · rw [hj, hself] at hop
      exact hcreating op hop
    · rw [hother j hj] at hop
      exact h.creating j op hop
  · intro j op hop
    rw [hset]
    by_cases hj : j = i
    · rw [hj, hself, hinserted] at hop
      cases hop
    · rw [hother j hj] at hop
      exact h.inserted j op hop
  · intro j op hop
    rw [hset]
    by_cases hj : j = i
    · rw [hj, hself] at hop
      exact haccessing op hop
    · rw [hother j hj] at hop
      exact h.accessing j op hop
  · intro key hkey
    rw [hset] at hkey
    rcases h.present key hkey with hsent | ⟨hnone, j, op, hj, hop⟩
    · exact Or.inl hsent
    · refine Or.inr ⟨hnone, j, op, ?_, hop⟩
      by_cases hji : j = i
      · rw [hji, hpc] at hj
        rw [hji, hself]
        exact Or.inr (hkeep op hj)
      · rw [hother j hji]
        exact hj

/-- The key is inserted: its `create` is the next message for it. -/
theorem CreateInv.insertKey {i : ℕ} {op : Operation} {path : Path} {entry : Entry}
    (h : CreateInv ms w) (hl : LockInv w) (hpc : w.calls i = .sized op path entry) :
    CreateInv ms ((w.setGlobals (w.globals.insertKey op.key)).goto i (.ready op path entry)) := by
  have hi : Holds w i op.key := ⟨op, by rw [hpc]; rfl, rfl⟩
  have hmissing : w.globals.keySet op.key = false := h.creating i op (by rw [hpc]; rfl)
  obtain ⟨hname, hpath⟩ : Pc.WellFormed (.sized op path entry) := hpc ▸ h.wellFormed i
  subst hpath
  constructor
  · intro j
    by_cases hj : j = i
    · rw [hj, goto_calls_self]
      exact hname
    · rw [goto_calls_ne _ _ _ hj]
      exact h.wellFormed j
  · intro key hkey
    change Function.update w.globals.keySet op.key true key = false at hkey
    by_cases hk : key = op.key
    · rw [hk]
      exact h.absent op.key hmissing
    · rw [Function.update_of_ne hk] at hkey
      exact h.absent key hkey
  · intro j op' hop
    change Function.update w.globals.keySet op.key true op'.key = false
    by_cases hj : j = i
    · rw [hj, goto_calls_self] at hop
      cases hop
    · rw [goto_calls_ne _ _ _ hj] at hop
      have hholds : Holds w j op'.key := ⟨op', Pc.holding_of_creating (Or.inl hop), rfl⟩
      -- only one call holds the key
      have hk : op'.key ≠ op.key := fun hk => hj (hl.unique j i op.key (hk ▸ hholds) hi)
      rw [Function.update_of_ne hk]
      exact h.creating j op' hop
  · intro j op' hop
    change Function.update w.globals.keySet op.key true op'.key = true ∧ ms op'.key = []
    by_cases hj : j = i
    · rw [hj, goto_calls_self] at hop
      obtain rfl : op = op' := Option.some.inj hop
      exact ⟨Function.update_self _ _ _, h.absent op.key hmissing⟩
    · rw [goto_calls_ne _ _ _ hj] at hop
      exact ⟨Globals.keySet_insertKey op.key (h.inserted j op' hop).1, (h.inserted j op' hop).2⟩
  · intro j op' hop
    change Function.update w.globals.keySet op.key true op'.key = true
    by_cases hj : j = i
    · rw [hj, goto_calls_self] at hop
      cases hop
    · rw [goto_calls_ne _ _ _ hj] at hop
      exact Globals.keySet_insertKey op.key (h.accessing j op' hop)
  · intro key hkey
    change Function.update w.globals.keySet op.key true key = true at hkey
    by_cases hk : key = op.key
    · rw [hk]
      exact Or.inr ⟨h.absent op.key hmissing, i, op, Or.inl (by rw [goto_calls_self]; rfl), rfl⟩
    · rw [Function.update_of_ne hk] at hkey
      apply (h.present key hkey).imp_right
      rintro ⟨hnone, j, op', hj, hop⟩
      have hji : j ≠ i := by
        rintro rfl
        rw [hpc] at hj
        rcases hj with hj | hj
        · cases hj
        · cases hj
      refine ⟨hnone, j, op', ?_, hop⟩
      rw [goto_calls_ne _ _ _ hji]
      exact hj

/-- A call that is about to send has its key in `keySet`. -/
theorem CreateInv.ready_present {i : ℕ} {op : Operation} {path : Path} {entry : Entry}
    (h : CreateInv ms w) (hpc : w.calls i = .ready op path entry) :
    w.globals.keySet op.key = true := by
  by_cases hp : path = .create
  · exact (h.inserted i op (by rw [hpc, hp]; rfl)).1
  · exact h.accessing i op (by rw [hpc]; simp [Pc.accessing, hp])

/-- With the message it is about to send, its key has one `create`, and that
first. -/
theorem CreateInv.ready_sent {i : ℕ} {op : Operation} {path : Path} {entry : Entry}
    (h : CreateInv ms w) (hl : LockInv w) (hpc : w.calls i = .ready op path entry) :
    ∃ n, ms op.key ++ [path.method] = .create :: List.replicate n .access := by
  have hi : Holds w i op.key := ⟨op, by rw [hpc]; rfl, rfl⟩
  by_cases hp : path = .create
  · rw [(h.inserted i op (by rw [hpc, hp]; rfl)).2, hp]
    exact ⟨0, rfl⟩
  · rcases h.present op.key (h.ready_present hpc) with ⟨n, hn⟩ | ⟨-, j, op', hj, hop⟩
    · refine ⟨n + 1, ?_⟩
      rw [hn, Path.method_of_ne hp, List.replicate_succ', List.cons_append]
    · -- the create has not gone out, or has failed: nobody else is past the lock
      exfalso
      rcases hj with hj | hj
      · have hji : j = i := hl.unique j i op.key
          ⟨op', Pc.holding_of_creating (Or.inr hj), hop⟩ hi
        rw [hji, hpc] at hj
        cases path with
        | create => exact hp rfl
        | get => cases hj
        | put => cases hj
      · exact (hl.dead j op' hj).2 i (hop ▸ hi)

/-- A message is sent: the first one for its key if it is a `create`. -/
theorem CreateInv.send {i : ℕ} {op : Operation} {path : Path} {entry : Entry} {pc' : Pc}
    (h : CreateInv ms w) (hl : LockInv w) (hpc : w.calls i = .ready op path entry)
    (hcalls : w'.calls = Function.update w.calls i pc') (hset : w'.globals.keySet = w.globals.keySet)
    (hquiet : pc'.WellFormed ∧ pc'.creating = none ∧ pc'.inserted = none ∧ pc'.accessing = none) :
    CreateInv (fun key => ms key ++ if entry.keyName = key then [path.method] else []) w' := by
  have hi : Holds w i op.key := ⟨op, by rw [hpc]; rfl, rfl⟩
  have hname : entry.keyName = op.key :=
    (hpc ▸ h.wellFormed i : Pc.WellFormed (.ready op path entry))
  have hself : w'.calls i = pc' := by rw [hcalls, Function.update_self]
  have hother : ∀ j, j ≠ i → w'.calls j = w.calls j := fun j hj => by
    rw [hcalls, Function.update_of_ne hj]
  have hms : ∀ key, key ≠ op.key →
      (ms key ++ if entry.keyName = key then [path.method] else []) = ms key := by
    intro key hk
    rw [hname, if_neg (Ne.symm hk), List.append_nil]
  constructor
  · intro j
    by_cases hj : j = i
    · rw [hj, hself]
      exact hquiet.1
    · rw [hother j hj]
      exact h.wellFormed j
  · intro key hkey
    rw [hset] at hkey
    have hk : key ≠ op.key := fun hk => by
      rw [hk, h.ready_present hpc] at hkey
      cases hkey
    simp only [hms key hk]
    exact h.absent key hkey
  · intro j op' hop
    rw [hset]
    by_cases hj : j = i
    · rw [hj, hself, hquiet.2.1] at hop
      cases hop
    · rw [hother j hj] at hop
      exact h.creating j op' hop
  · intro j op' hop
    rw [hset]
    by_cases hj : j = i
    · rw [hj, hself, hquiet.2.2.1] at hop
      cases hop
    · rw [hother j hj] at hop
      have hk : op'.key ≠ op.key := fun hk => hj (hl.unique j i op.key
        ⟨op', Pc.holding_of_creating (Or.inr hop), hk⟩ hi)
      simp only [hms op'.key hk]
      exact h.inserted j op' hop
  · intro j op' hop
    rw [hset]
    by_cases hj : j = i
    · rw [hj, hself, hquiet.2.2.2] at hop
      cases hop
    · rw [hother j hj] at hop
      exact h.accessing j op' hop
  · intro key hkey
    rw [hset] at hkey
    by_cases hk : key = op.key
    · left
      rw [hk]
      simp only [if_pos hname]
      exact h.ready_sent hl hpc
    · simp only [hms key hk]
      apply (h.present key hkey).imp_right
      rintro ⟨hnone, j, op', hj, hop⟩
      have hji : j ≠ i := by
        rintro rfl
        rw [hpc] at hj
        rcases hj with hj | hj
        · have hheld := Pc.holding_of_creating (Or.inr hj)
          exact hk (by rw [← hop, ← Option.some.inj hheld])
        · cases hj
      refine ⟨hnone, j, op', ?_, hop⟩
      rw [hother j hji]
      exact hj

/-- A call that has neither a key to insert nor a message to send. -/
theorem CreateInv.quiet {i : ℕ} {pc pc' : Pc} (h : CreateInv ms w) (hpc : w.calls i = pc)
    (hcalls : w'.calls = Function.update w.calls i pc')
    (hset : w'.globals.keySet = w.globals.keySet) (hwell : pc'.WellFormed)
    (hnone : pc'.creating = none ∧ pc'.inserted = none ∧ pc'.accessing = none)
    (hkeep : ∀ op, pc.inserted = some op ∨ pc = .threw op → pc' = .threw op) : CreateInv ms w' := by
  apply h.move hpc hcalls hset hwell ?_ hnone.2.1 ?_ hkeep
  · intro op hop
    rw [hnone.1] at hop
    cases hop
  · intro op hop
    rw [hnone.2.2] at hop
    cases hop

/-- A call that goes on on its way. -/
theorem CreateInv.advance {i : ℕ} {pc pc' : Pc} (h : CreateInv ms w) (hpc : w.calls i = pc)
    (hcalls : w'.calls = Function.update w.calls i pc')
    (hset : w'.globals.keySet = w.globals.keySet) (hwell : pc'.WellFormed)
    (hcreating : ∀ op, pc'.creating = some op → pc.creating = some op) (hinserted : pc'.inserted = none)
    (haccessing : ∀ op, pc'.accessing = some op → pc.accessing = some op)
    (hkeep : ∀ op, pc.inserted = some op ∨ pc = .threw op → pc' = .threw op) : CreateInv ms w' := by
  apply h.move hpc hcalls hset hwell ?_ hinserted ?_ hkeep
  · intro op hop
    exact h.creating i op (by rw [hpc]; exact hcreating op hop)
  · intro op hop
    exact h.accessing i op (by rw [hpc]; exact haccessing op hop)

theorem keyName_pathEntry (op : Operation) (mk : Bytes) (d : Draw cfg) (path : Path) :
    (pathEntry cfg L op mk d path).keyName = op.key := by
  cases path with
  | create => rfl
  | get => rfl
  | put => rfl

/-- The statements of `handleOp` keep the invariant, with what they send. -/
theorem CreateInv.callStep {i : ℕ} {d : Draw cfg} (h : CreateInv ms w) (hl : LockInv w)
    (hmissing : StillMissing w (.step i d)) (hs : CallStep cfg L w i d w') :
    CreateInv (fun key => ms key ++ sentFor key w (.step i d)) w' := by
  have hunsent : ∀ {pc}, w.calls i = pc → (∀ op path entry, pc ≠ .ready op path entry) →
      CreateInv ms w' → CreateInv (fun key => ms key ++ sentFor key w (.step i d)) w' := by
    rintro pc rfl hpc hI
    have hnil : ∀ key, sentFor key w (.step i d) = [] := by
      intro key
      rw [sentFor]
      split
      · rename_i op path entry heq
        exact absurd heq (hpc op path entry)
      · rfl
    simpa only [hnil, List.append_nil] using hI
  cases hs with
  | test op hpc hset =>
    refine hunsent hpc (by simp) (h.move hpc rfl rfl trivial (fun _ hop => by cases hop) rfl ?_
      (by simp [Pc.inserted]))
    intro op' hop
    have hne : (if op.isGet then Path.get else Path.put) ≠ .create := by split <;> simp
    rw [Pc.accessing, if_neg hne, Option.some.injEq] at hop
    rw [← hop]
    exact hset
  | testMissing op hpc _ _ =>
    exact hunsent hpc (by simp) (h.quiet hpc rfl rfl trivial ⟨rfl, rfl, rfl⟩ (by simp [Pc.inserted]))
  | testNew op hpc _ _ =>
    exact hunsent hpc (by simp) (h.quiet hpc rfl rfl trivial ⟨rfl, rfl, rfl⟩ (by simp [Pc.inserted]))
  | lock op path hpc hlock =>
    refine hunsent hpc (by simp) (h.move hpc rfl rfl trivial ?_ rfl ?_ (by simp [Pc.inserted]))
    · intro op' hop
      cases path with
      | create =>
        obtain rfl : op = op' := Option.some.inj hop
        exact hmissing op hpc hlock
      | get => cases hop
      | put => cases hop
    · intro op' hop
      exact h.accessing i op' (by rw [hpc]; exact hop)
  | refuse op path hpc _ =>
    exact hunsent hpc (by simp) (h.quiet hpc rfl rfl trivial ⟨rfl, rfl, rfl⟩ (by simp [Pc.inserted]))
  | constructed op path hpc _ =>
    have hname := keyName_pathEntry (L := L) op (w.globals.masterKeys op.key) d path
    cases path with
    | create =>
      exact hunsent hpc (by simp) (h.advance hpc rfl rfl hname (fun _ hop => hop) rfl
        (fun _ hop => hop) (by simp [Pc.inserted]))
    | get =>
      exact hunsent hpc (by simp) (h.advance hpc rfl rfl hname (fun _ hop => hop) rfl
        (fun _ hop => hop) (by simp [Pc.inserted]))
    | put =>
      exact hunsent hpc (by simp) (h.advance hpc rfl rfl hname (fun _ hop => hop) rfl
        (fun _ hop => hop) (by simp [Pc.inserted]))
  | tooLong op path hpc _ =>
    exact hunsent hpc (by simp) (h.quiet hpc rfl rfl trivial ⟨rfl, rfl, rfl⟩ (by simp [Pc.inserted]))
  | setSize op path entry hpc =>
    have hname : entry.keyName = op.key :=
      (hpc ▸ h.wellFormed i : Pc.WellFormed (.built op path entry))
    cases path with
    | create =>
      exact hunsent hpc (by simp) (h.advance hpc rfl rfl ⟨hname, rfl⟩ (fun _ hop => hop) rfl
        (fun _ hop => hop) (by simp [Pc.inserted]))
    | get =>
      exact hunsent hpc (by simp) (h.advance hpc rfl rfl hname (fun _ hop => hop) rfl
        (fun _ hop => hop) (by simp [Pc.inserted]))
    | put =>
      exact hunsent hpc (by simp) (h.advance hpc rfl rfl hname (fun _ hop => hop) rfl
        (fun _ hop => hop) (by simp [Pc.inserted]))
  | insertKey op path entry hpc => exact hunsent hpc (by simp) (h.insertKey hl hpc)
  | sendCreate op entry hpc =>
    have hsent : ∀ key, sentFor key w (.step i d : Act cfg) =
        if entry.keyName = key then [Path.create.method] else [] := fun key => by rw [sentFor, hpc]
    simp only [hsent]
    exact h.send hl hpc rfl rfl ⟨trivial, rfl, rfl, rfl⟩
  | sendAccess op path entry hpc _ =>
    have hsent : ∀ key, sentFor key w (.step i d : Act cfg) =
        if entry.keyName = key then [path.method] else [] := fun key => by rw [sentFor, hpc]
    simp only [hsent]
    exact h.send hl hpc rfl rfl ⟨trivial, rfl, rfl, rfl⟩
  | read op labels value hpc _ =>
    exact hunsent hpc (by simp) (h.quiet hpc rfl rfl trivial ⟨rfl, rfl, rfl⟩ (by simp [Pc.inserted]))
  | readFault op labels f hpc _ =>
    exact hunsent hpc (by simp) (h.quiet hpc rfl rfl trivial ⟨rfl, rfl, rfl⟩ (by simp [Pc.inserted]))
  | skipRead op path labels hpc _ =>
    exact hunsent hpc (by simp) (h.quiet hpc rfl rfl trivial ⟨rfl, rfl, rfl⟩ (by simp [Pc.inserted]))
  | count op path result hpc =>
    exact hunsent hpc (by simp) (h.quiet hpc rfl rfl trivial ⟨rfl, rfl, rfl⟩ (by simp [Pc.inserted]))
  | unlock op result hpc =>
    exact hunsent hpc (by simp) (h.quiet hpc rfl rfl trivial ⟨rfl, rfl, rfl⟩ (by simp [Pc.inserted]))

/-- Every step keeps the invariant, a failure too. -/
theorem CreateInv.step {a : Act cfg} (h : CreateInv ms w) (hl : LockInv w) (hmissing : StillMissing w a)
    (ha : next cfg L w a = some w') : CreateInv (fun key => ms key ++ sentFor key w a) w' := by
  cases nextStep_of_next ha with
  | call i op hpc =>
    simp only [sentFor, List.append_nil]
    exact h.quiet hpc rfl rfl trivial ⟨rfl, rfl, rfl⟩ (by simp [Pc.inserted])
  | step i d _ hstep => exact h.callStep hl hmissing hstep
  | failReady i op path entry hpc =>
    simp only [sentFor, List.append_nil]
    refine h.quiet hpc rfl rfl trivial ⟨rfl, rfl, rfl⟩ fun op' hop => ?_
    rcases hop with hop | hop
    · have hheld := Pc.holding_of_creating (Or.inr hop)
      rw [← Option.some.inj hheld]
    · cases hop
  | failWaiting i op path hpc =>
    simp only [sentFor, List.append_nil]
    exact h.quiet hpc rfl rfl trivial ⟨rfl, rfl, rfl⟩ (by simp [Pc.inserted])
  | process n order horder m =>
    simp only [sentFor, List.append_nil]
    obtain ⟨hg, hcalls | ⟨op, path, labels, hpc, hcalls⟩⟩ := @serve_globals cfg L w n m order
    · constructor
      · intro i; rw [hcalls]; exact h.wellFormed i
      · rw [hg]; exact h.absent
      · rw [hg, hcalls]; exact h.creating
      · rw [hg, hcalls]; exact h.inserted
      · rw [hg, hcalls]; exact h.accessing
      · rw [hg, hcalls]; exact h.present
    · exact h.quiet hpc hcalls (by rw [hg]) trivial ⟨rfl, rfl, rfl⟩ (by simp [Pc.inserted])

end Steps

/-! ### Runs -/

/-- In every run from an empty proxy in which each call that found its key
missing still finds it missing when it takes the lock, the first message for
a key is its only `create`, and all others are accesses. -/
theorem created_once (cfg : Config) (L : Libsodium) (db : Db) {as : List (Act cfg)} {w : World}
    (hrun : run (next cfg L) (initial cfg none db) as = some w)
    (hmissing : Along (next cfg L) StillMissing (initial cfg none db) as) (key : Bytes) :
    methodsSent cfg L (initial cfg none db) as key = [] ∨
      ∃ n, methodsSent cfg L (initial cfg none db) as key = .create :: List.replicate n .access := by
  have hI : CreateInv (methodsSent cfg L (initial cfg none db) as) w := by
    apply run_inv (next cfg L) (fun as w => CreateInv (methodsSent cfg L (initial cfg none db) as) w)
      (createInv_initial db) ?_ hmissing hrun
    intro as w a w' hrun1 hI hstill ha
    have hsent : methodsSent cfg L (initial cfg none db) (as ++ [a]) =
        fun key => methodsSent cfg L (initial cfg none db) as key ++ sentFor key w a :=
      funext fun key => collect_concat (next cfg L) (sentFor key) hrun1 ha
    rw [hsent]
    exact hI.step (lockInv_run hrun1) hstill ha
  cases hset : w.globals.keySet key with
  | false => exact Or.inl (hI.absent key hset)
  | true => exact (hI.present key hset).symm.imp_left And.left

section Example

theorem stillMissing_of_ne {w : World} {i : ℕ} {pc : Pc} (d : Draw cfg) (hpc : w.calls i = pc)
    (hne : ∀ op, pc ≠ .tested op .create) : StillMissing w (.step i d : Act cfg) := by
  intro op hop
  rw [hpc] at hop
  exact absurd hop (hne op)

/-- The rest of a PUT that nobody disturbs meets the condition. -/
theorem along_create_late {w : World} {i : ℕ} {op : Operation} (d : Draw cfg)
    (hpc : w.calls i = .tested op .create) (hset : w.globals.keySet op.key = false)
    (hlock : w.globals.locks op.key = some true) (hfits : op.value.length ≤ cfg.valueSize) :
    Along (next cfg L) StillMissing w (List.replicate 5 (.step i d)) := by
  have hc : ∀ g, construct cfg L g op d .create =
      .ok (g.rekey op.key d.masterKey, createEntry cfg L op.key op.value d) :=
    fun g => construct_of_fits g d fun _ => hfits
  have hfirst : StillMissing w (.step i d : Act cfg) := by
    intro op' hop' _
    rw [hpc] at hop'
    rw [← (Pc.tested.inj hop').1]
    exact hset
  simp only [List.replicate, Along, next, stepCall, hpc, hlock, hc, hfirst, goto_calls_self,
    goto_goto, setGlobals_goto, send_goto, goto_globals, Option.some.injEq, forall_eq', if_true,
    true_and, if_false, reduceCtorEq]
  exact ⟨stillMissing_of_ne d (goto_calls_self _ _ _) (by simp),
    stillMissing_of_ne d (goto_calls_self _ _ _) (by simp),
    stillMissing_of_ne d (goto_calls_self _ _ _) (by simp),
    stillMissing_of_ne d (goto_calls_self _ _ _) (by simp), trivial⟩

/-- A PUT of a new key by a single call. -/
theorem created_once_put : methodsSent constants Libsodium.plain (initial constants none fun _ => none)
      ([.call 0 firstPut, .step 0 (drawOf _ 1)] ++ List.replicate 5 (.step 0 (drawOf _ 1)))
        firstPut.key = [] ∨
    ∃ n, methodsSent constants Libsodium.plain (initial constants none fun _ => none)
      ([.call 0 firstPut, .step 0 (drawOf _ 1)] ++ List.replicate 5 (.step 0 (drawOf _ 1)))
        firstPut.key = .create :: List.replicate n .access := by
  have hfree : (initial constants none fun _ => none).globals.locks firstPut.key = some true := by
    rw [initial_locks]
    exact setupLocks_eq_true_iff.mpr ⟨0, by decide, by decide⟩
  have htest := @run_test_missing constants Libsodium.plain (initial constants none fun _ => none) 0
    firstPut (drawOf constants 1) rfl rfl (by decide)
  have hlate := @run_create_late constants Libsodium.plain
    ((initial constants none fun _ => none).goto 0 (.tested firstPut .create)) 0 firstPut
    (drawOf constants 1) (goto_calls_self _ _ _) hfree constants.valueSize_pos
  refine created_once constants Libsodium.plain (fun _ => none)
    (by rw [run_append, htest, Option.bind_some]; exact hlate) ?_ firstPut.key
  rw [along_append]
  refine ⟨⟨trivial, fun w hw => ⟨?_, fun _ _ => trivial⟩⟩, fun w hw => ?_⟩
  · have hcalled : w = (initial constants none fun _ => none).goto 0 (.called firstPut) :=
      (Option.some.inj hw).symm
    subst hcalled
    exact stillMissing_of_ne _ (goto_calls_self _ _ _) (by simp)
  · rw [htest, Option.some.injEq] at hw
    subst hw
    exact along_create_late _ (goto_calls_self _ _ _) rfl hfree constants.valueSize_pos

/-- Two PUTs of a new key that both find it missing before one of them inserts it. -/
def twoPuts : List (Act constants) :=
  [.call 0 firstPut, .step 0 (drawOf _ 1)] ++
    (.call 1 firstPut :: List.replicate 8 (.step 1 (drawOf _ 2))) ++
    List.replicate 5 (.step 0 (drawOf _ 1))

/-- Both send a `create` for the key. -/
theorem two_creates : (∀ a ∈ twoPuts, ∀ i, a ≠ .fail i) ∧
    ∃ w m n, run (next constants Libsodium.plain) (initial constants none fun _ => none) twoPuts =
        some w ∧ w.net = [m, n] ∧ m.method = .create ∧ n.method = .create ∧
      m.entry.keyName = firstPut.key ∧ n.entry.keyName = firstPut.key := by
  have hfree : (initial constants none fun _ => none).globals.locks firstPut.key = some true := by
    rw [initial_locks]
    exact setupLocks_eq_true_iff.mpr ⟨0, by decide, by decide⟩
  have htest := @run_test_missing constants Libsodium.plain (initial constants none fun _ => none) 0
    firstPut (drawOf constants 1) rfl rfl (by decide)
  have hother : ((initial constants none fun _ => none).goto 0 (.tested firstPut .create)).calls 1 =
      .idle := goto_calls_ne _ _ _ (by decide)
  have hfirst := @run_create constants Libsodium.plain
    ((initial constants none fun _ => none).goto 0 (.tested firstPut .create)) 1 firstPut
    (drawOf constants 2) hother rfl (by decide) hfree constants.valueSize_pos
  constructor
  · intro a ha i
    simp only [twoPuts, List.mem_append, List.mem_cons, List.not_mem_nil, or_false] at ha
    rcases ha with ((rfl | rfl) | rfl | ha) | ha
    · simp
    · simp
    · simp
    · rw [List.eq_of_mem_replicate ha]
      simp
    · rw [List.eq_of_mem_replicate ha]
      simp
  · obtain ⟨w1, hrun1, hpc1, hlock1, m, hnet1, hcreate, hname⟩ : ∃ w1,
        run (next constants Libsodium.plain)
          ((initial constants none fun _ => none).goto 0 (.tested firstPut .create))
          (.call 1 firstPut :: List.replicate 8 (.step 1 (drawOf _ 2))) = some w1 ∧
        w1.calls 0 = .tested firstPut .create ∧ w1.globals.locks firstPut.key = some true ∧
        ∃ m, w1.net = [m] ∧ m.method = .create ∧ m.entry.keyName = firstPut.key :=
      ⟨_, hfirst, (goto_calls_ne _ _ _ (by decide)).trans
          (goto_calls_self (initial constants none fun _ => none) 0 (.tested firstPut .create)),
        by simp [Globals.setLock], _, rfl, rfl, rfl⟩
    have hlate := run_create_late (L := Libsodium.plain) (drawOf constants 1) hpc1 hlock1
      constants.valueSize_pos
    have hrun : run (next constants Libsodium.plain) (initial constants none fun _ => none) twoPuts =
        run (next constants Libsodium.plain) w1 (List.replicate 5 (.step 0 (drawOf _ 1))) := by
      rw [twoPuts, run_append, run_append, htest, Option.bind_some, hrun1, Option.bind_some]
    refine ⟨_, m, ⟨0, .create, createEntry constants Libsodium.plain firstPut.key firstPut.value
      (drawOf constants 1)⟩, hrun.trans hlate, ?_, hcreate, rfl, hname, rfl⟩
    rw [goto_net, hnet1]
    rfl

end Example

end Proxy
end Lbl
end Ortoa
