/-
# The proxy's locks

`locks[key]` is true while the key is free. A call that finds it true has
taken the lock, alone (`LockInv`), and gives it back with `exchange(true)`;
that is the last statement of every path, and the only place where a lock
becomes true again. So a call that ends in an exception, which happens only
while it holds the lock, leaves the key locked for good
(`failed_call_never_intact`); and a key that `OpScureSetup` has not put in
the table, whose entry `operator[]` makes false, is never free at all
(`aborted_iff_contention`).

Key definitions: `Holds`, `LockStep`, `LockInv`, `IntactAt`.
Key theorems: `lockStep_of_next`, `lockInv_run`, `failed_call_never_intact`,
`aborted_iff_contention`.
-/
import Ortoa.Lbl.ProxyAlone

namespace Ortoa
namespace Lbl
namespace Proxy

variable {cfg : Config} {L : Libsodium}

/-- Call `i` is between a successful `locks[key].exchange(false)` and its
`locks[key].exchange(true)`. -/
def Holds (w : World) (i : ℕ) (key : Bytes) : Prop :=
  ∃ op, (w.calls i).holding = some op ∧ op.key = key

/-- What a step does to locks and to their holders. -/
inductive LockStep (a : Act cfg) (w w' : World) : Prop
  | quiet : (∀ j, (w'.calls j).holding = (w.calls j).holding) →
    (∀ j op, w'.calls j = .threw op ↔ w.calls j = .threw op) →
    w'.globals.locks = w.globals.locks → LockStep a w w'
  | take (i : ℕ) (d : Draw cfg) (op : Operation) (path : Path) : a = .step i d →
    w.calls i = .tested op path →
    w.globals.locks op.key = some true → w'.calls = Function.update w.calls i (.locked op path) →
    w'.globals.locks = Function.update w.globals.locks op.key (some false) → LockStep a w w'
  | refuse (i : ℕ) (op : Operation) (path : Path) : w.calls i = .tested op path →
    w.globals.locks op.key ≠ some true → w'.calls = Function.update w.calls i (.returned op []) →
    w'.globals.locks = Function.update w.globals.locks op.key (some false) → LockStep a w w'
  | release (i : ℕ) (op : Operation) (result : Bytes) : w.calls i = .counted op result →
    w'.calls = Function.update w.calls i (.returned op result) →
    w'.globals.locks = Function.update w.globals.locks op.key (some true) → LockStep a w w'
  | throw (i : ℕ) (op : Operation) : (w.calls i).holding = some op →
    w'.calls = Function.update w.calls i (.threw op) → w'.globals.locks = w.globals.locks →
    LockStep a w w'

/-- A call that goes on without touching a lock. -/
theorem LockStep.quiet_goto {a : Act cfg} {w w' : World} {i : ℕ} {pc pc' : Pc}
    (hpc : w.calls i = pc) (hcalls : w'.calls = Function.update w.calls i pc')
    (hhold : pc'.holding = pc.holding) (hthrew : ∀ op, pc' = .threw op ↔ pc = .threw op)
    (hlocks : w'.globals.locks = w.globals.locks) : LockStep a w w' := by
  refine .quiet (fun j => ?_) (fun j op => ?_) hlocks
  · rw [hcalls]
    by_cases hj : j = i
    · rw [hj, Function.update_self, hhold, hpc]
    · rw [Function.update_of_ne hj]
  · rw [hcalls]
    by_cases hj : j = i
    · rw [hj, Function.update_self, hpc, hthrew]
    · rw [Function.update_of_ne hj]

theorem lockStep_of_callStep {w w' : World} {i : ℕ} {d : Draw cfg} (h : CallStep cfg L w i d w') :
    LockStep (.step i d) w w' := by
  cases h with
  | test op hpc => exact .quiet_goto hpc rfl rfl (by simp) rfl
  | testMissing op hpc => exact .quiet_goto hpc rfl rfl (by simp) rfl
  | testNew op hpc => exact .quiet_goto hpc rfl rfl (by simp) rfl
  | lock op path hpc hlock => exact .take i d op path rfl hpc hlock rfl rfl
  | refuse op path hpc hlock => exact .refuse i op path hpc hlock rfl rfl
  | constructed op path hpc =>
    refine .quiet_goto hpc rfl ?_ ?_ rfl
    · split <;> rfl
    · intro op'; split <;> simp
  | tooLong op path hpc => exact .throw i op (by rw [hpc]; rfl) rfl rfl
  | setSize op path entry hpc =>
    refine .quiet_goto hpc rfl ?_ ?_ rfl
    · split <;> rfl
    · intro op'; split <;> simp
  | insertKey op path entry hpc => exact .quiet_goto hpc rfl rfl (by simp) rfl
  | sendCreate op entry hpc => exact .quiet_goto hpc rfl rfl (by simp) rfl
  | sendAccess op path entry hpc => exact .quiet_goto hpc rfl rfl (by simp) rfl
  | read op labels value hpc => exact .quiet_goto hpc rfl rfl (by simp) rfl
  | readFault op labels f hpc => exact .throw i op (by rw [hpc]; rfl) rfl rfl
  | skipRead op path labels hpc => exact .quiet_goto hpc rfl rfl (by simp) rfl
  | count op path result hpc => exact .quiet_goto hpc rfl rfl (by simp) rfl
  | unlock op result hpc => exact .release i op result hpc rfl rfl

/-- The reply changes where its call is, and nothing else. -/
theorem reply_cases (w : World) (i : ℕ) (labels : Bytes) :
    w.reply i labels = w ∨ ∃ op path, w.calls i = .waiting op path ∧
      w.reply i labels = w.goto i (.replied op path labels) := by
  unfold World.reply
  cases h : w.calls i with
  | waiting op path => exact Or.inr ⟨op, path, rfl, rfl⟩
  | _ => exact Or.inl rfl

theorem lockStep_of_serve (a : Act cfg) (w : World) (n : ℕ) (m : Message) (order : List ℕ) :
    LockStep a w (serve cfg L w n m order) := by
  have hsame : ∀ w' : World, w'.calls = w.calls → w'.globals = w.globals → LockStep a w w' :=
    fun w' hc hg => .quiet (fun j => by rw [hc]) (fun j op => by rw [hc]) (by rw [hg])
  unfold serve
  split
  · exact hsame _ rfl rfl
  · split
    · rename_i labels db _
      rcases reply_cases { w with net := w.net.eraseIdx n, db := db } m.call labels with
        h | ⟨op, path, hpc, h⟩
      · rw [h]
        exact hsame _ rfl rfl
      · rw [h]
        exact .quiet_goto (i := m.call) hpc rfl rfl (by simp) rfl
    · exact hsame _ rfl rfl

theorem lockStep_of_next {w w' : World} {a : Act cfg} (h : next cfg L w a = some w') :
    LockStep a w w' := by
  cases nextStep_of_next h with
  | call i op hpc => exact .quiet_goto hpc rfl rfl (by simp) rfl
  | step i d _ hstep => exact lockStep_of_callStep hstep
  | failReady i op path entry hpc => exact .throw i op (by rw [hpc]; rfl) rfl rfl
  | failWaiting i op path hpc => exact .throw i op (by rw [hpc]; rfl) rfl rfl
  | process n order horder m => exact lockStep_of_serve _ w n m order

/-! ### One holder at a time -/

theorem holds_quiet {w w' : World} (h : ∀ j, (w'.calls j).holding = (w.calls j).holding) (i : ℕ)
    (key : Bytes) : Holds w' i key ↔ Holds w i key := by
  unfold Holds
  rw [h i]

/-- When one call moves, the others hold what they held. -/
theorem holds_update {w w' : World} {i : ℕ} {pc : Pc}
    (hcalls : w'.calls = Function.update w.calls i pc) {j : ℕ} {key : Bytes} :
    Holds w' j key ↔
      (j = i ∧ ∃ op, pc.holding = some op ∧ op.key = key) ∨ (j ≠ i ∧ Holds w j key) := by
  unfold Holds
  rw [hcalls]
  by_cases hj : j = i
  · rw [hj, Function.update_self]
    simp
  · rw [Function.update_of_ne hj]
    simp [hj]

/-- A call that moves to where it holds nothing takes nothing from the others. -/
theorem holds_drop {w w' : World} {i : ℕ} {pc : Pc}
    (hcalls : w'.calls = Function.update w.calls i pc) (hpc : pc.holding = none) {j : ℕ} {key : Bytes}
    (hj : Holds w' j key) : j ≠ i ∧ Holds w j key := by
  rcases (holds_update hcalls).mp hj with ⟨-, op, hop, -⟩ | hold
  · rw [hpc] at hop
    cases hop
  · exact hold

/-- A call that moves without throwing is not among those that have thrown. -/
theorem threw_of_update {w w' : World} {i : ℕ} {pc : Pc}
    (hcalls : w'.calls = Function.update w.calls i pc) (hpc : ∀ op, pc ≠ .threw op) {j : ℕ}
    {op : Operation} (hj : w'.calls j = .threw op) : w.calls j = .threw op := by
  rw [hcalls] at hj
  have hji : j ≠ i := by
    rintro rfl
    rw [Function.update_self] at hj
    exact hpc op hj
  rwa [Function.update_of_ne hji] at hj

theorem holds_ne {w : World} {i j : ℕ} {key : Bytes} (hi : ¬ Holds w i key) (hj : Holds w j key) :
    j ≠ i := fun h => hi (h ▸ hj)

/-- A held lock is false and has one holder; where a call has thrown the lock
is false and nobody holds it. -/
structure LockInv (w : World) : Prop where
  held : ∀ i key, Holds w i key → w.globals.locks key = some false
  unique : ∀ i j key, Holds w i key → Holds w j key → i = j
  dead : ∀ i op, w.calls i = .threw op →
    w.globals.locks op.key = some false ∧ ∀ j, ¬ Holds w j op.key

theorem LockInv.free {w : World} (h : LockInv w) {key : Bytes}
    (hfree : w.globals.locks key = some true) (i : ℕ) : ¬ Holds w i key := fun hi => by
  have := h.held i key hi
  rw [hfree] at this
  cases this

theorem lockInv_initial (file : Option Saved) (db : Db) : LockInv (initial cfg file db) where
  held _ _ h := by obtain ⟨op, h, -⟩ := h; cases h
  unique _ _ _ h := by obtain ⟨op, h, -⟩ := h; cases h
  dead _ _ h := by cases h

theorem LockInv.step {a : Act cfg} {w w' : World} (h : LockInv w) (hs : LockStep a w w') :
    LockInv w' := by
  cases hs with
  | quiet hhold hthrew hlocks =>
    constructor
    · intro i key hi
      rw [hlocks]
      exact h.held i key ((holds_quiet hhold i key).mp hi)
    · intro i j key hi hj
      exact h.unique i j key ((holds_quiet hhold i key).mp hi) ((holds_quiet hhold j key).mp hj)
    · intro i op hi
      obtain ⟨hlock, hno⟩ := h.dead i op ((hthrew i op).mp hi)
      rw [hlocks]
      exact ⟨hlock, fun j hj => hno j ((holds_quiet hhold j _).mp hj)⟩
  | take i d op path _ hpc hfree hcalls hlocks =>
    have hhold : ∀ j key, Holds w' j key ↔ (j = i ∧ op.key = key) ∨ (j ≠ i ∧ Holds w j key) :=
      fun j key => by rw [holds_update hcalls]; simp [Pc.holding]
    constructor
    · intro j key hj
      rw [hlocks]
      by_cases hk : key = op.key
      · rw [hk, Function.update_self]
      · rw [Function.update_of_ne hk]
        rcases (hhold j key).mp hj with ⟨-, h1⟩ | ⟨-, h1⟩
        · exact absurd h1.symm hk
        · exact h.held j key h1
    · intro j k key hj hk
      rcases (hhold j key).mp hj with ⟨h1, rfl⟩ | ⟨h1, h2⟩ <;>
        rcases (hhold k _).mp hk with ⟨h3, h4⟩ | ⟨h3, h4⟩
      · rw [h1, h3]
      · exact absurd h4 (h.free hfree k)
      · exact absurd (h4 ▸ h2) (h.free hfree j)
      · exact h.unique j k key h2 h4
    · intro j op' hj
      obtain ⟨hlock, hno⟩ := h.dead j op' (threw_of_update hcalls (by simp) hj)
      have hk : op'.key ≠ op.key := fun hk => by rw [hk, hfree] at hlock; cases hlock
      rw [hlocks, Function.update_of_ne hk]
      refine ⟨hlock, fun k hk' => ?_⟩
      rcases (hhold k _).mp hk' with ⟨-, h1⟩ | ⟨-, h1⟩
      · exact hk h1.symm
      · exact hno k h1
  | refuse i op path hpc hfree hcalls hlocks =>
    have hhold : ∀ j key, Holds w' j key → Holds w j key :=
      fun j key hj => (holds_drop hcalls rfl hj).2
    have hfalse : ∀ key, w.globals.locks key = some false → w'.globals.locks key = some false := by
      intro key hkey
      rw [hlocks, Function.update_apply]
      split
      · rfl
      · exact hkey
    constructor
    · exact fun j key hj => hfalse key (h.held j key (hhold j key hj))
    · exact fun j k key hj hk => h.unique j k key (hhold j key hj) (hhold k key hk)
    · intro j op' hj
      obtain ⟨hlock, hno⟩ := h.dead j op' (threw_of_update hcalls (by simp) hj)
      exact ⟨hfalse _ hlock, fun k hk => hno k (hhold k _ hk)⟩
  | release i op result hpc hcalls hlocks =>
    have hi : Holds w i op.key := ⟨op, by rw [hpc]; rfl, rfl⟩
    have hhold : ∀ j key, Holds w' j key → j ≠ i ∧ Holds w j key :=
      fun j key hj => holds_drop hcalls rfl hj
    constructor
    · intro j key hj
      obtain ⟨hji, hj⟩ := hhold j key hj
      have hk : key ≠ op.key := fun hk => hji (h.unique j i key hj (hk ▸ hi))
      rw [hlocks, Function.update_of_ne hk]
      exact h.held j key hj
    · exact fun j k key hj hk => h.unique j k key (hhold j key hj).2 (hhold k key hk).2
    · intro j op' hj
      obtain ⟨hlock, hno⟩ := h.dead j op' (threw_of_update hcalls (by simp) hj)
      have hk : op'.key ≠ op.key := fun hk => hno i (hk ▸ hi)
      rw [hlocks, Function.update_of_ne hk]
      exact ⟨hlock, fun k hk' => hno k (hhold k _ hk').2⟩
  | throw i op hop hcalls hlocks =>
    have hi : Holds w i op.key := ⟨op, hop, rfl⟩
    have hhold : ∀ j key, Holds w' j key → j ≠ i ∧ Holds w j key :=
      fun j key hj => holds_drop hcalls rfl hj
    constructor
    · intro j key hj
      rw [hlocks]
      exact h.held j key (hhold j key hj).2
    · exact fun j k key hj hk => h.unique j k key (hhold j key hj).2 (hhold k key hk).2
    · intro j op' hj
      rw [hlocks]
      by_cases hji : j = i
      · rw [hji, hcalls, Function.update_self, Pc.threw.injEq] at hj
        subst hj
        exact ⟨h.held i _ hi, fun k hk => (hhold k _ hk).1 (h.unique k i _ (hhold k _ hk).2 hi)⟩
      · rw [hcalls, Function.update_of_ne hji] at hj
        exact ⟨(h.dead j op' hj).1, fun k hk => (h.dead j op' hj).2 k (hhold k _ hk).2⟩

theorem lockInv_run {file : Option Saved} {db : Db} {as : List (Act cfg)} {w : World}
    (h : run (next cfg L) (initial cfg file db) as = some w) : LockInv w :=
  run_keeps (next cfg L) LockInv (lockInv_initial file db)
    (fun _ _ _ hI ha => hI.step (lockStep_of_next ha)) h

/-! ### Calls that fail -/

/-- What a call that fails must leave as it was, for one key. -/
structure IntactAt (key : Bytes) (g g' : Globals) : Prop where
  keySet : g'.keySet key = g.keySet key
  masterKeys : g'.masterKeys key = g.masterKeys key
  valueSizes : g'.valueSizes key = g.valueSizes key
  locks : g'.locks key = g.locks key

/-- In the run `as` call `i` has taken the lock: just before, in `w0`, it was
free, and the call had not yet written anything. -/
def TookLock (cfg : Config) (L : Libsodium) (w : World) (as : List (Act cfg)) (i : ℕ)
    (op : Operation) (w0 : World) : Prop :=
  ∃ pre d post path, as = pre ++ .step i d :: post ∧ run (next cfg L) w pre = some w0 ∧
    w0.calls i = .tested op path ∧ w0.globals.locks op.key = some true

theorem TookLock.concat {w w0 : World} {as : List (Act cfg)} {i : ℕ} {op : Operation} (a : Act cfg)
    (h : TookLock cfg L w as i op w0) : TookLock cfg L w (as ++ [a]) i op w0 := by
  obtain ⟨pre, d, post, path, rfl, hrest⟩ := h
  exact ⟨pre, d, post ++ [a], path, by simp, hrest⟩

/-- A call that holds its lock, or has thrown, has taken the lock before. -/
theorem tookLock_of_run {file : Option Saved} {db : Db} {as : List (Act cfg)} {w : World}
    (h : run (next cfg L) (initial cfg file db) as = some w) {i : ℕ} {op : Operation}
    (hi : (w.calls i).holding = some op ∨ w.calls i = .threw op) :
    ∃ w0, TookLock cfg L (initial cfg file db) as i op w0 := by
  refine run_inv (next cfg L) (fun as w => ∀ i op,
    (w.calls i).holding = some op ∨ w.calls i = .threw op →
      ∃ w0, TookLock cfg L (initial cfg file db) as i op w0) ?_ ?_
    (along_of_forall (next cfg L) _ (fun _ _ => trivial) : Along _ (fun _ _ => True) _ _) h i op hi
  · rintro i op (h | h) <;> cases h
  · intro as w a w' hrun hI _ ha i op hi
    have hold : (w.calls i).holding = some op ∨ w.calls i = .threw op →
        ∃ w0, TookLock cfg L (initial cfg file db) (as ++ [a]) i op w0 :=
      fun h => (hI i op h).imp fun _ h => h.concat a
    have hother : ∀ {j pc}, w'.calls = Function.update w.calls j pc → i ≠ j →
        ∃ w0, TookLock cfg L (initial cfg file db) (as ++ [a]) i op w0 := by
      intro j pc hcalls hij
      rw [hcalls, Function.update_of_ne hij] at hi
      exact hold hi
    cases lockStep_of_next ha with
    | quiet hhold hthrew _ =>
      exact hold (hi.imp (fun h => (hhold i).symm.trans h) (hthrew i op).mp)
    | take j d op' path hact hpc hfree hcalls _ =>
      by_cases hij : i = j
      · subst hij
        rw [hcalls, Function.update_self] at hi
        have hop : op' = op := hi.elim (fun h => Option.some.inj h) fun h => by cases h
        subst hop
        exact ⟨w, as, d, [], path, by rw [hact], hrun, hpc, hfree⟩
      · exact hother hcalls hij
    | refuse j op' path _ _ hcalls _ =>
      by_cases hij : i = j
      · subst hij
        rw [hcalls, Function.update_self] at hi
        rcases hi with hi | hi <;> cases hi
      · exact hother hcalls hij
    | release j op' result _ hcalls _ =>
      by_cases hij : i = j
      · subst hij
        rw [hcalls, Function.update_self] at hi
        rcases hi with hi | hi <;> cases hi
      · exact hother hcalls hij
    | throw j op' hop hcalls _ =>
      by_cases hij : i = j
      · subst hij
        rw [hcalls, Function.update_self] at hi
        have heq : op' = op := hi.elim (fun h => by cases h) fun h => Pc.threw.inj h
        exact hold (Or.inl (heq ▸ hop))
      · exact hother hcalls hij

/-- A call that has thrown stays where it is. -/
theorem threw_step {a : Act cfg} {w w' : World} (h : LockStep a w w') {i : ℕ} {op : Operation}
    (hi : w.calls i = .threw op) : w'.calls i = .threw op := by
  have hne : ∀ {j pc}, w.calls j = pc → (∀ op, pc ≠ .threw op) → i ≠ j := by
    rintro j pc hj hpc rfl
    exact hpc op (hj.symm.trans hi)
  cases h with
  | quiet _ hthrew _ => exact (hthrew i op).mpr hi
  | take j d op' path _ hpc _ hcalls _ =>
    rw [hcalls, Function.update_of_ne (hne hpc (by simp)), hi]
  | refuse j op' path hpc _ hcalls _ =>
    rw [hcalls, Function.update_of_ne (hne hpc (by simp)), hi]
  | release j op' result hpc hcalls _ =>
    rw [hcalls, Function.update_of_ne (hne hpc (by simp)), hi]
  | throw j op' hop hcalls _ =>
    have hij : i ≠ j := by
      rintro rfl
      rw [hi] at hop
      cases hop
    rw [hcalls, Function.update_of_ne hij, hi]

/-- A call that ends in an exception never leaves the proxy as it was: it
found its key's lock free, it leaves it taken, and in every state from then on
it is taken and nobody is there to release it. -/
theorem failed_call_never_intact (cfg : Config) (L : Libsodium) (file : Option Saved) (db : Db)
    {as : List (Act cfg)} {w : World} (hrun : run (next cfg L) (initial cfg file db) as = some w)
    {i : ℕ} {op : Operation} (hthrew : w.calls i = .threw op) :
    (∃ w0, TookLock cfg L (initial cfg file db) as i op w0) ∧
    (∀ w0, TookLock cfg L (initial cfg file db) as i op w0 →
      ¬ IntactAt op.key w0.globals w.globals) ∧
    ∀ bs w', run (next cfg L) w bs = some w' →
      w'.globals.locks op.key = some false ∧ ∀ j, ¬ Holds w' j op.key := by
  have hdead := (lockInv_run hrun).dead i op hthrew
  refine ⟨tookLock_of_run hrun (Or.inr hthrew), ?_, fun bs w' hbs => ?_⟩
  · rintro w0 ⟨pre, d, post, path, -, -, -, hfree⟩ hintact
    have := hintact.locks
    rw [hdead.1, hfree] at this
    cases this
  · have hthrew' : w'.calls i = .threw op := run_keeps (next cfg L) (fun w => w.calls i = .threw op)
      hthrew (fun _ _ _ hI ha => threw_step (lockStep_of_next ha) hI) hbs
    have hrun' : run (next cfg L) (initial cfg file db) (as ++ bs) = some w' := by
      rw [run_append, hrun]
      exact hbs
    exact (lockInv_run hrun').dead i op hthrew'

/-- A PUT of 161 bytes. -/
def longPut : Operation := ⟨ascii ['P', 'U', 'T'], ascii ['0'], List.replicate 161 97⟩

def longPutRun : List (Act constants) :=
  .call 0 longPut :: List.replicate 3 (.step 0 (plainDraw _ [1]))

theorem longPut_free : (initial constants none fun _ => none).globals.locks longPut.key = some true := by
  rw [initial_locks]
  exact setupLocks_eq_true_iff.mpr ⟨0, by decide, by decide⟩

theorem run_longPut : run (next constants Libsodium.plain) (initial constants none fun _ => none)
    longPutRun = some (((initial constants none fun _ => none).setGlobals
      ((initial constants none fun _ => none).globals.setLock longPut.key false)).goto 0
        (.threw longPut)) := by
  have hlen : longPut.value.length = 161 := List.length_replicate
  exact run_tooLong _ rfl rfl (by decide) longPut_free (by rw [hlen]; decide)

theorem failed_call_never_intact_longPut : ∃ w, run (next constants Libsodium.plain)
      (initial constants none fun _ => none) longPutRun = some w ∧
    ∀ w0, TookLock constants Libsodium.plain (initial constants none fun _ => none) longPutRun 0
      longPut w0 → ¬ IntactAt longPut.key w0.globals w.globals :=
  ⟨_, run_longPut, (failed_call_never_intact constants Libsodium.plain none (fun _ => none)
    run_longPut (goto_calls_self _ _ _)).2.1⟩

/-- The PUT finds the key free and leaves it locked. -/
theorem longPut_leaves_lock : ∃ w, run (next constants Libsodium.plain)
      (initial constants none fun _ => none) longPutRun = some w ∧ w.calls 0 = .threw longPut ∧
    (initial constants none fun _ => none).globals.locks longPut.key = some true ∧
    w.globals.locks longPut.key = some false :=
  ⟨_, run_longPut, goto_calls_self _ _ _, longPut_free, by simp [Globals.setLock]⟩

/-! ### Calls that are refused -/

/-- No call ends in an exception. -/
def NoThrow (cfg : Config) (L : Libsodium) (w : World) (a : Act cfg) : Prop :=
  ∀ w', next cfg L w a = some w' → ∀ i op, w'.calls i ≠ .threw op

theorem noThrow_of_next {w w1 : World} {a : Act cfg} (h : next cfg L w a = some w1)
    (hw1 : ∀ i op, w1.calls i ≠ .threw op) : NoThrow cfg L w a := fun w' h' => by
  rw [h, Option.some.injEq] at h'
  exact h' ▸ hw1

theorem goto_ne_threw {w : World} {j : ℕ} {pc : Pc} (hw : ∀ i op, w.calls i ≠ .threw op)
    (hpc : ∀ op, pc ≠ .threw op) (i : ℕ) (op : Operation) : (w.goto j pc).calls i ≠ .threw op := by
  by_cases hi : i = j
  · rw [hi, goto_calls_self]
    exact hpc op
  · rw [goto_calls_ne _ _ _ hi]
    exact hw i op

/-- A key that is not in the table is never free, and never held. -/
theorem unknown_key {file : Option Saved} {db : Db} {as : List (Act cfg)} {w : World}
    (h : run (next cfg L) (initial cfg file db) as = some w) {key : Bytes}
    (hkey : setupLocks cfg.keyMax key ≠ some true) :
    w.globals.locks key ≠ some true ∧ ∀ i, ¬ Holds w i key := by
  refine run_keeps (next cfg L) (fun w => w.globals.locks key ≠ some true ∧ ∀ i, ¬ Holds w i key)
    ⟨?_, ?_⟩ ?_ h
  · rwa [initial_locks]
  · rintro i ⟨op, hop, -⟩
    cases hop
  · rintro w a w' ⟨hfree, hno⟩ ha
    cases lockStep_of_next ha with
    | quiet hhold _ hlocks =>
      exact ⟨by rw [hlocks]; exact hfree, fun i hi => hno i ((holds_quiet hhold i key).mp hi)⟩
    | take i d op path _ _ hlock hcalls hlocks =>
      have hk : key ≠ op.key := fun hk => hfree (hk ▸ hlock)
      refine ⟨by rwa [hlocks, Function.update_of_ne hk], fun j hj => ?_⟩
      rcases (holds_update hcalls).mp hj with ⟨-, op', hop, hkey'⟩ | ⟨-, hj⟩
      · exact hk (by rw [← hkey', ← Option.some.inj hop])
      · exact hno j hj
    | refuse i op path _ _ hcalls hlocks =>
      refine ⟨?_, fun j hj => ?_⟩
      · rw [hlocks, Function.update_apply]
        split
        · simp
        · exact hfree
      · rcases (holds_update hcalls).mp hj with ⟨-, op', hop, -⟩ | ⟨-, hj⟩
        · cases hop
        · exact hno j hj
    | release i op result hpc hcalls hlocks =>
      have hk : key ≠ op.key := fun hk => hno i ⟨op, by rw [hpc]; rfl, hk.symm⟩
      refine ⟨by rwa [hlocks, Function.update_of_ne hk], fun j hj => ?_⟩
      rcases (holds_update hcalls).mp hj with ⟨-, op', hop, -⟩ | ⟨-, hj⟩
      · cases hop
      · exact hno j hj
    | throw i op _ hcalls hlocks =>
      refine ⟨by rwa [hlocks], fun j hj => ?_⟩
      rcases (holds_update hcalls).mp hj with ⟨-, op', hop, -⟩ | ⟨-, hj⟩
      · cases hop
      · exact hno j hj

/-- A key in the table is free or held, as long as no call throws. -/
theorem known_key {file : Option Saved} {db : Db} {as : List (Act cfg)} {w : World}
    (h : run (next cfg L) (initial cfg file db) as = some w)
    (hno : Along (next cfg L) (NoThrow cfg L) (initial cfg file db) as) {key : Bytes}
    (hkey : setupLocks cfg.keyMax key = some true) :
    w.globals.locks key = some true ∨ ∃ i, Holds w i key := by
  refine run_inv (next cfg L)
    (fun _ w => w.globals.locks key = some true ∨ ∃ i, Holds w i key) (Or.inl ?_) ?_ hno h
  · rwa [initial_locks]
  · rintro as w a w' _ hI hthrow ha
    cases lockStep_of_next ha with
    | quiet hhold _ hlocks =>
      rw [hlocks]
      exact hI.imp_right fun ⟨i, hi⟩ => ⟨i, (holds_quiet hhold i key).mpr hi⟩
    | take i d op path _ hpc hlock hcalls hlocks =>
      by_cases hk : key = op.key
      · exact Or.inr ⟨i, (holds_update hcalls).mpr (Or.inl ⟨rfl, op, rfl, hk.symm⟩)⟩
      · rw [hlocks, Function.update_of_ne hk]
        have hni : ¬ Holds w i key := fun ⟨_, hop, _⟩ => by rw [hpc] at hop; cases hop
        exact hI.imp_right fun ⟨j, hj⟩ =>
          ⟨j, (holds_update hcalls).mpr (Or.inr ⟨holds_ne hni hj, hj⟩)⟩
    | refuse i op path hpc hlock hcalls hlocks =>
      have hni : ¬ Holds w i key := fun ⟨_, hop, _⟩ => by rw [hpc] at hop; cases hop
      have hstill : (∃ i, Holds w i key) → ∃ i, Holds w' i key := fun ⟨j, hj⟩ =>
        ⟨j, (holds_update hcalls).mpr (Or.inr ⟨holds_ne hni hj, hj⟩)⟩
      by_cases hk : key = op.key
      · exact Or.inr (hstill (hI.resolve_left (hk ▸ hlock)))
      · rw [hlocks, Function.update_of_ne hk]
        exact hI.imp_right hstill
    | release i op result hpc hcalls hlocks =>
      by_cases hk : key = op.key
      · rw [hlocks, hk, Function.update_self]
        exact Or.inl rfl
      · have hni : ¬ Holds w i key := fun ⟨op', hop, hkey'⟩ => by
          rw [hpc] at hop
          exact hk (by rw [← hkey', ← Option.some.inj hop])
        rw [hlocks, Function.update_of_ne hk]
        exact hI.imp_right fun ⟨j, hj⟩ =>
          ⟨j, (holds_update hcalls).mpr (Or.inr ⟨holds_ne hni hj, hj⟩)⟩
    | throw i op _ hcalls hlocks =>
      refine absurd ?_ (hthrow w' ha i op)
      rw [hcalls, Function.update_self]

/-- Only a refused call and a GET of a missing key count as aborted. -/
theorem aborted_cases {w w' : World} {a : Act cfg} (h : next cfg L w a = some w')
    (hab : w'.aborted = w.aborted + 1) : ∃ i d op, a = .step i d ∧
      ((w.calls i = .called op ∧ w.globals.keySet op.key = false ∧ op.isGet = true) ∨
        ∃ path, w.calls i = .tested op path ∧ w.globals.locks op.key ≠ some true) := by
  have hserve : ∀ n m order, (serve cfg L w n m order).aborted = w.aborted := by
    intro n m order
    unfold serve
    split
    · rfl
    · split
      · rename_i labels db _
        rcases reply_cases { w with net := w.net.eraseIdx n, db := db } m.call labels with
          h | ⟨op, path, -, h⟩
        · rw [h]
        · rw [h]
          rfl
      · rfl
  cases nextStep_of_next h with
  | call i op => simp at hab
  | step i d _ hstep =>
    refine ⟨i, d, ?_⟩
    cases hstep with
    | testMissing op hpc hset hget => exact ⟨op, rfl, Or.inl ⟨hpc, hset, hget⟩⟩
    | refuse op path hpc hlock => exact ⟨op, rfl, Or.inr ⟨path, hpc, hlock⟩⟩
    | _ => exact absurd hab (by simp [World.goto, World.setGlobals, World.send])
  | failReady i op path entry => simp at hab
  | failWaiting i op path => simp at hab
  | process n order horder m =>
    rw [hserve] at hab
    omega

/-- In a run in which no call throws, a call that is counted as aborted meets
another that holds its key's lock, or is a GET of a missing key, if and only
if its key is one of those that `OpScureSetup` puts in the table (or it is a
GET of a missing key). -/
theorem aborted_iff_contention (cfg : Config) (L : Libsodium) (file : Option Saved) (db : Db)
    {as : List (Act cfg)} {a : Act cfg} {w w' : World}
    (hrun : run (next cfg L) (initial cfg file db) as = some w)
    (hno : Along (next cfg L) (NoThrow cfg L) (initial cfg file db) as)
    (hnext : next cfg L w a = some w') (hab : w'.aborted = w.aborted + 1) :
    ∃ i d op, a = .step i d ∧ (w.calls i).operation = some op ∧
      ((∃ j, j ≠ i ∧ Holds w j op.key) ∨ (op.isGet = true ∧ w.globals.keySet op.key = false) ↔
        (∃ n < cfg.keyMax, op.key = stdToString n) ∨
          (op.isGet = true ∧ w.globals.keySet op.key = false)) := by
  obtain ⟨i, d, op, rfl, ⟨hpc, hset, hget⟩ | ⟨path, hpc, hlock⟩⟩ := aborted_cases hnext hab
  · exact ⟨i, d, op, rfl, by rw [hpc]; rfl, iff_of_true (Or.inr ⟨hget, hset⟩) (Or.inr ⟨hget, hset⟩)⟩
  · refine ⟨i, d, op, rfl, by rw [hpc]; rfl, or_congr_left ?_⟩
    rw [← setupLocks_eq_true_iff]
    constructor
    · rintro ⟨j, -, hj⟩
      by_contra hkey
      exact (unknown_key hrun hkey).2 j hj
    · intro hkey
      obtain ⟨j, hj⟩ := (known_key hrun hno hkey).resolve_left hlock
      have hni : ¬ Holds w i op.key := fun ⟨_, hop, _⟩ => by rw [hpc] at hop; cases hop
      exact ⟨j, holds_ne hni hj, hj⟩

/-- The first PUT of the README. -/
def helloPut : Operation :=
  ⟨ascii ['P', 'U', 'T'], ascii ['h', 'e', 'l', 'l', 'o'], ascii ['w', 'o', 'r', 'l', 'd']⟩

def helloRun : List (Act constants) := [.call 0 helloPut, .step 0 (plainDraw _ [1])]

theorem next_hello_call : next constants Libsodium.plain (initial constants none fun _ => none)
    (.call 0 helloPut) = some ((initial constants none fun _ => none).goto 0 (.called helloPut)) := rfl

theorem next_hello_test : next constants Libsodium.plain
    ((initial constants none fun _ => none).goto 0 (.called helloPut)) (.step 0 (plainDraw _ [1])) =
      some ((initial constants none fun _ => none).goto 0 (.tested helloPut .create)) := by
  have hset : (initial constants none fun _ => none).globals.keySet helloPut.key = false := rfl
  have hput : helloPut.isGet = false := by decide
  simp only [next, stepCall, hset, hput, goto_calls_self, goto_globals, goto_goto,
    Bool.false_eq_true, if_false]

theorem run_hello : run (next constants Libsodium.plain) (initial constants none fun _ => none)
    helloRun = some ((initial constants none fun _ => none).goto 0 (.tested helloPut .create)) := by
  rw [helloRun, run_cons, next_hello_call, Option.bind_some, run_cons, next_hello_test]
  rfl

theorem noThrow_hello : Along (next constants Libsodium.plain) (NoThrow constants Libsodium.plain)
    (initial constants none fun _ => none) helloRun := by
  have hinit : ∀ i op, (initial constants none fun _ => none).calls i ≠ .threw op := by
    rintro i op ⟨⟩
  refine ⟨noThrow_of_next next_hello_call (goto_ne_threw hinit (by simp)), fun w' hw' => ?_⟩
  rw [next_hello_call, Option.some.injEq] at hw'
  subst hw'
  exact ⟨noThrow_of_next next_hello_test (goto_ne_threw hinit (by simp)), fun _ _ => trivial⟩

theorem hello_not_setup : setupLocks constants.keyMax helloPut.key ≠ some true := fun h => by
  obtain ⟨n, -, hn⟩ := setupLocks_eq_true_iff.mp h
  have hmem : (104 : UInt8) ∈ stdToString n := hn ▸ by decide
  exact absurd (stdToString_digits hmem).2 (by decide)

/-- Its key is not in the lock table: it is refused though nobody else is there. -/
theorem hello_refused : ∃ w w', run (next constants Libsodium.plain)
      (initial constants none fun _ => none) helloRun = some w ∧
    next constants Libsodium.plain w (.step 0 (plainDraw _ [1])) = some w' ∧
    w'.aborted = w.aborted + 1 ∧ helloPut.isGet = false ∧ ∀ j, ¬ Holds w j helloPut.key := by
  refine ⟨_, _, run_hello, next_refuse _ (goto_calls_self _ _ _) ?_, rfl, by decide, ?_⟩
  · rw [goto_globals, initial_locks]
    exact hello_not_setup
  · exact (unknown_key run_hello hello_not_setup).2

theorem aborted_iff_contention_hello : ∃ w, run (next constants Libsodium.plain)
      (initial constants none fun _ => none) helloRun = some w ∧
    ((∃ j, j ≠ 0 ∧ Holds w j helloPut.key) ∨ (helloPut.isGet = true ∧ w.globals.keySet helloPut.key = false) ↔
      (∃ n < constants.keyMax, helloPut.key = stdToString n) ∨
        (helloPut.isGet = true ∧ w.globals.keySet helloPut.key = false)) := by
  have hlock : ((initial constants none fun _ => none).goto 0
      (.tested helloPut .create)).globals.locks helloPut.key ≠ some true := by
    rw [goto_globals, initial_locks]
    exact hello_not_setup
  obtain ⟨i, d, op, hact, hop, hiff⟩ := aborted_iff_contention constants Libsodium.plain none
    (fun _ => none) run_hello noThrow_hello
    (next_refuse (plainDraw _ [1]) (goto_calls_self _ _ _) hlock) rfl
  obtain ⟨rfl, -⟩ := Act.step.inj hact
  rw [goto_calls_self] at hop
  obtain rfl := Option.some.inj hop
  exact ⟨_, run_hello, hiff⟩

end Proxy
end Lbl
end Ortoa
