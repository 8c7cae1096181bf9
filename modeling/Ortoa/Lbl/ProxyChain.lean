/-
# The proxy's and the server's half of a key

For each key the proxy has a master key, the server a label string, and
between them there are entries: built, but not yet sent, or sent and not yet
processed. What is stored, taken through the entries of the key that are
still under way, is the last value written under the proxy's master key
(`ChainInv`). A new entry is built against the tip of this chain, because it
is built with the lock held; the server may take the entries of a key from
its other end only. So the chain stays whole as long as the server processes
the messages of each key in the order in which they were sent (`InOrder`);
but the proxy releases the lock of a key while its oneway `create` may still
be in flight, and the connections of two calls are not ordered
(`access_overtakes_create`).

Key definitions: `Takes`, `Pending`, `ChainInv`, `CallInv`, `InOrder`.
Key theorems: `serve_takes`, `chain_run`, `store_follows_proxy`.
-/
import Ortoa.Lbl.ProxyLocks
import Ortoa.Chain
import Ortoa.Latest

namespace Ortoa
namespace Lbl
namespace Proxy

/-! ### What happened in a run -/

section History

variable {cfg : Config}

/-- The PUTs that build their entry in a step. The lock is held, so along a
run they are the PUTs of a key that were not aborted, in order. -/
def builtPut (w : World) : Act cfg → List (Bytes × Bytes)
  | .step i _ =>
    match w.calls i with
    | .locked op _ => if op.isGet then [] else [(op.key, op.value)]
    | _ => []
  | _ => []

/-- The call that builds its entry in a step, with the master key that the
entry is built against. -/
def builtFrom (w : World) : Act cfg → List (ℕ × Bytes)
  | .step i _ =>
    match w.calls i with
    | .locked op _ => [(i, w.globals.masterKeys op.key)]
    | _ => []
  | _ => []

/-- Only its own key has a new last value. -/
theorem latest_builtPut_ne (ws : List (Bytes × Bytes)) {w : World} {i : ℕ} (d : Draw cfg)
    {op : Operation} {path : Path} {key : Bytes} (hpc : w.calls i = .locked op path)
    (hk : key ≠ op.key) : latest (ws ++ builtPut w (.step i d : Act cfg)) key = latest ws key := by
  simp only [builtPut, hpc]
  split
  · rw [List.append_nil]
  · exact latest_concat_ne _ _ hk

end History

/-! ### What an entry does to a key -/

/-- A key's master key and padded value, if it has been created. -/
abbrev Cell := Option (Bytes × Bytes)

section Cells

variable (cfg : Config) (L : Libsodium)

/-- What the server stores for a cell. -/
def stored (c : Cell) : Option Bytes := c.map fun mv => labelString L cfg.valueSize mv.1 mv.2

/-- The message takes the cell of `key` from one state to the next: a
`create` whatever there is, an `access` from the master key its call has
built it against. -/
inductive Takes (bs : List (ℕ × Bytes)) (key : Bytes) : Cell → Message → Cell → Prop
  | create (c : Cell) (i : ℕ) (value : Bytes) (d : Draw cfg) : value.length ≤ cfg.valueSize →
    Takes bs key c ⟨i, .create, createEntry cfg L key value d⟩
      (some (d.masterKey, padded value cfg.valueSize))
  | get (mk v : Bytes) (i : ℕ) (d : Draw cfg) : (i, mk) ∈ bs →
    Takes bs key (some (mk, v)) ⟨i, .access, getEntry cfg L key mk d⟩ (some (d.masterKey, v))
  | put (mk v : Bytes) (i : ℕ) (value : Bytes) (d : Draw cfg) : (i, mk) ∈ bs →
    value.length ≤ cfg.valueSize →
    Takes bs key (some (mk, v)) ⟨i, .access, putEntry cfg L key mk value d⟩
      (some (d.masterKey, padded value cfg.valueSize))

variable {cfg L} {bs bs' : List (ℕ × Bytes)} {key : Bytes} {c c' : Cell} {m : Message}

theorem Takes.keyName (h : Takes cfg L bs key c m c') : m.entry.keyName = key := by
  cases h <;> rfl

theorem Takes.mono (hbs : ∀ x ∈ bs, x ∈ bs') (h : Takes cfg L bs key c m c') :
    Takes cfg L bs' key c m c' := by
  cases h with
  | create _ i value d hfits => exact .create _ i value d hfits
  | get mk v i d hmk => exact .get mk v i d (hbs _ hmk)
  | put mk v i value d hmk hfits => exact .put mk v i value d (hbs _ hmk) hfits

/-- An access that takes a cell opens in every slot of what is stored for it. -/
theorem Takes.access (h : Takes cfg L bs key c m c') (hm : m.method = .access) :
    ∃ mk v, c = some (mk, v) ∧ (m.call, mk) ∈ bs ∧
      AllOpen cfg L (labelString L cfg.valueSize mk v) m.entry := by
  cases h with
  | create _ i value d _ => cases hm
  | get mk v i d hmk => exact ⟨mk, v, rfl, hmk, allOpen_getEntry _ _ _ _⟩
  | put mk v i value d hmk _ => exact ⟨mk, v, rfl, hmk, allOpen_putEntry _ _ _ _ _⟩

/-- The server with message `n` processed and `labels` stored for the key. -/
def World.took (w : World) (n : ℕ) (key labels : Bytes) : World :=
  { w with net := w.net.eraseIdx n, db := Function.update w.db key (some labels) }

/-- Processing a message that takes the stored cell stores the next one, and
replies with it if it was an access. -/
theorem serve_takes {w : World} {n : ℕ} {order : List ℕ}
    (horder : order.Perm (List.range cfg.serverNumThreads))
    (hall : ∀ k < cfg.valueSize * 4, reached cfg k) (hdb : w.db key = stored cfg L c)
    (h : Takes cfg L bs key c m c') :
    ∃ labels, stored cfg L c' = some labels ∧ serve cfg L w n m order =
      if m.method = .create then w.took n key labels else (w.took n key labels).reply m.call labels := by
  cases h with
  | create _ i value d _ => exact ⟨_, rfl, rfl⟩
  | get mk v i d hmk =>
    have hacc := access_getEntry (L := L) d horder hdb hall
    refine ⟨_, rfl, ?_⟩
    simp only [serve, hacc]
    rfl
  | put mk v i value d hmk _ =>
    have hacc := access_putEntry (L := L) value d horder hdb hall
    refine ⟨_, rfl, ?_⟩
    simp only [serve, hacc]
    rfl

end Cells

/-! ### What a step does to the entries under way -/

def Path.method : Path → Method
  | .create => .create
  | _ => .access

theorem Path.method_of_ne {path : Path} (h : path ≠ .create) : path.method = .access := by
  cases path with
  | create => exact absurd rfl h
  | get => rfl
  | put => rfl

/-- The message that a call has built and not yet sent. -/
def Pc.unsent (i : ℕ) : Pc → Option Message
  | .built _ path entry => some ⟨i, path.method, entry⟩
  | .sized _ path entry => some ⟨i, path.method, entry⟩
  | .ready _ path entry => some ⟨i, path.method, entry⟩
  | _ => none

variable {cfg : Config} {L : Libsodium}

/-- What a step does to entries, master keys and the database. -/
inductive NetStep (cfg : Config) (L : Libsodium) (a : Act cfg) (w w' : World) : Prop
  | quiet : w'.db = w.db → w'.net = w.net → w'.serverUp = w.serverUp →
    w'.globals.masterKeys = w.globals.masterKeys →
    (∀ j, (w'.calls j).unsent j = (w.calls j).unsent j) →
    (∀ j m, (w.calls j).unsent j = some m → (w'.calls j).holding = (w.calls j).holding) →
    builtPut w a = [] → builtFrom w a = [] → NetStep cfg L a w w'
  | build (i : ℕ) (d : Draw cfg) (op : Operation) (path : Path) : a = .step i d →
    w.calls i = .locked op path → (path ≠ .get → op.value.length ≤ cfg.valueSize) →
    w'.db = w.db → w'.net = w.net → w'.serverUp = w.serverUp →
    w'.globals.masterKeys = Function.update w.globals.masterKeys op.key d.masterKey →
    (w'.calls i).unsent i =
      some ⟨i, path.method, pathEntry cfg L op (w.globals.masterKeys op.key) d path⟩ →
    (w'.calls i).holding = some op → (∀ j, j ≠ i → w'.calls j = w.calls j) → NetStep cfg L a w w'
  | send (i : ℕ) (m : Message) : (w.calls i).unsent i = some m →
    w'.db = w.db → w'.net = w.net ++ [m] → w'.serverUp = w.serverUp →
    w'.globals.masterKeys = w.globals.masterKeys → (w'.calls i).unsent i = none →
    (w'.calls i).holding = (w.calls i).holding → (∀ j, j ≠ i → w'.calls j = w.calls j) →
    builtPut w a = [] → builtFrom w a = [] → NetStep cfg L a w w'
  | receive (n : ℕ) (m : Message) (order : List ℕ) (h : order.Perm (List.range cfg.serverNumThreads)) :
    a = .process n order h → w.serverUp = true → w.net[n]? = some m → w' = serve cfg L w n m order →
    NetStep cfg L a w w'

theorem NetStep.quiet_goto {w w' : World} {i : ℕ} {d : Draw cfg} {pc pc' : Pc}
    (hpc : w.calls i = pc) (hcalls : w'.calls = Function.update w.calls i pc')
    (hunsent : pc'.unsent i = pc.unsent i)
    (hhold : ∀ m, pc.unsent i = some m → pc'.holding = pc.holding)
    (hl : ∀ op path, pc ≠ .locked op path)
    (hdb : w'.db = w.db) (hnet : w'.net = w.net) (hup : w'.serverUp = w.serverUp)
    (hmk : w'.globals.masterKeys = w.globals.masterKeys) : NetStep cfg L (.step i d) w w' := by
  subst hpc
  have hput : builtPut w (.step i d : Act cfg) = [] := by simp [builtPut]
  have hfrom : builtFrom w (.step i d : Act cfg) = [] := by simp [builtFrom]
  refine .quiet hdb hnet hup hmk (fun j => ?_) (fun j m hm => ?_) hput hfrom
  · rw [hcalls]
    by_cases hj : j = i
    · rw [hj, Function.update_self, hunsent]
    · rw [Function.update_of_ne hj]
  · rw [hcalls]
    by_cases hj : j = i
    · subst hj
      rw [Function.update_self]
      exact hhold m hm
    · rw [Function.update_of_ne hj]

theorem netStep_of_callStep {w w' : World} {i : ℕ} {d : Draw cfg} (h : CallStep cfg L w i d w') :
    NetStep cfg L (.step i d) w w' ∨ ∃ op path, w.calls i = .locked op path ∧
      ¬ (path ≠ .get → op.value.length ≤ cfg.valueSize) := by
  cases h with
  | test op hpc => exact Or.inl (.quiet_goto hpc rfl rfl (by simp [Pc.unsent]) (by simp) rfl rfl rfl rfl)
  | testMissing op hpc => exact Or.inl (.quiet_goto hpc rfl rfl (by simp [Pc.unsent]) (by simp) rfl rfl rfl rfl)
  | testNew op hpc => exact Or.inl (.quiet_goto hpc rfl rfl (by simp [Pc.unsent]) (by simp) rfl rfl rfl rfl)
  | lock op path hpc => exact Or.inl (.quiet_goto hpc rfl rfl (by simp [Pc.unsent]) (by simp) rfl rfl rfl rfl)
  | refuse op path hpc => exact Or.inl (.quiet_goto hpc rfl rfl (by simp [Pc.unsent]) (by simp) rfl rfl rfl rfl)
  | constructed op path hpc hfits =>
    refine Or.inl (.build i d op path rfl hpc hfits rfl rfl rfl rfl ?_ ?_
      fun j hj => goto_calls_ne _ _ _ hj)
    · rw [goto_calls_self]
      split <;> rfl
    · rw [goto_calls_self]
      split <;> rfl
  | tooLong op path hpc hlong => exact Or.inr ⟨op, path, hpc, hlong⟩
  | setSize op path entry hpc =>
    refine Or.inl (.quiet_goto hpc rfl ?_ (fun _ _ => ?_) (by simp) rfl rfl rfl rfl)
    · split <;> rfl
    · split <;> rfl
  | insertKey op path entry hpc =>
    exact Or.inl (.quiet_goto hpc rfl rfl (fun _ _ => rfl) (by simp) rfl rfl rfl rfl)
  | sendCreate op entry hpc =>
    exact Or.inl (.send i ⟨i, .create, entry⟩ (by rw [hpc]; rfl) rfl rfl rfl rfl
      (by rw [goto_calls_self]; rfl) (by rw [goto_calls_self, hpc]; rfl)
      (fun j hj => goto_calls_ne _ _ _ hj) (by simp [builtPut, hpc]) (by simp [builtFrom, hpc]))
  | sendAccess op path entry hpc hp =>
    have hm : path.method = .access := Path.method_of_ne hp
    exact Or.inl (.send i ⟨i, .access, entry⟩ (by rw [hpc]; simp [Pc.unsent, hm]) rfl rfl rfl rfl
      (by rw [goto_calls_self]; rfl) (by rw [goto_calls_self, hpc]; rfl)
      (fun j hj => goto_calls_ne _ _ _ hj) (by simp [builtPut, hpc]) (by simp [builtFrom, hpc]))
  | read op labels value hpc => exact Or.inl (.quiet_goto hpc rfl rfl (by simp [Pc.unsent]) (by simp) rfl rfl rfl rfl)
  | readFault op labels f hpc => exact Or.inl (.quiet_goto hpc rfl rfl (by simp [Pc.unsent]) (by simp) rfl rfl rfl rfl)
  | skipRead op path labels hpc => exact Or.inl (.quiet_goto hpc rfl rfl (by simp [Pc.unsent]) (by simp) rfl rfl rfl rfl)
  | count op path result hpc => exact Or.inl (.quiet_goto hpc rfl rfl (by simp [Pc.unsent]) (by simp) rfl rfl rfl rfl)
  | unlock op result hpc => exact Or.inl (.quiet_goto hpc rfl rfl (by simp [Pc.unsent]) (by simp) rfl rfl rfl rfl)

theorem netStep_of_next {a : Act cfg} {w w' : World} (hfail : ∀ i, a ≠ .fail i)
    (hfits : ∀ i op path, w.calls i = .locked op path → path ≠ .get →
      op.value.length ≤ cfg.valueSize)
    (h : next cfg L w a = some w') : NetStep cfg L a w w' := by
  cases nextStep_of_next h with
  | call i op hpc =>
    refine .quiet rfl rfl rfl rfl (fun j => ?_) (fun j m hm => ?_) rfl rfl
    · by_cases hj : j = i
      · rw [hj, goto_calls_self, hpc]; rfl
      · rw [goto_calls_ne _ _ _ hj]
    · have hj : j ≠ i := by
        rintro rfl
        rw [hpc] at hm
        cases hm
      rw [goto_calls_ne _ _ _ hj]
  | step i d _ hstep =>
    apply (netStep_of_callStep hstep).resolve_right
    rintro ⟨op, path, hpc, hlong⟩
    exact hlong (hfits i op path hpc)
  | failReady i => exact absurd rfl (hfail i)
  | failWaiting i => exact absurd rfl (hfail i)
  | process n order horder m hup hm => exact .receive n m order horder rfl hup hm rfl

/-! ### The proxy's own bookkeeping -/

/-- What is known of a call at each statement, of the last values `ws`. -/
def CallOk (cfg : Config) (ws : List (Bytes × Bytes)) (g : Globals) : Pc → Prop
  | .called op => op.isGet = false → op.value.length ≤ cfg.valueSize
  | .tested op path => (op.isGet = false → op.value.length ≤ cfg.valueSize) ∧
    (path = .get ↔ op.isGet = true) ∧ (path ≠ .create → g.keySet op.key = true)
  | .locked op path => (op.isGet = false → op.value.length ≤ cfg.valueSize) ∧
    (path = .get ↔ op.isGet = true) ∧ (path ≠ .create → g.keySet op.key = true)
  | .built op path _ => op.isGet = false ∧ path ≠ .get ∧ latest ws op.key = some op.value
  | .sized op path _ => op.isGet = false ∧ path = .create ∧ latest ws op.key = some op.value
  | .ready op path _ => path = .get ↔ op.isGet = true
  | .waiting op path => path = .get ↔ op.isGet = true
  | .replied op path _ => path = .get ↔ op.isGet = true
  | _ => True

/-- `keySet` and `valueSizes` follow the values written, up to the statement
that a call on the key is at. -/
structure CallInv (cfg : Config) (ws : List (Bytes × Bytes)) (w : World) : Prop where
  calls : ∀ i, CallOk cfg ws w.globals (w.calls i)
  known : ∀ key, w.globals.keySet key = true → (latest ws key).isSome = true
  fits : ∀ key v, latest ws key = some v → v.length ≤ cfg.valueSize
  sized : ∀ key v, latest ws key = some v → w.globals.valueSizes key = v.length ∨
    ∃ i op path entry, w.calls i = .built op path entry ∧ op.key = key

theorem CallOk.mono {ws ws' : List (Bytes × Bytes)} {g g' : Globals} {pc : Pc}
    (h : CallOk cfg ws g pc) (hset : ∀ k, g.keySet k = true → g'.keySet k = true)
    (hws : ∀ op, pc.holding = some op → latest ws' op.key = latest ws op.key) :
    CallOk cfg ws' g' pc := by
  cases pc with
  | tested op path => exact ⟨h.1, h.2.1, fun hp => hset _ (h.2.2 hp)⟩
  | locked op path => exact ⟨h.1, h.2.1, fun hp => hset _ (h.2.2 hp)⟩
  | built op path entry => exact ⟨h.1, h.2.1, (hws op rfl).trans h.2.2⟩
  | sized op path entry => exact ⟨h.1, h.2.1, (hws op rfl).trans h.2.2⟩
  | _ => exact h

section CallInv

variable {ws : List (Bytes × Bytes)} {w w' : World}

theorem callInv_initial (db : Db) : CallInv cfg [] (initial cfg none db) where
  calls _ := trivial
  known _ h := by cases h
  fits _ _ h := by cases h
  sized _ _ h := by cases h

/-- A call that goes on, with `keySet` and `valueSizes` as they were. -/
theorem CallInv.quiet {i : ℕ} {pc pc' : Pc} (h : CallInv cfg ws w) (hpc : w.calls i = pc)
    (hcalls : w'.calls = Function.update w.calls i pc')
    (hset : w'.globals.keySet = w.globals.keySet)
    (hsize : w'.globals.valueSizes = w.globals.valueSizes)
    (hok : CallOk cfg ws w.globals pc') (hbuilt : ∀ op path entry, pc ≠ .built op path entry) :
    CallInv cfg ws w' where
  calls j := by
    have hmono : ∀ pc, CallOk cfg ws w.globals pc → CallOk cfg ws w'.globals pc :=
      fun pc hpc => hpc.mono (fun k hk => by rwa [hset]) fun _ _ => rfl
    rw [hcalls]
    by_cases hj : j = i
    · rw [hj, Function.update_self]; exact hmono _ hok
    · rw [Function.update_of_ne hj]; exact hmono _ (h.calls j)
  known key hk := h.known key (by rwa [hset] at hk)
  fits := h.fits
  sized key v hv := by
    rw [hsize, hcalls]
    apply (h.sized key v hv).imp_right
    rintro ⟨j, op, path, entry, hj, hkey⟩
    have hji : j ≠ i := by
      rintro rfl
      exact hbuilt op path entry (hpc.symm.trans hj)
    exact ⟨j, op, path, entry, by rw [Function.update_of_ne hji, hj], hkey⟩

/-- A call that builds its entry makes its value the last one. -/
theorem CallInv.constructed {i : ℕ} {op : Operation} {path : Path} {d : Draw cfg}
    (h : CallInv cfg ws w) (hl : LockInv w) (hpc : w.calls i = .locked op path) (entry : Entry) :
    CallInv cfg (ws ++ builtPut w (.step i d : Act cfg))
      ((w.setGlobals (w.globals.rekey op.key d.masterKey)).goto i
        (if path = .get then .ready op path entry else .built op path entry)) := by
  obtain ⟨hfits, hget, hset⟩ : CallOk cfg ws w.globals (.locked op path) := hpc ▸ h.calls i
  have hi : Holds w i op.key := ⟨op, by rw [hpc]; rfl, rfl⟩
  by_cases hp : path = .get
  · have hput : builtPut w (.step i d : Act cfg) = [] := by simp [builtPut, hpc, hget.mp hp]
    rw [hput, List.append_nil, if_pos hp]
    exact h.quiet hpc rfl rfl rfl hget (by simp)
  · have hop : op.isGet = false := by
      rw [← Bool.not_eq_true]
      exact fun hg => hp (hget.mpr hg)
    have hput : builtPut w (.step i d : Act cfg) = [(op.key, op.value)] := by
      simp [builtPut, hpc, hop]
    rw [hput, if_neg hp]
    have hother : ∀ k, k ≠ op.key → latest (ws ++ [(op.key, op.value)]) k = latest ws k :=
      fun k hk => latest_concat_ne _ _ hk
    constructor
    · intro j
      by_cases hj : j = i
      · rw [hj, goto_calls_self]
        exact ⟨hop, hp, latest_concat_self _ _ _⟩
      · rw [goto_calls_ne _ _ _ hj]
        -- no other call holds the key
        refine (h.calls j).mono (fun _ hk => hk) fun op' hop' => hother _ fun hk => ?_
        exact hj (hl.unique j i op.key ⟨op', hop', hk⟩ hi)
    · intro key hk
      by_cases hkey : key = op.key
      · rw [hkey, latest_concat_self]; rfl
      · rw [hother key hkey]; exact h.known key hk
    · intro key v hv
      by_cases hkey : key = op.key
      · rw [hkey, latest_concat_self, Option.some.injEq] at hv
        exact hv ▸ hfits hop
      · rw [hother key hkey] at hv; exact h.fits key v hv
    · intro key v hv
      by_cases hkey : key = op.key
      · exact Or.inr ⟨i, op, path, entry, goto_calls_self _ _ _, hkey.symm⟩
      · rw [hother key hkey] at hv
        apply (h.sized key v hv).imp_right
        rintro ⟨j, op', path', entry', hj, hkey'⟩
        have hji : j ≠ i := by
          rintro rfl
          rw [hpc] at hj
          cases hj
        exact ⟨j, op', path', entry', by rw [goto_calls_ne _ _ _ hji]; exact hj, hkey'⟩

theorem CallInv.setSize {i : ℕ} {op : Operation} {path : Path} {entry : Entry}
    (h : CallInv cfg ws w) (hpc : w.calls i = .built op path entry) :
    CallInv cfg ws ((w.setGlobals (w.globals.setSize op.key op.value.length)).goto i
      (if path = .create then .sized op path entry else .ready op path entry)) := by
  obtain ⟨hput, hp, hlast⟩ : CallOk cfg ws w.globals (.built op path entry) := hpc ▸ h.calls i
  constructor
  · intro j
    by_cases hj : j = i
    · rw [hj, goto_calls_self]
      split
      · rename_i hcreate
        exact ⟨hput, hcreate, hlast⟩
      · exact iff_of_false hp (by rw [hput]; decide)
    · rw [goto_calls_ne _ _ _ hj]
      exact (h.calls j).mono (fun _ hk => hk) fun _ _ => rfl
  · exact h.known
  · exact h.fits
  · intro key v hv
    by_cases hkey : key = op.key
    · rw [hkey, hlast, Option.some.injEq] at hv
      apply Or.inl
      rw [hkey, ← hv]
      exact Function.update_self _ _ _
    · refine (h.sized key v hv).imp (fun hs => ?_) ?_
      · rw [← hs]
        exact Function.update_of_ne hkey _ _
      · rintro ⟨j, op', path', entry', hj, hkey'⟩
        have hji : j ≠ i := by
          rintro rfl
          rw [hpc] at hj
          exact hkey (by rw [← hkey', (Pc.built.inj hj).1])
        exact ⟨j, op', path', entry', by rw [goto_calls_ne _ _ _ hji]; exact hj, hkey'⟩

theorem CallInv.insertKey {i : ℕ} {op : Operation} {path : Path} {entry : Entry}
    (h : CallInv cfg ws w) (hpc : w.calls i = .sized op path entry) :
    CallInv cfg ws ((w.setGlobals (w.globals.insertKey op.key)).goto i (.ready op path entry)) := by
  obtain ⟨hput, hp, hlast⟩ : CallOk cfg ws w.globals (.sized op path entry) := hpc ▸ h.calls i
  constructor
  · intro j
    by_cases hj : j = i
    · rw [hj, goto_calls_self]
      exact iff_of_false (by rw [hp]; decide) (by rw [hput]; decide)
    · rw [goto_calls_ne _ _ _ hj]
      refine (h.calls j).mono (fun k hk => ?_) fun _ _ => rfl
      change Function.update w.globals.keySet op.key true k = true
      rw [Function.update_apply]
      split
      · rfl
      · exact hk
  · intro key hk
    by_cases hkey : key = op.key
    · rw [hkey, hlast]; rfl
    · have hk' : Function.update w.globals.keySet op.key true key = true := hk
      rw [Function.update_of_ne hkey] at hk'
      exact h.known key hk'
  · exact h.fits
  · intro key v hv
    apply (h.sized key v hv).imp_right
    rintro ⟨j, op', path', entry', hj, hkey'⟩
    have hji : j ≠ i := by
      rintro rfl
      rw [hpc] at hj
      cases hj
    exact ⟨j, op', path', entry', by rw [goto_calls_ne _ _ _ hji]; exact hj, hkey'⟩

/-- A call with the lock writes a value that fits. -/
theorem CallInv.locked_fits (h : CallInv cfg ws w) (i : ℕ) (op : Operation) (path : Path)
    (hpc : w.calls i = .locked op path) (hp : path ≠ .get) : op.value.length ≤ cfg.valueSize := by
  obtain ⟨hfits, hget, -⟩ : CallOk cfg ws w.globals (.locked op path) := hpc ▸ h.calls i
  apply hfits
  rw [← Bool.not_eq_true]
  exact fun hg => hp (hget.mpr hg)

theorem CallInv.callStep {i : ℕ} {d : Draw cfg} (h : CallInv cfg ws w) (hl : LockInv w)
    (hs : CallStep cfg L w i d w') : CallInv cfg (ws ++ builtPut w (.step i d : Act cfg)) w' := by
  have hnil : ∀ {pc}, w.calls i = pc → (∀ op path, pc ≠ .locked op path) → CallInv cfg ws w' →
      CallInv cfg (ws ++ builtPut w (.step i d : Act cfg)) w' := by
    rintro pc rfl hpc hI
    rwa [show builtPut w (.step i d : Act cfg) = [] by simp [builtPut], List.append_nil]
  cases hs with
  | test op hpc hset =>
    refine hnil hpc (by simp) (h.quiet hpc rfl rfl rfl ⟨?_, ?_, fun _ => hset⟩ (by simp))
    · have hok : CallOk cfg ws w.globals (.called op) := hpc ▸ h.calls i
      exact hok
    · cases op.isGet <;> simp
  | testMissing op hpc _ _ => exact hnil hpc (by simp) (h.quiet hpc rfl rfl rfl trivial (by simp))
  | testNew op hpc _ hget =>
    have hok : CallOk cfg ws w.globals (.called op) := hpc ▸ h.calls i
    exact hnil hpc (by simp) (h.quiet hpc rfl rfl rfl
      ⟨hok, by simp [hget], fun hp => absurd rfl hp⟩ (by simp))
  | lock op path hpc _ =>
    have hok : CallOk cfg ws w.globals (.tested op path) := hpc ▸ h.calls i
    exact hnil hpc (by simp) (h.quiet hpc rfl rfl rfl hok (by simp))
  | refuse op path hpc _ => exact hnil hpc (by simp) (h.quiet hpc rfl rfl rfl trivial (by simp))
  | constructed op path hpc _ => exact h.constructed hl hpc _
  | tooLong op path hpc hlong => exact absurd (h.locked_fits i op path hpc) hlong
  | setSize op path entry hpc => exact hnil hpc (by simp) (h.setSize hpc)
  | insertKey op path entry hpc => exact hnil hpc (by simp) (h.insertKey hpc)
  | sendCreate op entry hpc => exact hnil hpc (by simp) (h.quiet hpc rfl rfl rfl trivial (by simp))
  | sendAccess op path entry hpc _ =>
    have hok : CallOk cfg ws w.globals (.ready op path entry) := hpc ▸ h.calls i
    exact hnil hpc (by simp) (h.quiet hpc rfl rfl rfl hok (by simp))
  | read op labels value hpc _ => exact hnil hpc (by simp) (h.quiet hpc rfl rfl rfl trivial (by simp))
  | readFault op labels f hpc _ => exact hnil hpc (by simp) (h.quiet hpc rfl rfl rfl trivial (by simp))
  | skipRead op path labels hpc _ =>
    exact hnil hpc (by simp) (h.quiet hpc rfl rfl rfl trivial (by simp))
  | count op path result hpc => exact hnil hpc (by simp) (h.quiet hpc rfl rfl rfl trivial (by simp))
  | unlock op result hpc => exact hnil hpc (by simp) (h.quiet hpc rfl rfl rfl trivial (by simp))

/-- The server does not touch the globals, and a reply only moves its call. -/
theorem serve_globals (w : World) (n : ℕ) (m : Message) (order : List ℕ) :
    (serve cfg L w n m order).globals = w.globals ∧
      ((serve cfg L w n m order).calls = w.calls ∨ ∃ op path labels,
        w.calls m.call = .waiting op path ∧ (serve cfg L w n m order).calls =
          Function.update w.calls m.call (.replied op path labels)) := by
  unfold serve
  split
  · exact ⟨rfl, Or.inl rfl⟩
  · split
    · rename_i labels db _
      rcases reply_cases { w with net := w.net.eraseIdx n, db := db } m.call labels with
        h | ⟨op, path, hpc, h⟩
      · rw [h]
        exact ⟨rfl, Or.inl rfl⟩
      · rw [h]
        exact ⟨rfl, Or.inr ⟨op, path, labels, hpc, rfl⟩⟩
    · exact ⟨rfl, Or.inl rfl⟩

theorem CallInv.same (h : CallInv cfg ws w) (hg : w'.globals = w.globals)
    (hcalls : w'.calls = w.calls) : CallInv cfg ws w' where
  calls i := by rw [hg, hcalls]; exact h.calls i
  known key hk := h.known key (by rwa [hg] at hk)
  fits := h.fits
  sized key v hv := by rw [hg, hcalls]; exact h.sized key v hv

/-- Every step keeps the bookkeeping right. -/
theorem CallInv.step {a : Act cfg} (h : CallInv cfg ws w) (hl : LockInv w)
    (hcall : ∀ i op, a = .call i op → op.isGet = false → op.value.length ≤ cfg.valueSize)
    (hfail : ∀ i, a ≠ .fail i) (ha : next cfg L w a = some w') :
    CallInv cfg (ws ++ builtPut w a) w' := by
  cases nextStep_of_next ha with
  | call i op hpc =>
    rw [show builtPut w (.call i op : Act cfg) = [] from rfl, List.append_nil]
    exact h.quiet hpc rfl rfl rfl (hcall i op rfl) (by simp)
  | step i d _ hstep => exact h.callStep hl hstep
  | failReady i => exact absurd rfl (hfail i)
  | failWaiting i => exact absurd rfl (hfail i)
  | process n order horder m =>
    rw [show builtPut w (.process n order horder : Act cfg) = [] from rfl, List.append_nil]
    obtain ⟨hg, hcalls | ⟨op, path, labels, hpc, hcalls⟩⟩ := serve_globals (L := L) w n m order
    · exact h.same hg hcalls
    · have hok : CallOk cfg ws w.globals (.waiting op path) := hpc ▸ h.calls m.call
      exact h.quiet hpc hcalls (by rw [hg]) (by rw [hg]) hok (by simp)

end CallInv

/-! ### The chain of each key -/

/-- The messages of a key that are in flight, in the order of sending. -/
def inFlight (w : World) (key : Bytes) : List Message :=
  w.net.filter fun m => decide (m.entry.keyName = key)

/-- The entries of a key that are under way: those in flight, and then the one
that a call has built, if any. -/
inductive Pending (w : World) (key : Bytes) : List Message → Prop
  | sent : (∀ i m, (w.calls i).unsent i = some m → m.entry.keyName ≠ key) →
    Pending w key (inFlight w key)
  | unsent (i : ℕ) (m : Message) : (w.calls i).unsent i = some m → m.entry.keyName = key →
    Pending w key (inFlight w key ++ [m])

/-- The proxy's view of a key: the last value written, under the key's master
key. -/
def tip (cfg : Config) (ws : List (Bytes × Bytes)) (g : Globals) (key : Bytes) : Cell :=
  (latest ws key).map fun v => (g.masterKeys key, padded v cfg.valueSize)

/-- What is stored, taken through the entries under way, is the proxy's view. -/
structure ChainInv (cfg : Config) (L : Libsodium) (ws : List (Bytes × Bytes))
    (bs : List (ℕ × Bytes)) (w : World) : Prop where
  up : w.serverUp = true
  owned : ∀ i m, (w.calls i).unsent i = some m → Holds w i m.entry.keyName
  chain : ∀ key, ∃ c msgs, w.db key = stored cfg L c ∧ Pending w key msgs ∧
    Chain (Takes cfg L bs key) c msgs (tip cfg ws w.globals key)

section ChainInv

variable {ws : List (Bytes × Bytes)} {bs : List (ℕ × Bytes)} {w w' : World}

theorem chainInv_initial : ChainInv cfg L [] [] (initial cfg none fun _ => none) where
  up := rfl
  owned _ _ h := by cases h
  chain key := ⟨none, [], rfl, .sent (fun _ _ h => by cases h), .nil _⟩

theorem inFlight_congr (h : w'.net = w.net) (key : Bytes) : inFlight w' key = inFlight w key := by
  rw [inFlight, h, inFlight]

/-- Which entries are under way depends on the messages and on what is unsent. -/
theorem Pending.congr {key : Bytes} {msgs : List Message} (h : Pending w key msgs)
    (hnet : inFlight w' key = inFlight w key)
    (hunsent : ∀ i m, m.entry.keyName = key →
      ((w'.calls i).unsent i = some m ↔ (w.calls i).unsent i = some m)) : Pending w' key msgs := by
  cases h with
  | sent hno =>
    rw [← hnet]
    exact .sent fun i m hm hk => hno i m ((hunsent i m hk).mp hm) hk
  | unsent i m hm hk =>
    rw [← hnet]
    exact .unsent i m ((hunsent i m hk).mpr hm) hk

/-- An entry built under the lock goes on from the proxy's view of its key. -/
theorem takes_build {i : ℕ} {d : Draw cfg} {op : Operation} {path : Path} (h : CallInv cfg ws w)
    (hpc : w.calls i = .locked op path) {g : Globals}
    (hg : g.masterKeys op.key = d.masterKey) :
    Takes cfg L (bs ++ builtFrom w (.step i d : Act cfg)) op.key (tip cfg ws w.globals op.key)
      ⟨i, path.method, pathEntry cfg L op (w.globals.masterKeys op.key) d path⟩
      (tip cfg (ws ++ builtPut w (.step i d : Act cfg)) g op.key) := by
  obtain ⟨hfits, hget, hset⟩ : CallOk cfg ws w.globals (.locked op path) := hpc ▸ h.calls i
  have hfrom : (i, w.globals.masterKeys op.key) ∈ bs ++ builtFrom w (.step i d : Act cfg) := by
    simp [builtFrom, hpc]
  have hput : op.isGet = false → tip cfg (ws ++ builtPut w (.step i d : Act cfg)) g op.key =
      some (d.masterKey, padded op.value cfg.valueSize) := fun hop => by
    rw [show builtPut w (.step i d : Act cfg) = [(op.key, op.value)] by simp [builtPut, hpc, hop],
      tip, latest_concat_self, Option.map_some, hg]
  cases path with
  | create =>
    have hop : op.isGet = false := by
      rw [← Bool.not_eq_true]
      exact fun hg => absurd (hget.mpr hg) (by decide)
    rw [hput hop]
    exact .create _ i op.value d (hfits hop)
  | get =>
    obtain ⟨v, hv⟩ := Option.isSome_iff_exists.mp (h.known op.key (hset (by decide)))
    rw [show builtPut w (.step i d : Act cfg) = [] by simp [builtPut, hpc, hget.mp rfl],
      List.append_nil, tip, tip, hv, Option.map_some, Option.map_some, hg]
    exact .get _ _ i d hfrom
  | put =>
    have hop : op.isGet = false := by
      rw [← Bool.not_eq_true]
      exact fun hg => absurd (hget.mpr hg) (by decide)
    obtain ⟨v, hv⟩ := Option.isSome_iff_exists.mp (h.known op.key (hset (by decide)))
    rw [hput hop, tip, hv, Option.map_some]
    exact .put _ _ i op.value d hfrom (hfits hop)

/-- One entry is unsent for a key at a time. -/
theorem ChainInv.unsent_unique (h : ChainInv cfg L ws bs w) (hl : LockInv w) {i j : ℕ}
    {m : Message} {key : Bytes} (hi : Holds w i key) (hj : (w.calls j).unsent j = some m)
    (hm : m.entry.keyName = key) : j = i :=
  hl.unique j i key (hm ▸ h.owned j m hj) hi

theorem ChainInv.quiet (h : ChainInv cfg L ws bs w) (hdb : w'.db = w.db) (hnet : w'.net = w.net)
    (hup : w'.serverUp = w.serverUp) (hmk : w'.globals.masterKeys = w.globals.masterKeys)
    (hunsent : ∀ j, (w'.calls j).unsent j = (w.calls j).unsent j)
    (hhold : ∀ j m, (w.calls j).unsent j = some m → (w'.calls j).holding = (w.calls j).holding) :
    ChainInv cfg L ws bs w' where
  up := hup.trans h.up
  owned i m hm := by
    rw [hunsent] at hm
    obtain ⟨op, hop, hk⟩ := h.owned i m hm
    exact ⟨op, (hhold i m hm).trans hop, hk⟩
  chain key := by
    obtain ⟨c, msgs, h1, h2, h3⟩ := h.chain key
    refine ⟨c, msgs, by rw [hdb, h1], h2.congr (inFlight_congr hnet key) fun i m _ => by rw [hunsent], ?_⟩
    rwa [tip, hmk]

/-- The holder of a key adds its entry at the end of the chain. -/
theorem ChainInv.build {i : ℕ} {d : Draw cfg} {op : Operation} {path : Path}
    (h : ChainInv cfg L ws bs w) (hc : CallInv cfg ws w) (hl : LockInv w)
    (hpc : w.calls i = .locked op path) (hdb : w'.db = w.db) (hnet : w'.net = w.net)
    (hup : w'.serverUp = w.serverUp)
    (hmk : w'.globals.masterKeys = Function.update w.globals.masterKeys op.key d.masterKey)
    (hunsent : (w'.calls i).unsent i =
      some ⟨i, path.method, pathEntry cfg L op (w.globals.masterKeys op.key) d path⟩)
    (hhold : (w'.calls i).holding = some op) (hother : ∀ j, j ≠ i → w'.calls j = w.calls j) :
    ChainInv cfg L (ws ++ builtPut w (.step i d : Act cfg))
      (bs ++ builtFrom w (.step i d : Act cfg)) w' := by
  have hi : Holds w i op.key := ⟨op, by rw [hpc]; rfl, rfl⟩
  have hkey : (pathEntry cfg L op (w.globals.masterKeys op.key) d path).keyName = op.key := by
    cases path <;> rfl
  constructor
  · exact hup.trans h.up
  · intro j m hm
    by_cases hj : j = i
    · rw [hj, hunsent, Option.some.injEq] at hm
      rw [hj, ← hm]
      exact ⟨op, hhold, hkey.symm⟩
    · rw [hother j hj] at hm
      obtain ⟨op', hop, hk⟩ := h.owned j m hm
      exact ⟨op', by rw [hother j hj, hop], hk⟩
  · intro key
    obtain ⟨c, msgs, h1, h2, h3⟩ := h.chain key
    have h3' : Chain (Takes cfg L (bs ++ builtFrom w (.step i d : Act cfg)) key) c msgs _ :=
      h3.mono fun _ _ _ ht => ht.mono fun x hx => List.mem_append_left _ hx
    by_cases hk : key = op.key
    · subst hk
      have hno : ∀ j m, (w.calls j).unsent j = some m → m.entry.keyName ≠ op.key := by
        intro j m hm hmk
        have hji := h.unsent_unique hl hi hm hmk
        rw [hji, hpc] at hm
        cases hm
      cases h2 with
      | unsent j m hm hmk => exact absurd hmk (hno j m hm)
      | sent _ =>
        refine ⟨c, inFlight w op.key ++
          [⟨i, path.method, pathEntry cfg L op (w.globals.masterKeys op.key) d path⟩],
          by rw [hdb, h1], ?_, h3'.concat ?_⟩
        · rw [← inFlight_congr hnet]
          exact .unsent i _ hunsent hkey
        · exact takes_build hc hpc (by rw [hmk, Function.update_self])
    · refine ⟨c, msgs, by rw [hdb, h1], h2.congr (inFlight_congr hnet key) fun j m hmk => ?_, ?_⟩
      · by_cases hj : j = i
        · rw [hj, hunsent, hpc]
          constructor
          · intro hm
            rw [← Option.some.inj hm] at hmk
            exact absurd (hmk.symm.trans hkey) hk
          · intro hm
            cases hm
        · rw [hother j hj]
      · rwa [tip, latest_builtPut_ne _ _ hpc hk, hmk, Function.update_of_ne hk]

/-- Sending moves the entry from its call into flight. -/
theorem ChainInv.send {i : ℕ} {m : Message} (h : ChainInv cfg L ws bs w) (hl : LockInv w)
    (hm : (w.calls i).unsent i = some m) (hdb : w'.db = w.db) (hnet : w'.net = w.net ++ [m])
    (hup : w'.serverUp = w.serverUp) (hmk : w'.globals.masterKeys = w.globals.masterKeys)
    (hunsent : (w'.calls i).unsent i = none) (hother : ∀ j, j ≠ i → w'.calls j = w.calls j) :
    ChainInv cfg L ws bs w' := by
  have hflight : ∀ key, inFlight w' key =
      inFlight w key ++ if m.entry.keyName = key then [m] else [] := by
    intro key
    rw [inFlight, hnet, List.filter_append, inFlight]
    by_cases hk : m.entry.keyName = key <;> simp [hk]
  constructor
  · exact hup.trans h.up
  · intro j m' hm'
    have hj : j ≠ i := by
      rintro rfl
      rw [hunsent] at hm'
      cases hm'
    rw [hother j hj] at hm'
    obtain ⟨op, hop, hk⟩ := h.owned j m' hm'
    exact ⟨op, by rw [hother j hj, hop], hk⟩
  · intro key
    obtain ⟨c, msgs, h1, h2, h3⟩ := h.chain key
    have htip : tip cfg ws w'.globals key = tip cfg ws w.globals key := by rw [tip, tip, hmk]
    rw [← htip] at h3
    by_cases hk : m.entry.keyName = key
    · have hi : Holds w i key := hk ▸ h.owned i m hm
      have hmsgs : msgs = inFlight w' key := by
        rw [hflight, if_pos hk]
        cases h2 with
        | sent hno => exact absurd hk (hno i m hm)
        | unsent j m' hm' hk' =>
          have hji := h.unsent_unique hl hi hm' hk'
          rw [hji, hm, Option.some.injEq] at hm'
          rw [hm']
      refine ⟨c, msgs, by rw [hdb, h1], ?_, h3⟩
      rw [hmsgs]
      refine .sent fun j m' hm' hk' => ?_
      have hj : j ≠ i := by
        rintro rfl
        rw [hunsent] at hm'
        cases hm'
      rw [hother j hj] at hm'
      exact hj (h.unsent_unique hl hi hm' hk')
    · refine ⟨c, msgs, by rw [hdb, h1], h2.congr ?_ fun j m' hk' => ?_, h3⟩
      · rw [hflight, if_neg hk, List.append_nil]
      · by_cases hj : j = i
        · rw [hj, hunsent, hm, Option.some.injEq]
          constructor
          · intro hc
            cases hc
          · rintro rfl
            exact absurd hk' hk
        · rw [hother j hj]

/-- The first message of a key is the first link of its chain. -/
theorem ChainInv.head {n : ℕ} {m : Message} (h : ChainInv cfg L ws bs w) (hm : w.net[n]? = some m)
    (hfirst : ∀ j < n, ∀ m', w.net[j]? = some m' → m'.entry.keyName ≠ m.entry.keyName) :
    ∃ c c' msgs, w.db m.entry.keyName = stored cfg L c ∧ Takes cfg L bs m.entry.keyName c m c' ∧
      Chain (Takes cfg L bs m.entry.keyName) c' msgs (tip cfg ws w.globals m.entry.keyName) ∧
      ∀ w' : World, w'.net = w.net.eraseIdx n →
        (∀ i, (w'.calls i).unsent i = (w.calls i).unsent i) → Pending w' m.entry.keyName msgs := by
  obtain ⟨c, msgs, hdb, hpend, hchain⟩ := h.chain m.entry.keyName
  have hsplit : inFlight w m.entry.keyName =
      m :: (w.net.eraseIdx n).filter fun m' => decide (m'.entry.keyName = m.entry.keyName) :=
    filter_eraseIdx_of_first hm (by simp) fun j hj m' hm' => by simp [hfirst j hj m' hm']
  cases hpend with
  | sent hno =>
    rw [hsplit] at hchain
    obtain _ | ⟨ht, hrest⟩ := hchain
    refine ⟨c, _, _, hdb, ht, hrest, fun w' hnet hunsent => ?_⟩
    rw [← hnet]
    exact .sent fun i m' hm' => hno i m' (by rwa [hunsent] at hm')
  | unsent i u hu hk =>
    rw [hsplit, List.cons_append] at hchain
    obtain _ | ⟨ht, hrest⟩ := hchain
    refine ⟨c, _, _, hdb, ht, hrest, fun w' hnet hunsent => ?_⟩
    rw [← hnet]
    exact .unsent i u (by rw [hunsent, hu]) hk

/-- The server takes the first entry of a key off its chain. -/
theorem ChainInv.receive {n : ℕ} {m : Message} {order : List ℕ} (h : ChainInv cfg L ws bs w)
    (hall : ∀ k < cfg.valueSize * 4, reached cfg k)
    (horder : order.Perm (List.range cfg.serverNumThreads)) (hm : w.net[n]? = some m)
    (hfirst : ∀ j < n, ∀ m', w.net[j]? = some m' → m'.entry.keyName ≠ m.entry.keyName) :
    ChainInv cfg L ws bs (serve cfg L w n m order) := by
  obtain ⟨c, c', msgs, hdb, ht, hrest, hpend⟩ := h.head hm hfirst
  obtain ⟨labels, hlabels, hserve⟩ := serve_takes (n := n) horder hall hdb ht
  -- the reply aside, the server has only taken the message and stored the labels
  have hcore : ∀ w' : World, w'.serverUp = w.serverUp → w'.net = w.net.eraseIdx n →
      w'.db = Function.update w.db m.entry.keyName (some labels) → w'.globals = w.globals →
      (∀ i, (w'.calls i).unsent i = (w.calls i).unsent i) →
      (∀ i u, (w.calls i).unsent i = some u → w'.calls i = w.calls i) → ChainInv cfg L ws bs w' := by
    intro w' hup hnet hdb' hg hunsent hsame
    constructor
    · exact hup.trans h.up
    · intro i u hu
      rw [hunsent] at hu
      obtain ⟨op, hop, hk⟩ := h.owned i u hu
      exact ⟨op, by rw [hsame i u hu, hop], hk⟩
    · intro key
      by_cases hk : key = m.entry.keyName
      · subst hk
        exact ⟨c', msgs, by rw [hdb', Function.update_self, hlabels], hpend w' hnet hunsent,
          by rwa [hg]⟩
      · obtain ⟨c1, msgs1, h1, h2, h3⟩ := h.chain key
        refine ⟨c1, msgs1, by rw [hdb', Function.update_of_ne hk, h1],
          h2.congr ?_ fun i u _ => by rw [hunsent], by rwa [hg]⟩
        rw [inFlight, hnet]
        exact filter_eraseIdx_of_not hm (by simp [Ne.symm hk])
  rw [hserve]
  split
  · exact hcore _ rfl rfl rfl rfl (fun _ => rfl) fun _ _ _ => rfl
  · rcases reply_cases (w.took n m.entry.keyName labels) m.call labels with hr | ⟨op, path, hpc, hr⟩
    · rw [hr]
      exact hcore _ rfl rfl rfl rfl (fun _ => rfl) fun _ _ _ => rfl
    · have hpc' : w.calls m.call = .waiting op path := hpc
      rw [hr]
      refine hcore _ rfl rfl rfl rfl (fun i => ?_) fun i u hu => ?_
      · by_cases hi : i = m.call
        · rw [hi, goto_calls_self, hpc']; rfl
        · exact congrArg _ (goto_calls_ne _ _ _ hi)
      · have hi : i ≠ m.call := by
          rintro rfl
          rw [hpc'] at hu
          cases hu
        exact goto_calls_ne _ _ _ hi

end ChainInv

/-! ### Runs -/

/-- The server processes the messages of each key in the order of sending. -/
def InOrder (w : World) (a : Act cfg) : Prop :=
  ∀ n order h m, a = .process n order h → w.net[n]? = some m →
    ∀ j < n, ∀ m', w.net[j]? = some m' → m'.entry.keyName ≠ m.entry.keyName

/-- No RPC fails, and the values that are put fit. -/
structure Regular (a : Act cfg) : Prop where
  no_failure : ∀ i, a ≠ .fail i
  fits : ∀ i op, a = .call i op → op.isGet = false → op.value.length ≤ cfg.valueSize

/-- The PUTs of a run that were not aborted, in the order of their keys' locks. -/
def puts (cfg : Config) (L : Libsodium) (as : List (Act cfg)) : List (Bytes × Bytes) :=
  collect (next cfg L) builtPut (initial cfg none fun _ => none) as

/-- The calls of a run that built an entry, each with the master key that it
was built against. -/
def builds (cfg : Config) (L : Libsodium) (as : List (Act cfg)) : List (ℕ × Bytes) :=
  collect (next cfg L) builtFrom (initial cfg none fun _ => none) as

/-- With one server thread, or one byte, every slot is opened. -/
theorem all_reached (hS : cfg.serverNumThreads = 1 ∨ cfg.valueSize = 1) :
    ∀ k < cfg.valueSize * 4, reached cfg k := fun _ hk =>
  hS.elim (fun h => reached_of_single h hk) fun h => reached_of_size_one h hk

/-- A regular step in order keeps the chains whole. -/
theorem chain_step (hS : cfg.serverNumThreads = 1 ∨ cfg.valueSize = 1) {as : List (Act cfg)}
    {a : Act cfg} {w w' : World} (hrun : run (next cfg L) (initial cfg none fun _ => none) as = some w)
    (hc : CallInv cfg (puts cfg L as) w)
    (hch : ChainInv cfg L (puts cfg L as) (builds cfg L as) w) (ha : Regular a) (hord : InOrder w a)
    (hnext : next cfg L w a = some w') : CallInv cfg (puts cfg L (as ++ [a])) w' ∧
      ChainInv cfg L (puts cfg L (as ++ [a])) (builds cfg L (as ++ [a])) w' := by
  have hl := lockInv_run hrun
  have hputs : puts cfg L (as ++ [a]) = puts cfg L as ++ builtPut w a :=
    collect_concat (next cfg L) builtPut hrun hnext
  have hbuilds : builds cfg L (as ++ [a]) = builds cfg L as ++ builtFrom w a :=
    collect_concat (next cfg L) builtFrom hrun hnext
  rw [hputs, hbuilds]
  refine ⟨hc.step hl ha.fits ha.no_failure hnext, ?_⟩
  cases netStep_of_next ha.no_failure hc.locked_fits hnext with
  | quiet hdb hnet hup hmk hunsent hhold hput hfrom =>
    rw [hput, hfrom, List.append_nil, List.append_nil]
    exact hch.quiet hdb hnet hup hmk hunsent hhold
  | build i d op path hact hpc _ hdb hnet hup hmk hunsent hhold hother =>
    subst hact
    exact hch.build hc hl hpc hdb hnet hup hmk hunsent hhold hother
  | send i m hm hdb hnet hup hmk hunsent _ hother hput hfrom =>
    rw [hput, hfrom, List.append_nil, List.append_nil]
    exact hch.send hl hm hdb hnet hup hmk hunsent hother
  | receive n m order horder hact hup hm hw' =>
    subst hact hw'
    rw [show builtPut w (.process n order horder : Act cfg) = [] from rfl,
      show builtFrom w (.process n order horder : Act cfg) = [] from rfl, List.append_nil, List.append_nil]
    exact hch.receive (all_reached hS) horder hm (hord n order horder m rfl hm)

/-- The chains are whole in every state of a regular run in order. -/
theorem chain_run (hS : cfg.serverNumThreads = 1 ∨ cfg.valueSize = 1) {as : List (Act cfg)}
    {w : World} (hrun : run (next cfg L) (initial cfg none fun _ => none) as = some w)
    (hreg : Along (next cfg L) (fun w a => Regular a ∧ InOrder w a) (initial cfg none fun _ => none) as) :
    CallInv cfg (puts cfg L as) w ∧ ChainInv cfg L (puts cfg L as) (builds cfg L as) w :=
  run_inv (next cfg L) (fun as w => CallInv cfg (puts cfg L as) w ∧
    ChainInv cfg L (puts cfg L as) (builds cfg L as) w) ⟨callInv_initial _, chainInv_initial⟩
    (fun _ _ _ _ hrun hI ha hnext => chain_step hS hrun hI.1 hI.2 ha.1 ha.2 hnext) hreg hrun

/-- In order, an access finds the labels that it was built against; and where
nothing is in flight for a key and no call holds its lock, the server has the
labels of the last value written, under the proxy's master key. -/
theorem store_follows_proxy (cfg : Config) (L : Libsodium)
    (hS : cfg.serverNumThreads = 1 ∨ cfg.valueSize = 1) {as : List (Act cfg)} {w : World}
    (hrun : run (next cfg L) (initial cfg none fun _ => none) as = some w)
    (hreg : Along (next cfg L) (fun w a => Regular a ∧ InOrder w a)
      (initial cfg none fun _ => none) as) :
    w.serverUp = true ∧
    (∀ (n : ℕ) (m : Message), w.net[n]? = some m → m.method = .access →
      (∀ j < n, ∀ m' : Message, w.net[j]? = some m' → m'.entry.keyName ≠ m.entry.keyName) →
      ∃ mk v, (m.call, mk) ∈ builds cfg L as ∧
        w.db m.entry.keyName = some (labelString L cfg.valueSize mk v) ∧
        AllOpen cfg L (labelString L cfg.valueSize mk v) m.entry) ∧
    ∀ key, (∀ m ∈ w.net, m.entry.keyName ≠ key) → (∀ i, ¬ Holds w i key) →
      w.db key = (latest (puts cfg L as) key).map (fun v =>
        labelString L cfg.valueSize (w.globals.masterKeys key) (padded v cfg.valueSize)) ∧
      ∀ v, latest (puts cfg L as) key = some v → w.globals.valueSizes key = v.length := by
  obtain ⟨hc, hch⟩ := chain_run hS hrun hreg
  refine ⟨hch.up, fun n m hm haccess hfirst => ?_, fun key hnet hfree => ⟨?_, fun v hv => ?_⟩⟩
  · obtain ⟨c, c', msgs, hdb, ht, -⟩ := hch.head hm hfirst
    obtain ⟨mk, v, rfl, hbuilt, hopen⟩ := ht.access haccess
    exact ⟨mk, v, hbuilt, hdb, hopen⟩
  · obtain ⟨c, msgs, hdb, hpend, hchain⟩ := hch.chain key
    have hnone : inFlight w key = [] := List.filter_eq_nil_iff.mpr fun m hm => by simpa using hnet m hm
    cases hpend with
    | sent hno =>
      rw [hnone] at hchain
      rw [hdb, hchain.eq_of_nil, stored, tip, Option.map_map]
      rfl
    | unsent i m hm hk => exact absurd (hk ▸ hch.owned i m hm) (hfree i)
  · apply (hc.sized key v hv).resolve_right
    rintro ⟨i, op, path, entry, hpc, hk⟩
    exact hfree i ⟨op, by rw [hpc]; rfl, hk⟩

/-! ### An overtaken `create` -/

section Overtaken

def firstPut : Operation := ⟨ascii ['P', 'U', 'T'], ascii ['0'], ascii ['v']⟩

def firstGet : Operation := ⟨ascii ['G', 'E', 'T'], ascii ['0'], []⟩

/-- Draws with a master key of one byte, repeated. -/
def drawOf (cfg : Config) (c : UInt8) : Draw cfg := plainDraw cfg (List.replicate 32 c)

/-- A PUT that has returned. -/
def putRun (cfg : Config) : List (Act cfg) :=
  .call 0 firstPut :: List.replicate 8 (.step 0 (drawOf cfg 1))

/-- A GET that waits for its reply. -/
def getRun (cfg : Config) : List (Act cfg) :=
  .call 1 firstGet :: List.replicate 4 (.step 1 (drawOf cfg 2))

def putMessage (cfg : Config) : Message :=
  ⟨0, .create, createEntry cfg Libsodium.plain firstPut.key firstPut.value (drawOf cfg 1)⟩

def getMessage (cfg : Config) : Message :=
  ⟨1, .access, getEntry cfg Libsodium.plain firstGet.key (List.replicate 32 1) (drawOf cfg 2)⟩

/-- After the PUT: it has returned and its message is in flight. -/
def afterPut (cfg : Config) : World where
  globals := (((((opScureSetup cfg none).setLock firstPut.key false).rekey firstPut.key
    (List.replicate 32 1)).setSize
    firstPut.key firstPut.value.length).insertKey firstPut.key).setLock firstPut.key true
  accesses := 1
  aborted := 0
  calls := Function.update (fun _ => .idle) 0 (.returned firstPut [])
  net := [putMessage cfg]
  db := fun _ => none
  serverUp := true

theorem regular_of_value {i : ℕ} {op : Operation} (h : op.value.length ≤ cfg.valueSize) :
    Regular (.call i op : Act cfg) where
  no_failure _ := by simp
  fits j op' hact _ := by
    obtain ⟨-, rfl⟩ := Act.call.inj hact
    exact h

theorem regular_step (i : ℕ) (d : Draw cfg) : Regular (.step i d : Act cfg) where
  no_failure _ := by simp
  fits _ _ h := by cases h

theorem regular_process (n : ℕ) (order : List ℕ)
    (h : order.Perm (List.range cfg.serverNumThreads)) : Regular (.process n order h : Act cfg) where
  no_failure _ := by simp
  fits _ _ h := by cases h

theorem regular_putRun : ∀ a ∈ putRun cfg, Regular a := by
  intro a ha
  rcases List.mem_cons.mp ha with rfl | ha
  · exact regular_of_value cfg.valueSize_pos
  · rw [List.eq_of_mem_replicate ha]
    exact regular_step _ _

theorem regular_getRun : ∀ a ∈ getRun cfg, Regular a := by
  intro a ha
  rcases List.mem_cons.mp ha with rfl | ha
  · exact regular_of_value (Nat.zero_le _)
  · rw [List.eq_of_mem_replicate ha]
    exact regular_step _ _

theorem run_putRun (hkey : 1 ≤ cfg.keyMax) : run (next cfg Libsodium.plain)
    (initial cfg none fun _ => none) (putRun cfg) = some (afterPut cfg) := by
  have hlock : (initial cfg none fun _ => none).globals.locks firstPut.key = some true := by
    rw [initial_locks]
    exact setupLocks_eq_true_iff.mpr ⟨0, hkey, by decide⟩
  exact run_create _ rfl rfl (by decide) hlock cfg.valueSize_pos

theorem afterPut_keySet : (afterPut cfg).globals.keySet firstGet.key = true := by
  have hkey : firstGet.key = firstPut.key := rfl
  simp [afterPut, hkey, Globals.setLock, Globals.insertKey]

theorem afterPut_locks : (afterPut cfg).globals.locks firstGet.key = some true := by
  have hkey : firstGet.key = firstPut.key := rfl
  simp [afterPut, hkey, Globals.setLock]

theorem run_getRun : ∃ w, run (next cfg Libsodium.plain) (afterPut cfg) (getRun cfg) = some w ∧
    w.net = [putMessage cfg, getMessage cfg] ∧ w.db = (fun _ => none) ∧
    w.calls 0 = .returned firstPut [] ∧ w.serverUp = true := by
  have hkey : firstGet.key = firstPut.key := rfl
  have hmk : (afterPut cfg).globals.masterKeys firstGet.key = List.replicate 32 1 := by
    simp [afterPut, hkey, Globals.setLock, Globals.insertKey, Globals.setSize, Globals.rekey]
  refine ⟨_, run_get_sent _ rfl afterPut_keySet (by decide) afterPut_locks, ?_, rfl, rfl, rfl⟩
  rw [goto_net, hmk]
  rfl

/-- The PUT is processed before anything else happens. -/
theorem store_follows_proxy_put : ∃ w, run (next constants.single Libsodium.plain)
      (initial constants.single none fun _ => none)
      (putRun _ ++ [.process 0 [0] (List.Perm.refl _)]) = some w ∧
    w.db firstPut.key = (latest (puts constants.single Libsodium.plain
      (putRun _ ++ [.process 0 [0] (List.Perm.refl _)])) firstPut.key).map fun v =>
        labelString Libsodium.plain 160 (w.globals.masterKeys firstPut.key) (padded v 160) := by
  have hrun : run (next constants.single Libsodium.plain) (initial constants.single none fun _ => none)
      (putRun _ ++ [.process 0 [0] (List.Perm.refl _)]) =
        some (serve constants.single Libsodium.plain (afterPut constants.single) 0
          (putMessage constants.single) [0]) := by
    rw [run_append, run_putRun (by decide)]
    rfl
  refine ⟨_, hrun, ((store_follows_proxy constants.single Libsodium.plain (Or.inl rfl) hrun
    ?_).2.2 firstPut.key ?_ ?_).1⟩
  · refine Along.mono _ (fun w a h => h w) (along_of_forall (next constants.single Libsodium.plain) _
      (C := fun a => ∀ w, Regular a ∧ InOrder w a) fun a ha w => ?_)
    rcases List.mem_append.mp ha with ha | ha
    · refine ⟨regular_putRun a ha, fun n order h m hact => ?_⟩
      rw [hact] at ha
      simp [putRun] at ha
    · rw [List.mem_singleton.mp ha]
      refine ⟨regular_process _ _ _, fun n order h m hact _ j hj => ?_⟩
      obtain ⟨rfl, -⟩ := Act.process.inj hact
      exact absurd hj (Nat.not_lt_zero j)
  · intro m hm
    simp [serve, putMessage, afterPut] at hm
  · rintro i ⟨op, hop, -⟩
    have hcalls : (serve constants.single Libsodium.plain (afterPut constants.single) 0
      (putMessage constants.single) [0]).calls = (afterPut constants.single).calls := rfl
    rw [hcalls] at hop
    by_cases hi : i = 0
    · rw [hi] at hop; cases hop
    · have hidle : (afterPut constants.single).calls i = .idle := by
        simp [afterPut, hi]
      rw [hidle] at hop
      cases hop

/-- A GET that follows a PUT that has returned: its message is in flight with
the `create` of the PUT, and a server that takes it first has no labels for
it. -/
theorem access_overtakes_create : ∃ as w, run (next constants Libsodium.plain)
      (initial constants none fun _ => none) as = some w ∧
    (∀ a ∈ as, Regular a) ∧ w.calls 0 = .returned firstPut [] ∧ w.serverUp = true ∧
    w.net[1]? = some (getMessage constants) ∧ (getMessage constants).method = .access ∧
    w.db (getMessage constants).entry.keyName = none := by
  have hget : ∃ w, run (next constants Libsodium.plain) (afterPut constants) (getRun _) = some w ∧
    w.net = [putMessage _, getMessage _] ∧ w.db = (fun _ => none) ∧
    w.calls 0 = .returned firstPut [] ∧ w.serverUp = true := run_getRun
  obtain ⟨w, hrun, hnet, hdb, hcall, hup⟩ := hget
  refine ⟨putRun _ ++ getRun _, w, ?_, fun a ha => ?_, hcall, hup, by rw [hnet]; rfl, rfl, by rw [hdb]⟩
  · rw [run_append, run_putRun (by decide), Option.bind_some, hrun]
  · exact (List.mem_append.mp ha).elim (regular_putRun a) (regular_getRun a)

end Overtaken

end Proxy
end Lbl
end Ortoa
