/-
# What a restart finds

What ties the data file to the server's database is `tip`, what the server
will store for a key once it has processed all messages for it. Between two
commands the globals agree with it (`Settled`), and so does a file that is
saved then. But `masterKeys[key]` is replaced some statements before the entry
is sent, and `SIGINT` in between saves a master key that the server never gets
(`interrupted_get`); and an exception keeps the file that was loaded, while
every access since has taken its key to another master key. In runs without
these the file agrees with the database at every start (`restart_agrees`).

Key definitions: `Clean`, `Content`, `Takes`, `Settled`, `NetInv`, `FileInv`, `Inv`.
Key theorems: `NetInv.serve`, `Inv.step`, `restart_agrees`, `interrupted_get`.
-/
import Ortoa.Lbl.Restart
import Ortoa.Chain

namespace Ortoa
namespace Lbl
namespace Restart

open Client (Operation)

/-! ### Ends that leave the two stores together -/

section Clean

variable {cfg : Config}

/-- No access of this process has changed a key of the file. -/
def Unchanged (w : World cfg) : Prop :=
  ∀ f, w.file = some f → ∀ key ∈ w.accessed, f.keySet key = false

/-- `SIGINT` does not come between the replacement of a master key and the
RPC that tells the server, or between `keySet.insert` and `client.create`; a
process that ends without saving has not changed a key of its data file; and
the server processes the messages for each key in the order of sending. -/
def Clean (w : World cfg) : Act cfg → Prop
  | .sigint =>
    match w.pc with
    | .built _ path _ => path = .create
    | .ready _ _ _ => False
    | _ => True
  | .fail => Unchanged w
  | .step _ =>
    match w.pc with
    | .building op path => path ≠ .get → cfg.valueSize < op.value.length → Unchanged w
    | _ => True
  | .serve n _ _ => ∀ m, w.net[n]? = some m → ∀ j < n, ∀ m', w.net[j]? = some m' →
      m'.op.key ≠ m.op.key
  | .start => True
  | .command _ => True

end Clean

/-! ### What a message does to its key -/

/-- What the server stores for a key, in the client's terms. -/
structure Content (cfg : Config) where
  masterKey : Bytes
  value : Bytes
  fits : value.length ≤ cfg.valueSize

def Content.labels {cfg : Config} (L : Libsodium) (c : Content cfg) : Bytes :=
  labelString L cfg.valueSize c.masterKey (padded c.value cfg.valueSize)

section Messages

variable {cfg : Config} {L : Libsodium}

/-- The entry of `op` takes its key from one content to the next: a `create`
whatever there is, an access from the master key it was built against. -/
inductive Takes (L : Libsodium) (op : Operation) :
    Option (Content cfg) → Path → Entry → Content cfg → Prop
  | create (c : Option (Content cfg)) (d : Draw cfg) (hfits : op.value.length ≤ cfg.valueSize) :
    op.type = .put →
    Takes L op c .create (createEntry cfg L op.key op.value d) ⟨d.masterKey, op.value, hfits⟩
  | get (c : Content cfg) (d : Draw cfg) : op.type ≠ .put →
    Takes L op (some c) .get (getEntry cfg L op.key c.masterKey d) ⟨d.masterKey, c.value, c.fits⟩
  | put (c : Content cfg) (d : Draw cfg) (hfits : op.value.length ≤ cfg.valueSize) :
    op.type = .put → Takes L op (some c) .put (putEntry cfg L op.key c.masterKey op.value d)
      ⟨d.masterKey, op.value, hfits⟩

/-- The same for a message. -/
def Delivers (L : Libsodium) (c : Option (Content cfg)) (m : Message) (c' : Option (Content cfg)) :
    Prop :=
  ∃ x, c' = some x ∧ Takes L m.op c m.path m.entry x

/-- The PUT that a message carries. -/
def Message.writes (m : Message) : List (Bytes × Bytes) :=
  if m.op.type = .put then [(m.op.key, m.op.value)] else []

/-- The messages in flight for a key, oldest first. -/
def inFlight (w : World cfg) (key : Bytes) : List Message :=
  w.net.filter fun m => m.op.key = key

/-- The server with message `n` processed and `labels` stored for the key. -/
def World.took (w : World cfg) (n : ℕ) (key labels : Bytes) : World cfg :=
  { w with net := w.net.eraseIdx n, db := Function.update w.db key (some labels) }

/-- Processing a message that takes what is stored for its key stores the next
content. -/
theorem serve_takes {w : World cfg} {n : ℕ} {m : Message} {order : List ℕ}
    {c : Option (Content cfg)} {x : Content cfg}
    (horder : order.Perm (List.range cfg.serverNumThreads))
    (hall : ∀ k < cfg.valueSize * 4, reached cfg k)
    (hdb : w.db m.op.key = c.map (Content.labels L)) (h : Takes L m.op c m.path m.entry x) :
    serve L w n m order = if m.path = .create then w.took n m.op.key (x.labels L)
      else (w.took n m.op.key (x.labels L)).reply m.session (x.labels L) := by
  obtain ⟨session, op, path, entry⟩ := m
  simp only at hdb h
  cases h with
  | create c d hfits hput => rfl
  | get c d hget =>
    have hacc := access_getEntry (L := L) d horder hdb hall
    simp only [serve, hacc]
    rfl
  | put c d hfits hput =>
    have hacc := access_putEntry (L := L) op.value d horder hdb hall
    simp only [serve, hacc]
    rfl

/-- The database, the messages in flight and what they lead to. -/
structure NetInv (L : Libsodium) (tip : Bytes → Option (Content cfg)) (ws : List (Bytes × Bytes))
    (w : World cfg) : Prop where
  up : w.serverUp = true
  chain : ∀ key, ∃ c : Option (Content cfg), w.db key = c.map (Content.labels L) ∧
    Chain (Delivers L) c (inFlight w key) (tip key) ∧ c.map Content.value = latest ws key
  sessions : ∀ m ∈ w.net, m.session ≤ w.session

variable {tip : Bytes → Option (Content cfg)} {ws : List (Bytes × Bytes)} {w w' : World cfg}

theorem netInv_initial : NetInv L (fun _ => none) [] (initial cfg) where
  up := rfl
  chain _ := ⟨none, rfl, .nil none, rfl⟩
  sessions _ h := nomatch h

/-- A step that neither sends nor processes a message. -/
theorem NetInv.quiet (h : NetInv L tip ws w) (hup : w'.serverUp = w.serverUp) (hdb : w'.db = w.db)
    (hnet : w'.net = w.net) (hsession : w.session ≤ w'.session) : NetInv L tip ws w' where
  up := hup ▸ h.up
  chain key := by
    rw [hdb, inFlight, hnet]
    exact h.chain key
  sessions m hm := (h.sessions m (hnet ▸ hm)).trans hsession

/-- A message is sent. -/
theorem NetInv.send (h : NetInv L tip ws w) {op : Operation} {path : Path} {entry : Entry}
    {x : Content cfg} (ht : Takes L op (tip op.key) path entry x) :
    NetInv L (Function.update tip op.key (some x)) ws (w.send op path entry) := by
  constructor
  · exact h.up
  · intro key
    obtain ⟨c, hdb, hchain, hlast⟩ := h.chain key
    refine ⟨c, hdb, ?_, hlast⟩
    have hflight : inFlight (w.send op path entry) key =
        inFlight w key ++ [(⟨w.session, op, path, entry⟩ : Message)].filter fun m => m.op.key = key := by
      rw [inFlight, World.send, List.filter_append, inFlight]
    rw [hflight]
    by_cases hk : op.key = key
    · subst hk
      rw [List.filter_cons_of_pos (by simp), List.filter_nil, Function.update_self]
      exact hchain.concat ⟨x, rfl, ht⟩
    · rw [List.filter_cons_of_neg (by simp [hk]), List.filter_nil, List.append_nil,
        Function.update_of_ne (Ne.symm hk)]
      exact hchain
  · intro m hm
    rcases List.mem_append.mp hm with hm | hm
    · exact h.sessions m hm
    · rw [List.mem_singleton.mp hm]
      exact Nat.le_refl _

/-- A message is processed, the first one for its key: the chain of the key is
one message shorter. -/
theorem NetInv.serve (h : NetInv L tip ws w) (hall : ∀ k < cfg.valueSize * 4, reached cfg k) {n : ℕ}
    {m : Message} {order : List ℕ} (horder : order.Perm (List.range cfg.serverNumThreads))
    (hm : w.net[n]? = some m) (hfirst : ∀ j < n, ∀ m', w.net[j]? = some m' → m'.op.key ≠ m.op.key) :
    NetInv L tip (ws ++ m.writes) (serve L w n m order) := by
  obtain ⟨c, hdb, hchain, hlast⟩ := h.chain m.op.key
  have hflight : inFlight w m.op.key = m :: (w.net.eraseIdx n).filter fun m' => m'.op.key = m.op.key :=
    filter_eraseIdx_of_first hm (by simp) fun j hj m' hm' => by simpa using hfirst j hj m' hm'
  rw [hflight] at hchain
  obtain ⟨x, ht, hrest⟩ : ∃ x, Takes L m.op c m.path m.entry x ∧
      Chain (Delivers L) (some x) ((w.net.eraseIdx n).filter fun m' => m'.op.key = m.op.key)
        (tip m.op.key) := by
    cases hchain with
    | cons hd hrest =>
      obtain ⟨x, rfl, ht⟩ := hd
      exact ⟨x, ht, hrest⟩
  have hwrite : some x.value = latest (ws ++ m.writes) m.op.key := by
    unfold Message.writes
    obtain ⟨session, op, path, entry⟩ := m
    simp only at ht hlast ⊢
    cases ht with
    | create c d hfits hput => rw [if_pos hput, latest_concat_self]
    | get c d hget => rw [if_neg hget, List.append_nil, ← hlast]; rfl
    | put c d hfits hput => rw [if_pos hput, latest_concat_self]
  have hother : ∀ key, key ≠ m.op.key → latest (ws ++ m.writes) key = latest ws key := by
    intro key hk
    unfold Message.writes
    split
    · exact latest_concat_ne _ _ hk
    · rw [List.append_nil]
  have htook : NetInv L tip (ws ++ m.writes) (w.took n m.op.key (x.labels L)) := by
    constructor
    · exact h.up
    · intro key
      by_cases hk : key = m.op.key
      · subst hk
        exact ⟨some x, Function.update_self _ _ _, hrest, hwrite⟩
      · obtain ⟨c', hdb', hchain', hlast'⟩ := h.chain key
        refine ⟨c', (Function.update_of_ne hk _ _).trans hdb', ?_, by rw [hother key hk, hlast']⟩
        have hskip : inFlight (w.took n m.op.key (x.labels L)) key = inFlight w key :=
          filter_eraseIdx_of_not hm (by simpa using Ne.symm hk)
        rw [hskip]
        exact hchain'
    · exact fun m' hm' => h.sessions m' (List.mem_of_mem_eraseIdx hm')
  rw [serve_takes horder hall hdb ht]
  split
  · exact htook
  · rcases reply_cases (w.took n m.op.key (x.labels L)) m.session (x.labels L) with hr | ⟨op, path, -, hr⟩
    · rw [hr]
      exact htook
    · rw [hr]
      exact htook.quiet rfl rfl rfl (Nat.le_refl _)

end Messages

/-! ### What the client and the file know -/

section Knowledge

variable {cfg : Config} {L : Libsodium} {tip : Bytes → Option (Content cfg)}

/-- A master key and a size for what a key leads to. -/
def Agree (c : Option (Content cfg)) (masterKey : Bytes) (size : ℕ) : Prop :=
  ∃ x, c = some x ∧ x.masterKey = masterKey ∧ x.value.length = size

/-- An entry for a key, and the master key and size that go with it. -/
def Owes (L : Libsodium) (c : Option (Content cfg)) (op : Operation) (path : Path) (entry : Entry)
    (masterKey : Bytes) (size : ℕ) : Prop :=
  ∃ x, Takes L op c path entry x ∧ x.masterKey = masterKey ∧ x.value.length = size

/-- The globals agree with the tip of every key. -/
def Settled (tip : Bytes → Option (Content cfg)) (g : Globals) : Prop :=
  ∀ key, g.keySet key = true → Agree (tip key) (g.masterKeys key) (g.valueSizes key)

/-- But for the key of the entry that is being made. -/
def SettledBut (tip : Bytes → Option (Content cfg)) (g : Globals) (op : Operation) : Prop :=
  ∀ key, key ≠ op.key → g.keySet key = true → Agree (tip key) (g.masterKeys key) (g.valueSizes key)

/-- What is known of the client at each statement. -/
def MainOk (L : Libsodium) (tip : Bytes → Option (Content cfg)) (file : Option Saved) (g : Globals) :
    Pc cfg → Prop
  | .stopped => True
  | .prompt => Settled tip g
  | .parsed _ => Settled tip g
  | .building op path => Settled tip g ∧ (g.keySet op.key = true ↔ path ≠ .create) ∧
    (op.type = .put ↔ path ≠ .get)
  | .emptied op => Settled tip g ∧ g.keySet op.key = false ∧ op.type = .put ∧
    op.value.length ≤ cfg.valueSize
  | .keyed op d => Settled tip g ∧ g.keySet op.key = false ∧ op.type = .put ∧
    op.value.length ≤ cfg.valueSize ∧ g.masterKeys op.key = d.masterKey
  | .encrypted op path entry mk => Settled tip g ∧ g.keySet op.key = true ∧ path ≠ .create ∧
    Owes L (tip op.key) op path entry mk
      (if path = .get then g.valueSizes op.key else op.value.length)
  | .built op path entry => SettledBut tip g op ∧ (g.keySet op.key = true ↔ path ≠ .create) ∧
    Owes L (tip op.key) op path entry (g.masterKeys op.key) op.value.length
  | .sized op entry => SettledBut tip g op ∧ g.keySet op.key = false ∧
    Owes L (tip op.key) op .create entry (g.masterKeys op.key) (g.valueSizes op.key)
  | .ready op path entry => SettledBut tip g op ∧
    (path = .create → ∀ f, file = some f → f.keySet op.key = false) ∧
    Owes L (tip op.key) op path entry (g.masterKeys op.key) (g.valueSizes op.key)
  | .waiting _ _ => Settled tip g
  | .replied _ _ _ => Settled tip g

/-- The file agrees with the tip of every key that has not been accessed since
it was read or written; the keys of the file are known to the process. -/
structure FileInv (tip : Bytes → Option (Content cfg)) (w : World cfg) : Prop where
  agrees : ∀ f, w.file = some f → ∀ key, f.keySet key = true → key ∉ w.accessed →
    Agree (tip key) (f.masterKeys key) (f.valueSizes key)
  known : w.pc ≠ .stopped → ∀ f, w.file = some f → ∀ key, f.keySet key = true →
    w.globals.keySet key = true
  stopped : w.pc = .stopped → w.accessed = []

variable {g g' : Globals} {op : Operation}

/-- A key that is not in `keySet` need not agree. -/
theorem SettledBut.settled (h : SettledBut tip g op) (hset : g.keySet op.key = false) :
    Settled tip g := by
  intro key hkey
  refine h key ?_ hkey
  rintro rfl
  rw [hset] at hkey
  cases hkey

theorem Settled.but (h : Settled tip g) (op : Operation) : SettledBut tip g op :=
  fun key _ hkey => h key hkey

/-- A change at the key of the entry only. -/
theorem SettledBut.congr (h : SettledBut tip g op)
    (hset : ∀ key, key ≠ op.key → g'.keySet key = g.keySet key)
    (hmk : ∀ key, key ≠ op.key → g'.masterKeys key = g.masterKeys key)
    (hsize : ∀ key, key ≠ op.key → g'.valueSizes key = g.valueSizes key) : SettledBut tip g' op := by
  intro key hk hkey
  rw [hset key hk] at hkey
  rw [hmk key hk, hsize key hk]
  exact h key hk hkey

theorem SettledBut.rekey (h : SettledBut tip g op) (mk : Bytes) :
    SettledBut tip (g.rekey op.key mk) op :=
  h.congr (fun _ _ => rfl) (fun _ hk => Function.update_of_ne hk _ _) fun _ _ => rfl

theorem SettledBut.setSize (h : SettledBut tip g op) (n : ℕ) :
    SettledBut tip (g.setSize op.key n) op :=
  h.congr (fun _ _ => rfl) (fun _ _ => rfl) fun _ hk => Function.update_of_ne hk _ _

theorem SettledBut.insertKey (h : SettledBut tip g op) : SettledBut tip (g.insertKey op.key) op :=
  h.congr (fun _ hk => Function.update_of_ne hk _ _) (fun _ _ => rfl) fun _ _ => rfl

/-- The entry is sent: the tip of its key is what the globals say. -/
theorem SettledBut.send (h : SettledBut tip g op) {x : Content cfg}
    (hmk : x.masterKey = g.masterKeys op.key) (hsize : x.value.length = g.valueSizes op.key) :
    Settled (Function.update tip op.key (some x)) g := by
  intro key hkey
  by_cases hk : key = op.key
  · subst hk
    rw [Function.update_self]
    exact ⟨x, rfl, hmk, hsize⟩
  · rw [Function.update_of_ne hk]
    exact h key hk hkey

/-- What `OpScureCleanup` saves between two commands agrees. -/
theorem FileInv.save {w : World cfg} (h : Settled tip w.globals) : FileInv tip w.save where
  agrees f hf key hkey _ := by
    rw [← Option.some.inj hf] at hkey ⊢
    exact h key hkey
  known hpc := absurd rfl hpc
  stopped _ := rfl

theorem FileInv.abandon {w : World cfg} (h : FileInv tip w) (hunchanged : Unchanged w) :
    FileInv tip w.abandon where
  agrees f hf key hkey _ := by
    refine h.agrees f hf key hkey fun hmem => ?_
    rw [hunchanged f hf key hmem] at hkey
    cases hkey
  known hpc := absurd rfl hpc
  stopped _ := rfl

/-- The file is not touched, and the process keeps the keys it has. -/
theorem FileInv.keep {w w' : World cfg} (h : FileInv tip w) (hpc : w.pc ≠ .stopped)
    (hpc' : w'.pc ≠ .stopped) (hfile : w'.file = w.file) (haccessed : w'.accessed = w.accessed)
    (hset : ∀ key, w.globals.keySet key = true → w'.globals.keySet key = true) : FileInv tip w' where
  agrees f hf key hkey hnot := h.agrees f (hfile ▸ hf) key hkey (haccessed ▸ hnot)
  known _ f hf key hkey := hset key (h.known hpc f (hfile ▸ hf) key hkey)
  stopped hstop := absurd hstop hpc'

/-- An entry is sent for a key that is then accessed, or not in the file. -/
theorem FileInv.send {w w' : World cfg} (h : FileInv tip w) {x : Option (Content cfg)}
    (hpc : w.pc ≠ .stopped) (hpc' : w'.pc ≠ .stopped) (hfile : w'.file = w.file)
    (haccessed : ∀ key, key ∈ w.accessed → key ∈ w'.accessed)
    (hkey : op.key ∈ w'.accessed ∨ ∀ f, w.file = some f → f.keySet op.key = false)
    (hset : w'.globals.keySet = w.globals.keySet) :
    FileInv (Function.update tip op.key x) w' where
  agrees f hf key hk hnot := by
    have hne : key ≠ op.key := by
      rintro rfl
      rcases hkey with hmem | hfree
      · exact hnot hmem
      · rw [hfree f (hfile ▸ hf)] at hk
        cases hk
    rw [Function.update_of_ne hne]
    exact h.agrees f (hfile ▸ hf) key hk fun hmem => hnot (haccessed key hmem)
  known _ f hf key hk := by
    rw [hset]
    exact h.known hpc f (hfile ▸ hf) key hk
  stopped hstop := absurd hstop hpc'

/-- A start reads what the tips agree with. -/
theorem FileInv.settled {w : World cfg} (h : FileInv tip w) (hpc : w.pc = .stopped) :
    Settled tip (opScureSetup cfg w.file) := by
  intro key hkey
  cases hf : w.file with
  | none =>
    rw [hf] at hkey
    cases hkey
  | some f =>
    rw [hf] at hkey
    apply h.agrees f hf key hkey
    rw [h.stopped hpc]
    exact List.not_mem_nil

end Knowledge

/-! ### The invariant -/

section Invariant

variable {cfg : Config} {L : Libsodium}

/-- The PUTs that the server applies in a step. -/
def appliedIn (w : World cfg) : Act cfg → List (Bytes × Bytes)
  | .serve n _ _ => (w.net[n]?.map Message.writes).getD []
  | .start => []
  | .command _ => []
  | .step _ => []
  | .fail => []
  | .sigint => []

theorem fileInv_initial : FileInv (fun _ => none) (initial cfg) where
  agrees _ hf := nomatch hf
  known hpc := absurd rfl hpc
  stopped _ := rfl

/-- What is known of the server, the file and the client. -/
structure Inv (L : Libsodium) (tip : Bytes → Option (Content cfg)) (ws : List (Bytes × Bytes))
    (w : World cfg) : Prop where
  net : NetInv L tip ws w
  file : FileInv tip w
  main : MainOk L tip w.file w.globals w.pc

theorem inv_initial : Inv L (fun _ => none) [] (initial cfg) where
  net := netInv_initial
  file := fileInv_initial
  main := trivial

variable {tip : Bytes → Option (Content cfg)} {ws : List (Bytes × Bytes)} {w w' : World cfg}

/-- Where `SIGINT` may come the globals agree. -/
theorem Inv.settled (h : Inv L tip ws w) (hpc : w.pc ≠ .stopped) (hc : Clean w .sigint) :
    Settled tip w.globals := by
  have hmain := h.main
  unfold Clean at hc
  cases hp : w.pc with
  | stopped => exact absurd hp hpc
  | prompt => rw [hp] at hmain; exact hmain
  | parsed op => rw [hp] at hmain; exact hmain
  | building op path => rw [hp] at hmain; exact hmain.1
  | emptied op => rw [hp] at hmain; exact hmain.1
  | keyed op d => rw [hp] at hmain; exact hmain.1
  | encrypted op path entry mk => rw [hp] at hmain; exact hmain.1
  | built op path entry =>
    rw [hp] at hmain
    simp only [hp] at hc
    have hset : w.globals.keySet op.key = false := by
      rw [Bool.eq_false_iff]
      exact fun hkey => hmain.2.1.mp hkey hc
    exact hmain.1.settled hset
  | sized op entry => rw [hp] at hmain; exact hmain.1.settled hmain.2.1
  | ready op path entry => simp only [hp] at hc
  | waiting op path => rw [hp] at hmain; exact hmain
  | replied op path labels => rw [hp] at hmain; exact hmain

theorem Inv.save (h : Inv L tip ws w) (hs : Settled tip w.globals) : Inv L tip ws w.save where
  net := h.net.quiet rfl rfl rfl (Nat.le_refl _)
  file := FileInv.save hs
  main := trivial

theorem Inv.abandon (h : Inv L tip ws w) (hu : Unchanged w) : Inv L tip ws w.abandon where
  net := h.net.quiet rfl rfl rfl (Nat.le_refl _)
  file := h.file.abandon hu
  main := trivial

/-- A statement that sends nothing. -/
theorem Inv.local (h : Inv L tip ws w) {g : Globals} {pc : Pc cfg} (hpc : w.pc ≠ .stopped)
    (hpc' : pc ≠ .stopped)
    (hset : ∀ key, w.globals.keySet key = true → g.keySet key = true)
    (hmain : MainOk L tip w.file g pc) : Inv L tip ws ((w.setGlobals g).goto pc) where
  net := h.net.quiet rfl rfl rfl (Nat.le_refl _)
  file := h.file.keep hpc hpc' rfl rfl hset
  main := hmain

/-- A client on the way to an access has built an entry for its key's tip. -/
theorem owes_accessOf {op : Operation} {path : Path} {g : Globals} (d : Draw cfg)
    (hagree : Agree (tip op.key) (g.masterKeys op.key) (g.valueSizes op.key)) (hpath : path ≠ .create)
    (hput : op.type = .put ↔ path ≠ .get) (hfits : path ≠ .get → op.value.length ≤ cfg.valueSize) :
    Owes L (tip op.key) op path (accessOf cfg L op (g.masterKeys op.key) d path) d.masterKey
      (if path = .get then g.valueSizes op.key else op.value.length) := by
  obtain ⟨x, hx, hmk, hsize⟩ := hagree
  rw [hx, ← hmk]
  cases path with
  | create => exact absurd rfl hpath
  | get => exact ⟨_, .get x d fun h => hput.mp h rfl, rfl, hsize⟩
  | put =>
    have hne : Path.put ≠ .get := by decide
    exact ⟨_, .put x d (hfits hne) (hput.mpr hne), rfl, rfl⟩

/-- The statements of the client keep the invariant. -/
theorem Inv.mainStep {d : Draw cfg} (h : Inv L tip ws w) (hc : Clean w (.step d))
    (hs : MainStep L w d w') : ∃ tip', Inv L tip' ws w' := by
  have hmain := h.main
  unfold Clean at hc
  cases hs with
  | exit op hpc =>
    rw [hpc] at hmain
    exact ⟨tip, h.save hmain⟩
  | missing op hpc =>
    rw [hpc] at hmain
    exact ⟨tip, h.local (by simp [hpc]) (by simp) (fun _ hk => hk) hmain⟩
  | test op path hpc hset hput =>
    rw [hpc] at hmain
    exact ⟨tip, h.local (by simp [hpc]) (by simp) (fun _ hk => hk) ⟨hmain, hset, hput⟩⟩
  | tooLong op path hpc hpath hlong =>
    rw [hpc] at hc
    exact ⟨tip, h.abandon (hc hpath hlong)⟩
  | empty op hpc hfits =>
    rw [hpc] at hmain
    obtain ⟨hsettled, hset, hput⟩ := hmain
    have hmissing : w.globals.keySet op.key = false := by simpa using hset
    refine ⟨tip, h.local (by simp [hpc]) (by simp) (fun _ hk => hk) ⟨?_, hmissing, ?_, hfits⟩⟩
    · exact ((hsettled.but op).rekey _).settled hmissing
    · exact hput.mpr (by decide)
  | encrypt op path hpc hpath hfits =>
    rw [hpc] at hmain
    obtain ⟨hsettled, hset, hput⟩ := hmain
    have hkey := hset.mpr hpath
    refine ⟨tip, h.local (by simp [hpc]) (by simp) (fun _ hk => hk) ⟨hsettled, hkey, hpath, ?_⟩⟩
    exact owes_accessOf d (hsettled op.key hkey) hpath hput hfits
  | keygen op hpc =>
    rw [hpc] at hmain
    obtain ⟨hsettled, hmissing, hput, hfits⟩ := hmain
    refine ⟨tip, h.local (by simp [hpc]) (by simp) (fun _ hk => hk)
      ⟨?_, hmissing, hput, hfits, Function.update_self _ _ _⟩⟩
    exact ((hsettled.but op).rekey _).settled hmissing
  | create op d' hpc hfits =>
    rw [hpc] at hmain
    obtain ⟨hsettled, hmissing, hput, -, hmk⟩ := hmain
    refine ⟨tip, h.local (by simp [hpc]) (by simp) (fun _ hk => hk)
      ⟨hsettled.but op, by simp [hmissing], ?_⟩⟩
    exact ⟨_, .create (tip op.key) d' hfits hput, hmk.symm, rfl⟩
  | createTooLong op d' hpc hlong =>
    rw [hpc] at hmain
    obtain ⟨-, -, -, hfits, -⟩ := hmain
    omega
  | install op path entry mk hpc =>
    rw [hpc] at hmain
    obtain ⟨hsettled, hkey, hpath, x, ht, hmk, hsize⟩ := hmain
    have hbut := (hsettled.but op).rekey mk
    have hmk' : x.masterKey = (w.globals.rekey op.key mk).masterKeys op.key :=
      hmk.trans (w.globals.rekey_self op.key mk).symm
    refine ⟨tip, h.local (by simp [hpc]) (by split <;> simp) (fun _ hk => hk) ?_⟩
    by_cases hget : path = .get
    · rw [if_pos hget] at hsize ⊢
      exact ⟨hbut, fun hp => absurd hp hpath, x, ht, hmk', hsize⟩
    · rw [if_neg hget] at hsize ⊢
      exact ⟨hbut, by simp [hpath, Globals.rekey, hkey], x, ht, hmk', hsize⟩
  | setSize op path entry hpc =>
    rw [hpc] at hmain
    obtain ⟨hbut, hset, x, ht, hmk, hsize⟩ := hmain
    have hsize' : x.value.length = (w.globals.setSize op.key op.value.length).valueSizes op.key :=
      hsize.trans (w.globals.setSize_self op.key _).symm
    refine ⟨tip, h.local (by simp [hpc]) (by split <;> simp) (fun _ hk => hk) ?_⟩
    by_cases hpath : path = .create
    · subst hpath
      rw [if_pos rfl]
      exact ⟨hbut.setSize _, by simpa [Globals.setSize] using hset, x, ht, hmk, hsize'⟩
    · rw [if_neg hpath]
      exact ⟨hbut.setSize _, fun hp => absurd hp hpath, x, ht, hmk, hsize'⟩
  | insertKey op entry hpc =>
    rw [hpc] at hmain
    obtain ⟨hbut, hmissing, howes⟩ := hmain
    refine ⟨tip, h.local (by simp [hpc]) (by simp) (fun _ hk => Globals.keySet_insertKey op.key hk)
      ⟨hbut.insertKey, fun _ f hf => ?_, howes⟩⟩
    rw [Bool.eq_false_iff]
    intro hkey
    rw [h.file.known (by simp [hpc]) f hf op.key hkey] at hmissing
    cases hmissing
  | sendCreate op entry hpc =>
    rw [hpc] at hmain
    obtain ⟨hbut, hfile, x, ht, hmk, hsize⟩ := hmain
    refine ⟨Function.update tip op.key (some x), ?_, ?_, hbut.send hmk hsize⟩
    · exact (h.net.send ht).quiet rfl rfl rfl (Nat.le_refl _)
    · exact h.file.send (by simp [hpc]) (by simp [World.goto]) rfl (fun _ hk => hk) (Or.inr (hfile rfl)) rfl
  | sendAccess op path entry hpc hpath =>
    rw [hpc] at hmain
    obtain ⟨hbut, -, x, ht, hmk, hsize⟩ := hmain
    refine ⟨Function.update tip op.key (some x), ?_, ?_, hbut.send hmk hsize⟩
    · exact (h.net.send ht).quiet rfl rfl rfl (Nat.le_refl _)
    · exact h.file.send (by simp [hpc]) (by simp [World.goto]) rfl
        (fun _ hk => List.mem_cons_of_mem _ hk) (Or.inl List.mem_cons_self) rfl
  | print op path labels hpc =>
    rw [hpc] at hmain
    exact ⟨tip, h.local (by simp [hpc]) (by simp) (fun _ hk => hk) hmain⟩

/-- A message is processed. -/
theorem Inv.serve (h : Inv L tip ws w) (hall : ∀ k < cfg.valueSize * 4, reached cfg k) {n : ℕ}
    {m : Message} {order : List ℕ} (horder : order.Perm (List.range cfg.serverNumThreads))
    (hm : w.net[n]? = some m) (hfirst : ∀ j < n, ∀ m', w.net[j]? = some m' → m'.op.key ≠ m.op.key) :
    Inv L tip (ws ++ m.writes) (Restart.serve L w n m order) := by
  obtain ⟨hg, hfile, haccessed, hpc⟩ := @serve_client cfg L w n m order
  have hrunning : (Restart.serve L w n m order).pc = .stopped ↔ w.pc = .stopped := by
    rcases hpc with hpc | ⟨op, path, labels, hw, hpc⟩
    · rw [hpc]
    · simp [hw, hpc]
  refine ⟨h.net.serve hall horder hm hfirst, ⟨?_, ?_, ?_⟩, ?_⟩
  · rw [hfile, haccessed]
    exact h.file.agrees
  · intro hrun
    rw [hfile, hg]
    exact h.file.known fun hstop => hrun (hrunning.mpr hstop)
  · intro hstop
    rw [haccessed]
    exact h.file.stopped (hrunning.mp hstop)
  · have hmain := h.main
    rw [hfile, hg]
    rcases hpc with hpc | ⟨op, path, labels, hw, hpc⟩
    · rwa [hpc]
    · rw [hw] at hmain
      rw [hpc]
      exact hmain

/-- Every step that meets the condition keeps the invariant. -/
theorem Inv.step {a : Act cfg} (h : Inv L tip ws w) (hall : ∀ k < cfg.valueSize * 4, reached cfg k)
    (hc : Clean w a) (ha : next L w a = some w') : ∃ tip', Inv L tip' (ws ++ appliedIn w a) w' := by
  cases steps_of_next ha with
  | start hpc =>
    rw [appliedIn, List.append_nil]
    have hsettled := h.file.settled hpc
    refine ⟨tip, h.net.quiet rfl rfl rfl (Nat.le_succ _), ⟨?_, ?_, fun _ => rfl⟩, hsettled⟩
    · rw [← h.file.stopped hpc]
      exact h.file.agrees
    · intro _ f hf key hkey
      simp only at hf
      simp only [hf]
      exact hkey
  | command op hpc =>
    rw [appliedIn, List.append_nil]
    have hmain := h.main
    rw [hpc] at hmain
    exact ⟨tip, h.local (by simp [hpc]) (by simp) (fun _ hk => hk) hmain⟩
  | main d _ hs =>
    rw [appliedIn, List.append_nil]
    exact h.mainStep hc hs
  | fail hpc =>
    rw [appliedIn, List.append_nil]
    exact ⟨tip, h.abandon hc⟩
  | sigint hpc =>
    rw [appliedIn, List.append_nil]
    exact ⟨tip, h.save (h.settled hpc hc)⟩
  | serve n order horder m hm =>
    have hws : appliedIn w (.serve n order horder : Act cfg) = m.writes := by
      rw [appliedIn, hm]
      rfl
    rw [hws]
    exact ⟨tip, h.serve hall horder hm (hc m hm)⟩

end Invariant

/-! ### The GET after a start -/

section NextGet

variable {cfg : Config} {L : Libsodium} {w : World cfg} {op : Operation}

/-- The next start, and a GET up to its reply. -/
def nextGet (w : World cfg) (key : Bytes) (d : Draw cfg) (order : List ℕ)
    (horder : order.Perm (List.range cfg.serverNumThreads)) : List (Act cfg) :=
  .start :: (.command ⟨.get, key, []⟩ :: List.replicate 3 (.step d)) ++
    [.step d, .serve w.net.length order horder]

/-- A message that a new session sends is the oldest of its connection. -/
theorem atHead_length {ms : List Message} {m : Message} (hnet : w.net = ms ++ [m])
    (hsessions : ∀ m' ∈ ms, m'.session < m.session) : atHead w ms.length m = true := by
  have htake : w.net.take ms.length = ms := by
    rw [hnet]
    exact List.take_left' rfl
  rw [atHead, htake, List.all_eq_true]
  intro m' hm'
  exact decide_eq_true (hsessions m' hm').ne

/-- A GET after a start whose file has the master key that the server's labels
are derived from. -/
theorem run_nextGet {f : Saved} {key v : Bytes} (d : Draw cfg) {order : List ℕ}
    (horder : order.Perm (List.range cfg.serverNumThreads))
    (hall : ∀ k < cfg.valueSize * 4, reached cfg k) (hpc : w.pc = .stopped)
    (hfile : w.file = some f) (hkey : f.keySet key = true) (hup : w.serverUp = true)
    (hsessions : ∀ m ∈ w.net, m.session ≤ w.session)
    (hdb : w.db key = some (labelString L cfg.valueSize (f.masterKeys key) v)) :
    ∃ w', run (next L) w (nextGet w key d order horder) = some w' ∧
      w'.pc = .replied ⟨.get, key, []⟩ .get (labelString L cfg.valueSize d.masterKey v) ∧
      w'.globals = (opScureSetup cfg (some f)).rekey key d.masterKey := by
  let op : Operation := ⟨.get, key, []⟩
  let started : World cfg := { w with
    pc := .prompt, globals := opScureSetup cfg w.file, session := w.session + 1, accessed := [] }
  have hset : started.globals.keySet key = true := by
    simp only [started, hfile]
    exact hkey
  have hmk : started.globals.masterKeys key = f.masterKeys key := by
    simp only [started, hfile]
    rfl
  let entry := getEntry cfg L key (started.globals.masterKeys key) d
  let sent : World cfg := { started with
    pc := .waiting op .get
    globals := started.globals.rekey key d.masterKey
    net := w.net ++ [(⟨w.session + 1, op, .get, entry⟩ : Message)]
    accessed := [key] }
  have hstart : next L w .start = some started := by simp only [next, hpc, started]
  have hready : run (next L) started (.command op :: List.replicate 3 (.step d)) =
      some { started with
        pc := .ready op .get entry
        globals := started.globals.rekey key d.masterKey } :=
    run_get_ready d rfl hset rfl
  have hsend : next L { started with
      pc := .ready op .get entry
      globals := started.globals.rekey key d.masterKey } (.step d) = some sent := by
    simp only [next, stepMain, if_false, reduceCtorEq]
    rfl
  have hnet : sent.net[w.net.length]? = some ⟨w.session + 1, op, .get, entry⟩ :=
    List.getElem?_concat_length
  have hhead : atHead sent w.net.length ⟨w.session + 1, op, .get, entry⟩ = true :=
    atHead_length rfl fun m hm => Nat.lt_succ_of_le (hsessions m hm)
  have hacc : access cfg L order sent.db entry = .ok (labelString L cfg.valueSize d.masterKey v,
      Function.update sent.db key (some (labelString L cfg.valueSize d.masterKey v))) := by
    simp only [entry, hmk]
    exact access_getEntry d horder hdb hall
  have hserve : ∃ w', next L sent (.serve w.net.length order horder) = some w' ∧
      w'.pc = .replied op .get (labelString L cfg.valueSize d.masterKey v) ∧
      w'.globals = sent.globals := by
    refine ⟨serve L sent w.net.length ⟨w.session + 1, op, .get, entry⟩ order, ?_, ?_, ?_⟩
    · simp only [next, hnet]
      exact if_pos ⟨hup, hhead⟩
    · simp only [serve, hacc, if_false, reduceCtorEq]
      rw [World.reply]
      exact congrArg World.pc (if_pos rfl)
    · exact (serve_client _ _ _ _).1
  obtain ⟨w', hw', hpc', hg'⟩ := hserve
  refine ⟨w', ?_, hpc', ?_⟩
  · calc run (next L) w (nextGet w key d order horder)
        = run (next L) started ((.command op :: List.replicate 3 (.step d)) ++
            [.step d, .serve w.net.length order horder]) := by
          rw [nextGet, List.cons_append, run_cons, hstart, Option.bind_some]
      _ = run (next L) sent [.serve w.net.length order horder] := by
          rw [run_append, hready, Option.bind_some, run_cons, hsend, Option.bind_some]
      _ = some w' := by rw [run_cons, hw', Option.bind_some, run_nil]
  · rw [hg']
    simp only [sent, started, hfile]

end NextGet

/-! ### Runs -/

section Runs

variable {cfg : Config} {L : Libsodium}

/-- The PUTs that the server has applied along a run, in order. -/
def applied (cfg : Config) (L : Libsodium) (as : List (Act cfg)) : List (Bytes × Bytes) :=
  collect (next L) appliedIn (initial cfg) as

theorem inv_run (hall : ∀ k < cfg.valueSize * 4, reached cfg k) {as : List (Act cfg)} {w : World cfg}
    (h : run (next L) (initial cfg) as = some w) (hc : Along (next L) Clean (initial cfg) as) :
    ∃ tip, Inv L tip (applied cfg L as) w := by
  refine run_inv (next L) (fun as w => ∃ tip, Inv L tip (applied cfg L as) w)
    ⟨fun _ => none, inv_initial⟩ ?_ hc h
  intro as w a w' hrun hinv hclean ha
  obtain ⟨tip, hI⟩ := hinv
  have hws : applied cfg L (as ++ [a]) = applied cfg L as ++ appliedIn w a :=
    collect_concat (next L) appliedIn hrun ha
  rw [hws]
  exact hI.step hall hclean ha

/-- In every run whose steps meet the condition: once the server has processed
the messages for a key of the data file, it stores the labels of the last PUT
it applied, derived from the file's master key; and a GET after the next start
reads that value. -/
theorem restart_agrees (cfg : Config) (L : Libsodium) (hall : ∀ k < cfg.valueSize * 4, reached cfg k)
    {as : List (Act cfg)} {w : World cfg} {f : Saved} {key : Bytes}
    (hrun : run (next L) (initial cfg) as = some w) (hclean : Along (next L) Clean (initial cfg) as)
    (hpc : w.pc = .stopped) (hfile : w.file = some f) (hkey : f.keySet key = true)
    (hnet : ∀ m ∈ w.net, m.op.key ≠ key) :
    ∃ v, latest (applied cfg L as) key = some v ∧
      w.db key = some (labelString L cfg.valueSize (f.masterKeys key) (padded v cfg.valueSize)) ∧
      ∀ (d : Draw cfg) (order : List ℕ) (horder : order.Perm (List.range cfg.serverNumThreads)),
        L.InjectiveOn [d.masterKey] (20 * cfg.valueSize) →
        ∃ w' labels, run (next L) w (nextGet w key d order horder) = some w' ∧
          w'.pc = .replied ⟨.get, key, []⟩ .get labels ∧
          readValueFromLabels cfg L w'.globals key labels d.uninit = .ok v := by
  obtain ⟨tip, hI⟩ := inv_run hall hrun hclean
  have hnot : key ∉ w.accessed := by
    rw [hI.file.stopped hpc]
    exact List.not_mem_nil
  obtain ⟨x, htip, hmk, hsize⟩ := hI.file.agrees f hfile key hkey hnot
  obtain ⟨c, hdb, hchain, hlast⟩ := hI.net.chain key
  have hnone : inFlight w key = [] := List.filter_eq_nil_iff.mpr fun m hm => by simpa using hnet m hm
  rw [hnone] at hchain
  rw [hchain.eq_of_nil, htip] at hdb hlast
  have hstored : w.db key = some (labelString L cfg.valueSize (f.masterKeys key)
      (padded x.value cfg.valueSize)) := by
    rw [hdb, ← hmk]
    rfl
  refine ⟨x.value, hlast.symm, hstored, fun d order horder hinj => ?_⟩
  obtain ⟨w', hrun', hpc', hg⟩ := run_nextGet d horder hall hpc hfile hkey hI.net.up hI.net.sessions
    hstored
  refine ⟨w', _, hrun', hpc', ?_⟩
  have hkey' : w'.globals.masterKeys key = d.masterKey := by rw [hg, Globals.rekey_self]
  have hsize' : w'.globals.valueSizes key = x.value.length := by
    rw [hg, hsize]
    rfl
  have hread := readValueFromLabels_eq cfg L w'.globals key d.uninit (padded_length x.fits)
    (labelsDiffer_of_injectiveOn cfg L hinj (by rw [hkey']; exact List.mem_singleton_self _))
  rwa [hkey', hsize', take_padded] at hread

end Runs

/-! ### An interrupted GET -/

section Interrupted

variable {cfg : Config} {L : Libsodium} {w : World cfg} {op : Operation}

/-- A PUT of a new key meets the condition at every step. -/
theorem along_put (d : Draw cfg) (hpc : w.pc = .prompt) (hset : w.globals.keySet op.key = false)
    (hput : op.type = .put) (hfits : op.value.length ≤ cfg.valueSize) :
    Along (next L) Clean w (.command op :: List.replicate 7 (.step d)) := by
  have hpad := padToLen_ok hfits
  have hc : ∀ g, constructCreateEntry cfg L g op.key op.value d = .ok _ :=
    fun g => constructCreateEntry_eq cfg L g op.key d hfits
  have hshort : ¬ cfg.valueSize < op.value.length := by omega
  simp only [List.replicate, Along, next, stepMain, Clean, hpc, hset, hput, hpad, hc, hshort,
    Option.some.injEq, forall_eq', Bool.false_eq_true, if_false, if_true, reduceCtorEq, World.goto,
    World.setGlobals, World.send, and_true, false_implies, implies_true]

def firstPut : Operation := ⟨.put, ascii ['k'], ascii ['v']⟩

def firstGet : Operation := ⟨.get, ascii ['k'], []⟩

/-- Draws with a master key of one byte, repeated. -/
def drawOf (cfg : Config) (c : UInt8) : Draw cfg := plainDraw cfg (List.replicate 32 c)

/-- A start and a PUT that the server has processed. -/
def putRun (cfg : Config) : List (Act cfg) :=
  .start :: (.command firstPut :: List.replicate 7 (.step (drawOf cfg 1))) ++
    [.serve 0 (List.range cfg.serverNumThreads) cfg.serverInOrder]

/-- After it. -/
def afterPut (cfg : Config) : World cfg where
  pc := .prompt
  globals := (((opScureSetup cfg none).rekey firstPut.key (List.replicate 32 1)).setSize firstPut.key
    firstPut.value.length).insertKey firstPut.key
  net := []
  db := Function.update (fun _ => none) firstPut.key
    (some (labelString Libsodium.plain cfg.valueSize (List.replicate 32 1)
      (padded firstPut.value cfg.valueSize)))
  serverUp := true
  file := none
  session := 1
  accessed := []

theorem run_putRun (cfg : Config) :
    run (next Libsodium.plain) (initial cfg) (putRun cfg) = some (afterPut cfg) := by
  have hput := @run_put cfg Libsodium.plain { initial cfg with pc := .prompt, session := 1 } firstPut
    (drawOf cfg 1) rfl rfl rfl cfg.valueSize_pos
  have hstart : next Libsodium.plain (initial cfg) .start =
      some { initial cfg with pc := .prompt, session := 1 } := rfl
  rw [putRun, List.cons_append, run_cons, hstart, Option.bind_some, run_append, hput,
    Option.bind_some]
  rfl

theorem afterPut_keySet (cfg : Config) : (afterPut cfg).globals.keySet firstGet.key = true :=
  Globals.insertKey_self _ firstPut.key

theorem afterPut_db (cfg : Config) : (afterPut cfg).db firstGet.key =
    some (labelString Libsodium.plain cfg.valueSize (List.replicate 32 1)
      (padded firstPut.value cfg.valueSize)) := by
  have hkey : firstGet.key = firstPut.key := rfl
  simp [afterPut, hkey]

theorem along_putRun (cfg : Config) :
    Along (next Libsodium.plain) Clean (initial cfg) (putRun cfg) := by
  have halong := @along_put cfg Libsodium.plain { initial cfg with pc := .prompt, session := 1 } firstPut
    (drawOf cfg 1) rfl rfl rfl cfg.valueSize_pos
  refine ⟨trivial, fun w hw => ?_⟩
  obtain rfl := Option.some.inj hw
  refine (along_append (next Libsodium.plain)).mpr ⟨halong, fun w' hw' => ⟨?_, fun _ _ => trivial⟩⟩
  intro m hm j hj
  exact absurd hj (Nat.not_lt_zero j)

/-- A PUT, and `EXIT`. -/
theorem restart_agrees_put : ∃ w f v,
    run (next Libsodium.plain) (initial constants.single) (putRun constants.single ++
      [.command ⟨.exit, [], []⟩, .step (drawOf _ 2)]) = some w ∧
    w.pc = .stopped ∧ w.file = some f ∧ f.keySet firstGet.key = true ∧
    w.db firstGet.key = some (labelString Libsodium.plain constants.single.valueSize
      (f.masterKeys firstGet.key) (padded v constants.single.valueSize)) := by
  have hrun : run (next Libsodium.plain) (initial constants.single) (putRun constants.single ++
      [.command ⟨.exit, [], []⟩, .step (drawOf _ 2)]) = some (afterPut constants.single).save := by
    rw [run_append, run_putRun]
    rfl
  have hclean : Along (next Libsodium.plain) Clean (initial constants.single) (putRun constants.single ++
      [.command ⟨.exit, [], []⟩, .step (drawOf _ 2)]) := by
    refine (along_append (next Libsodium.plain)).mpr ⟨along_putRun _, fun w hw => ?_⟩
    rw [run_putRun, Option.some.injEq] at hw
    subst hw
    refine ⟨trivial, fun w' hw' => ⟨?_, fun _ _ => trivial⟩⟩
    obtain rfl := Option.some.inj hw'
    trivial
  have hkey : (opScureCleanup (afterPut constants.single).globals).keySet firstGet.key = true :=
    afterPut_keySet constants.single
  obtain ⟨v, -, hdb, -⟩ := restart_agrees constants.single Libsodium.plain
    (fun k hk => reached_of_single rfl hk) hrun hclean rfl rfl hkey (fun m hm => nomatch hm)
  exact ⟨(afterPut constants.single).save, _, v, hrun, rfl, rfl, hkey, hdb⟩

/-- A PUT, and a GET that `SIGINT` ends before its entry is sent. -/
def interruptedRun (cfg : Config) : List (Act cfg) :=
  putRun cfg ++ ((.command firstGet :: List.replicate 3 (.step (drawOf cfg 2))) ++ [.sigint])

/-- The byte after a label's subkey id is the first of its master key. -/
theorem labelSlot_plain_key (c : UInt8) (v : Bytes) (s : ℕ) :
    (labelSlot Libsodium.plain (List.replicate 32 c) v s).getD 3 0 = c := rfl

/-- The file has a master key that the server has never had: it stores the
labels of no value under it. -/
theorem interrupted_get : ∃ w f,
    run (next Libsodium.plain) (initial constants) (interruptedRun constants) = some w ∧
      w.pc = .stopped ∧ w.net = [] ∧ w.file = some f ∧ f.keySet firstGet.key = true ∧
      ∀ v, w.db firstGet.key ≠
        some (labelString Libsodium.plain constants.valueSize (f.masterKeys firstGet.key) v) := by
  have hready := @run_get_ready constants Libsodium.plain (afterPut constants) firstGet
    (drawOf constants 2) rfl (afterPut_keySet _) rfl
  let g := (afterPut constants).globals.rekey firstGet.key (List.replicate 32 2)
  refine ⟨((afterPut constants).setGlobals g).save, opScureCleanup g, ?_, rfl, rfl, rfl,
    afterPut_keySet constants, fun v hv => ?_⟩
  · rw [interruptedRun, run_append, run_putRun, Option.bind_some, run_append, hready,
      Option.bind_some]
    rfl
  · have hmk : (opScureCleanup g).masterKeys firstGet.key = List.replicate 32 2 := by
      simp [opScureCleanup, g]
    have hdb : ((afterPut constants).setGlobals g).save.db firstGet.key = _ := afterPut_db constants
    rw [hdb, hmk, Option.some.injEq] at hv
    have hslot : labelSlot Libsodium.plain (List.replicate 32 1)
        (padded firstPut.value constants.valueSize) 0 =
        labelSlot Libsodium.plain (List.replicate 32 2) v 0 := by
      have hs := congrArg (fun s => Bytes.slot labelWidth s 0) hv
      simp only [slot_labelString _ _ (show 0 < constants.valueSize * 4 by decide)] at hs
      exact hs
    have hbyte := congrArg (fun s : Bytes => s.getD 3 0) hslot
    simp only [labelSlot_plain_key] at hbyte
    exact absurd hbyte (by decide)

end Interrupted

end Restart
end Lbl
end Ortoa
