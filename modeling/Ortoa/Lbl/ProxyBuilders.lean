/-
# The builders, one statement after the other

In `Proxy.lean` a builder is one step. Here it is as many as it has accesses
to `masterKeys[key]`, with steps of other calls in between: `padToLen` and, on
the create path, the assignment that empties the key's entry (`enter`);
`crypto_kdf_keygen` (`keygen`), which writes into the entry on the create path
and into a local elsewhere; one step for every
`crypto_kdf_derive_from_key` from `masterKeys[key]`, in any order the pool's
tasks come to them (`derive`); and the return, before which the access
builders install the new master key (`finish`). What is outside the builders
is as it was.

A builder that nobody disturbs does here what it does there in one step
(`run_builder`), so every run of `Proxy.lean` is one of this system
(`run_of_run`).

Key definitions: `readEntry`, `State`, `Event`, `next`, `Steps`.
Key theorems: `readEntry_eq`, `steps_of_next`, `run_builder`, `run_of_run`.
-/
import Ortoa.Lbl.ProxyLocks
import Mathlib.Data.List.Nodup

namespace Ortoa
namespace Lbl

/-- libsodium as a slot uses it, with a master key that may be another one for
each subkey. -/
def Libsodium.reading (L : Libsodium) : Sodium (ℕ → Bytes) Bytes Bytes Bytes where
  cryptoKdfDeriveFromKey := fun id masterKey => L.cryptoKdfDeriveFromKey id (masterKey id)
  firstByte := L.toSodium.firstByte
  cryptoSecretboxEasy := L.toSodium.cryptoSecretboxEasy
  cryptoSecretboxOpenEasy := L.toSodium.cryptoSecretboxOpenEasy

namespace Proxy
namespace Builders

open Bytes

/-! ### Entries from what was read -/

section Entries

variable (cfg : Config) (L : Libsodium)

/-- The loop bodies derive subkey `n` from `masterKeys[key]`: all five of a
slot for an access, the mask and the label that is stored for a create. -/
def derives (op : Operation) : Path → ℕ → Bool
  | .create, n => n % 5 = 0 ∨ n % 5 = 1 + (pairAt (padded op.value cfg.valueSize) (n / 5)).toNat
  | .get, _ => true
  | .put, _ => true

/-- The entry that a builder returns, if its loop bodies derived subkey `n`
from `masterKey n`. -/
def readEntry (op : Operation) (d : Draw cfg) (masterKey : ℕ → Bytes) : Path → Entry
  | .create => ⟨op.key, ofSlots (fun s => slotBytes (createSlot L.reading masterKey s
      (pairAt (padded op.value cfg.valueSize) s))) (cfg.valueSize * 4), [], [], []⟩
  | .get => accessEntry cfg.valueSize op.key d.nonce fun s =>
      getSlot L.reading masterKey (fun _ => d.masterKey) s (d.nonce s)
  | .put => accessEntry cfg.valueSize op.key d.nonce fun s =>
      putSlot L.reading masterKey (fun _ => d.masterKey) s
        (pairAt (padded op.value cfg.valueSize) s) (d.nonce s)

variable {cfg L}

section Reading

variable {masterKey : ℕ → Bytes} {mk : Bytes} {s : ℕ}

theorem auxBits_reading (h : masterKey (5 * s) = mk) :
    auxBits L.reading s masterKey = auxBits L.toSodium s mk := by
  unfold auxBits Libsodium.reading Libsodium.toSodium
  simp only [h]

theorem slotLabel_reading {b : BitPair} (h : masterKey (5 * s + 1 + b.toNat) = mk) :
    slotLabel L.reading s b masterKey = slotLabel L.toSodium s b mk := by
  unfold slotLabel Libsodium.reading Libsodium.toSodium
  simp only [h]

theorem createSlot_reading {b : BitPair} (hmask : masterKey (5 * s) = mk)
    (hlabel : masterKey (5 * s + 1 + b.toNat) = mk) :
    createSlot L.reading masterKey s b = createSlot L.toSodium mk s b := by
  rw [createSlot, createSlot, auxBits_reading hmask, slotLabel_reading hlabel]

/-- The labels of a slot whose subkeys come from one master key. -/
theorem slotLabels_reading (h : ∀ n, 5 * s ≤ n → n < 5 * s + 5 → masterKey n = mk) (b : BitPair) :
    slotLabel L.reading s b masterKey = slotLabel L.toSodium s b mk := by
  have hlt := b.isLt
  exact slotLabel_reading (h _ (by omega) (by omega))

theorem getSlot_reading (mk' : Bytes) (nonce : BitPair → Bytes)
    (h : ∀ n, 5 * s ≤ n → n < 5 * s + 5 → masterKey n = mk) :
    getSlot L.reading masterKey (fun _ => mk') s nonce = getSlot L.toSodium mk mk' s nonce := by
  funext x
  rw [getSlot_eq, getSlot_eq, auxBits_reading (h (5 * s) (by omega) (by omega)), slotLabels_reading h,
    @createSlot_reading L (fun _ => mk') mk' s _ rfl rfl]
  rfl

theorem putSlot_reading (mk' : Bytes) (b : BitPair) (nonce : BitPair → Bytes)
    (h : ∀ n, 5 * s ≤ n → n < 5 * s + 5 → masterKey n = mk) :
    putSlot L.reading masterKey (fun _ => mk') s b nonce = putSlot L.toSodium mk mk' s b nonce := by
  funext x
  rw [putSlot_eq, putSlot_eq, auxBits_reading (h (5 * s) (by omega) (by omega)), slotLabels_reading h,
    @createSlot_reading L (fun _ => mk') mk' s _ rfl rfl]
  rfl

end Reading

/-- If all subkeys come from one master key the entry is the one that the
builder makes in one step. -/
theorem readEntry_eq {op : Operation} {d : Draw cfg} {masterKey : ℕ → Bytes} {mk : Bytes}
    {path : Path} (h : ∀ n < 20 * cfg.valueSize, derives cfg op path n = true → masterKey n = mk)
    (hcreate : path = .create → mk = d.masterKey) :
    readEntry cfg L op d masterKey path = pathEntry cfg L op mk d path := by
  cases path with
  | create =>
    rw [readEntry, pathEntry, createEntry, labelString, ← hcreate rfl]
    congr 1
    apply ofSlots_congr
    intro s hs
    have hlt := (pairAt (padded op.value cfg.valueSize) s).isLt
    have hmask : masterKey (5 * s) = mk := by
      apply h _ (by omega)
      simp [derives]
    have hlabel : masterKey (5 * s + 1 + (pairAt (padded op.value cfg.valueSize) s).toNat) = mk := by
      have hdiv : (5 * s + 1 + (pairAt (padded op.value cfg.valueSize) s).toNat) / 5 = s := by omega
      apply h _ (by omega)
      simp only [derives, hdiv, decide_eq_true_eq]
      omega
    rw [createSlot_reading hmask hlabel]
    rfl
  | get =>
    have hbox : ∀ s < cfg.valueSize * 4, getSlot L.reading masterKey (fun _ => d.masterKey) s (d.nonce s) =
        getBoxes L mk d.masterKey d.nonce s := fun s hs =>
      getSlot_reading d.masterKey _ fun n _ hn => h n (by omega) rfl
    exact accessEntry_congr hbox
  | put =>
    have hbox : ∀ s < cfg.valueSize * 4, putSlot L.reading masterKey (fun _ => d.masterKey) s
          (pairAt (padded op.value cfg.valueSize) s) (d.nonce s) =
        putBoxes L mk d.masterKey (padded op.value cfg.valueSize) d.nonce s := fun s hs =>
      putSlot_reading d.masterKey _ _ fun n _ hn => h n (by omega) rfl
    exact accessEntry_congr hbox

end Entries

/-! ### The system -/

/-- Where the builder of a call is. -/
inductive Building (cfg : Config)
  | outside
  /-- Before `crypto_kdf_keygen`. -/
  | entered
  /-- The pool's tasks are running. `masterKey n` is the master key that subkey
  `n` was derived from, once it has been. -/
  | drawn (d : Draw cfg) (masterKey : ℕ → Option Bytes)

structure State (cfg : Config) where
  world : World
  building : ℕ → Building cfg

/-- What can happen next. -/
inductive Event (cfg : Config)
  /-- A step outside the builders. -/
  | outside (a : Act cfg)
  /-- Call `i` enters its builder. -/
  | enter (i : ℕ)
  | keygen (i : ℕ) (d : Draw cfg)
  /-- A task of call `i` derives subkey `n` from `masterKeys[key]`. -/
  | derive (i n : ℕ)
  /-- The tasks of call `i` are done, and its builder returns. -/
  | finish (i : ℕ)

def initial (cfg : Config) (db : Db) : State cfg := ⟨Proxy.initial cfg none db, fun _ => .outside⟩

/-- The step of a call that is at its builder. -/
def atBuilder {cfg : Config} (w : World) : Act cfg → Bool
  | .step i _ =>
    match w.calls i with
    | .locked _ _ => true
    | _ => false
  | .call _ _ => false
  | .fail _ => false
  | .process _ _ _ => false

/-- The create path writes into `masterKeys[key]` itself. -/
def fill (w : World) (op : Operation) (path : Path) (masterKey : Bytes) : World :=
  if path = .create then w.setGlobals (w.globals.rekey op.key masterKey) else w

/-- The access builders end with `masterKeys[key] = newMasterKeyStr`. -/
def install (w : World) (op : Operation) (path : Path) (masterKey : Bytes) : World :=
  if path = .create then w else w.setGlobals (w.globals.rekey op.key masterKey)

section Fields

variable (w : World) (op : Operation) (path : Path) (masterKey : Bytes)

@[simp] theorem fill_calls : (fill w op path masterKey).calls = w.calls := by
  unfold fill; split <;> rfl

@[simp] theorem fill_keySet : (fill w op path masterKey).globals.keySet = w.globals.keySet := by
  unfold fill; split <;> rfl

@[simp] theorem fill_locks : (fill w op path masterKey).globals.locks = w.globals.locks := by
  unfold fill; split <;> rfl

@[simp] theorem install_calls : (install w op path masterKey).calls = w.calls := by
  unfold install; split <;> rfl

@[simp] theorem install_keySet : (install w op path masterKey).globals.keySet = w.globals.keySet := by
  unfold install; split <;> rfl

@[simp] theorem install_locks : (install w op path masterKey).globals.locks = w.globals.locks := by
  unfold install; split <;> rfl

variable {w op path masterKey} {key : Bytes}

/-- Of the master keys only the one of the call's own key changes. -/
theorem fill_masterKeys_ne (hk : path = .create → key ≠ op.key) :
    (fill w op path masterKey).globals.masterKeys key = w.globals.masterKeys key := by
  unfold fill
  split
  · rename_i hpath
    exact Function.update_of_ne (hk hpath) _ _
  · rfl

theorem install_masterKeys_ne (hk : key ≠ op.key) :
    (install w op path masterKey).globals.masterKeys key = w.globals.masterKeys key := by
  unfold install
  split
  · rfl
  · exact Function.update_of_ne hk _ _

end Fields

section Steps

variable {cfg : Config} (L : Libsodium)

/-- `padToLen`, and on the create path `masterKeys[key] = ""` and `resize`. -/
def stepEnter (s : State cfg) (i : ℕ) (op : Operation) (path : Path) : State cfg :=
  if path ≠ .get ∧ cfg.valueSize < op.value.length then { s with world := s.world.goto i (.threw op) }
  else
    { world := fill s.world op path (List.replicate cryptoKdfKeybytes 0)
      building := Function.update s.building i .entered }

/-- `crypto_kdf_keygen`, into `masterKeys[key]` on the create path. -/
def stepKeygen (s : State cfg) (i : ℕ) (op : Operation) (path : Path) (d : Draw cfg) : State cfg where
  world := fill s.world op path d.masterKey
  building := Function.update s.building i (.drawn d fun _ => none)

/-- A task reads `masterKeys[key]`. -/
def stepDerive (s : State cfg) (i : ℕ) (op : Operation) (d : Draw cfg) (masterKey : ℕ → Option Bytes)
    (n : ℕ) : State cfg :=
  let masterKey := Function.update masterKey n (some (s.world.globals.masterKeys op.key))
  { s with building := Function.update s.building i (.drawn d masterKey) }

/-- Every subkey of the entry has been derived. -/
def Derived (cfg : Config) (op : Operation) (path : Path) (masterKey : ℕ → Option Bytes) : Prop :=
  ∀ n < 20 * cfg.valueSize, derives cfg op path n = true → (masterKey n).isSome = true

instance (op : Operation) (path : Path) (masterKey : ℕ → Option Bytes) :
    Decidable (Derived cfg op path masterKey) :=
  Nat.decidableBallLT _ _

/-- The entry is returned; the access builders do `masterKeys[key] = newMasterKeyStr` first. -/
def stepFinish (s : State cfg) (i : ℕ) (op : Operation) (path : Path) (d : Draw cfg)
    (masterKey : ℕ → Option Bytes) : State cfg :=
  let entry := readEntry cfg L op d (fun n => (masterKey n).getD []) path
  { world := (install s.world op path d.masterKey).goto i
      (if path = .get then .ready op path entry else .built op path entry)
    building := Function.update s.building i .outside }

def next (s : State cfg) : Event cfg → Option (State cfg)
  | .outside a =>
    if atBuilder s.world a then none
    else (Proxy.next cfg L s.world a).map fun w => { s with world := w }
  | .enter i =>
    match s.world.calls i, s.building i with
    | .locked op path, .outside => some (stepEnter s i op path)
    | _, _ => none
  | .keygen i d =>
    match s.world.calls i, s.building i with
    | .locked op path, .entered => some (stepKeygen s i op path d)
    | _, _ => none
  | .derive i n =>
    match s.world.calls i, s.building i with
    | .locked op path, .drawn d masterKey =>
      if n < 20 * cfg.valueSize ∧ derives cfg op path n = true ∧ masterKey n = none then
        some (stepDerive s i op d masterKey n)
      else none
    | _, _ => none
  | .finish i =>
    match s.world.calls i, s.building i with
    | .locked op path, .drawn d masterKey =>
      if Derived cfg op path masterKey then some (stepFinish L s i op path d masterKey) else none
    | _, _ => none

/-- The master keys that `crypto_kdf_keygen` returns. -/
def keys : Event cfg → List Bytes
  | .keygen _ d => [d.masterKey]
  | .outside _ => []
  | .enter _ => []
  | .derive _ _ => []
  | .finish _ => []

end Steps

/-! ### What a step can do -/

section Inversion

variable {cfg : Config} {L : Libsodium}

/-- The events, one by one. -/
inductive Steps (cfg : Config) (L : Libsodium) (s : State cfg) : Event cfg → State cfg → Prop
  | outside (a : Act cfg) (w : World) : atBuilder s.world a = false →
    Proxy.next cfg L s.world a = some w → Steps cfg L s (.outside a) { s with world := w }
  | enter (i : ℕ) (op : Operation) (path : Path) : s.world.calls i = .locked op path →
    s.building i = .outside → Steps cfg L s (.enter i) (stepEnter s i op path)
  | keygen (i : ℕ) (d : Draw cfg) (op : Operation) (path : Path) :
    s.world.calls i = .locked op path → s.building i = .entered →
    Steps cfg L s (.keygen i d) (stepKeygen s i op path d)
  | derive (i n : ℕ) (op : Operation) (path : Path) (d : Draw cfg) (masterKey : ℕ → Option Bytes) :
    s.world.calls i = .locked op path → s.building i = .drawn d masterKey →
    Steps cfg L s (.derive i n) (stepDerive s i op d masterKey n)
  | finish (i : ℕ) (op : Operation) (path : Path) (d : Draw cfg) (masterKey : ℕ → Option Bytes) :
    s.world.calls i = .locked op path → s.building i = .drawn d masterKey →
    Derived cfg op path masterKey →
    Steps cfg L s (.finish i) (stepFinish L s i op path d masterKey)

theorem steps_of_next {s s' : State cfg} {e : Event cfg} (h : next L s e = some s') :
    Steps cfg L s e s' := by
  cases e with
  | outside a =>
    rw [next] at h
    split at h
    · cases h
    · rename_i hat
      obtain ⟨w, hw, rfl⟩ := Option.map_eq_some_iff.mp h
      exact .outside a w (Bool.eq_false_iff.mpr hat) hw
  | enter i =>
    rw [next] at h
    split at h
    · rename_i op path hpc hb
      exact Option.some.inj h ▸ .enter i op path hpc hb
    · cases h
  | keygen i d =>
    rw [next] at h
    split at h
    · rename_i op path hpc hb
      exact Option.some.inj h ▸ .keygen i d op path hpc hb
    · cases h
  | derive i n =>
    rw [next] at h
    split at h
    · rename_i op path d masterKey hpc hb
      split at h
      · exact Option.some.inj h ▸ .derive i n op path d masterKey hpc hb
      · cases h
    · cases h
  | finish i =>
    rw [next] at h
    split at h
    · rename_i op path d masterKey hpc hb
      split at h
      · rename_i hderived
        exact Option.some.inj h ▸ .finish i op path d masterKey hpc hb hderived
      · cases h
    · cases h

end Inversion

/-! ### Builders that nobody disturbs -/

section Atomic

variable {cfg : Config} {L : Libsodium} {w : World} {b : ℕ → Building cfg} {i : ℕ} {op : Operation}
  {path : Path} {d : Draw cfg}

/-- The events of a builder. -/
def builderEvents (i : ℕ) (op : Operation) (path : Path) (d : Draw cfg) : List (Event cfg) :=
  [.enter i, .keygen i d] ++
    ((List.range (20 * cfg.valueSize)).filter (derives cfg op path)).map (.derive i) ++ [.finish i]

theorem keys_builderEvents : (builderEvents i op path d).flatMap keys = [d.masterKey] := by
  have hderive : ∀ ns : List ℕ, (ns.map (Event.derive i)).flatMap (@keys cfg) = [] := by
    intro ns
    induction ns with
    | nil => rfl
    | cons n ns ih => exact ih
  rw [builderEvents, List.flatMap_append, List.flatMap_append, hderive]
  rfl

/-- The pool's tasks, one after the other. -/
theorem run_derives (hi : w.calls i = .locked op path) : ∀ (ns : List ℕ) (masterKey : ℕ → Option Bytes),
    ns.Nodup → (∀ n ∈ ns, n < 20 * cfg.valueSize ∧ derives cfg op path n = true ∧ masterKey n = none) →
    b i = .drawn d masterKey →
    ∃ masterKey', run (next L) ⟨w, b⟩ (ns.map (.derive i)) =
        some ⟨w, Function.update b i (.drawn d masterKey')⟩ ∧
      ∀ n, masterKey' n = if n ∈ ns then some (w.globals.masterKeys op.key) else masterKey n := by
  intro ns
  induction ns generalizing b with
  | nil =>
    intro masterKey _ _ hb
    refine ⟨masterKey, ?_, fun n => rfl⟩
    rw [← hb, Function.update_eq_self]
    rfl
  | cons n ns ih =>
    intro masterKey hnodup hns hb
    obtain ⟨hnot, hnodup⟩ := List.nodup_cons.mp hnodup
    have hstep : next L (⟨w, b⟩ : State cfg) (.derive i n) = some (stepDerive ⟨w, b⟩ i op d masterKey n) := by
      simp only [next, hi, hb, if_pos (hns n List.mem_cons_self)]
    have hrest : ∀ m ∈ ns, m < 20 * cfg.valueSize ∧ derives cfg op path m = true ∧
        Function.update masterKey n (some (w.globals.masterKeys op.key)) m = none := by
      intro m hm
      have hne : m ≠ n := fun h => hnot (h ▸ hm)
      rw [Function.update_of_ne hne]
      exact hns m (List.mem_cons_of_mem _ hm)
    have hb' := Function.update_self i
      (.drawn d (Function.update masterKey n (some (w.globals.masterKeys op.key)))) b
    obtain ⟨masterKey', hrun, hkeys⟩ := ih _ hnodup hrest hb'
    refine ⟨masterKey', ?_, fun m => ?_⟩
    · rw [List.map_cons, run_cons, hstep, Option.bind_some]
      rw [Function.update_idem] at hrun
      exact hrun
    · rw [hkeys m]
      by_cases hm : m = n
      · rw [hm, if_neg hnot, if_pos List.mem_cons_self, Function.update_self]
      · simp only [List.mem_cons, hm, false_or, Function.update_of_ne hm]

/-- The master key that an undisturbed builder reads. -/
theorem fill_masterKeys_self (w : World) (op : Operation) (path : Path) (mk : Bytes) :
    (fill w op path mk).globals.masterKeys op.key =
      if path = .create then mk else w.globals.masterKeys op.key := by
  unfold fill
  split
  · exact Function.update_self _ _ _
  · rfl

/-- What an undisturbed builder leaves behind. -/
theorem install_fill (w : World) (op : Operation) (path : Path) (mk mk' : Bytes) :
    install (fill (fill w op path mk) op path mk') op path mk' =
      w.setGlobals (w.globals.rekey op.key mk') := by
  by_cases hpath : path = .create
  · simp [install, fill, hpath, World.setGlobals, Globals.rekey]
  · simp [install, fill, hpath]

/-- A builder that nobody disturbs does what it does in one step. -/
theorem run_builder (hi : w.calls i = .locked op path) (hb : b i = .outside)
    (hfits : path ≠ .get → op.value.length ≤ cfg.valueSize) :
    run (next L) ⟨w, b⟩ (builderEvents i op path d) =
      some ⟨(w.setGlobals (w.globals.rekey op.key d.masterKey)).goto i
        (if path = .get then .ready op path (pathEntry cfg L op (w.globals.masterKeys op.key) d path)
          else .built op path (pathEntry cfg L op (w.globals.masterKeys op.key) d path)), b⟩ := by
  have hlong : ¬ (path ≠ .get ∧ cfg.valueSize < op.value.length) := by
    rintro ⟨hpath, hlt⟩
    have hle := hfits hpath
    omega
  let w1 := fill w op path (List.replicate cryptoKdfKeybytes 0)
  let w2 := fill w1 op path d.masterKey
  have henter : next L (⟨w, b⟩ : State cfg) (.enter i) = some ⟨w1, Function.update b i .entered⟩ := by
    simp only [next, hi, hb, stepEnter, if_neg hlong]
    rfl
  have hkeygen : next L (⟨w1, Function.update b i .entered⟩ : State cfg) (.keygen i d) =
      some ⟨w2, Function.update b i (.drawn d fun _ => none)⟩ := by
    simp only [next, w1, fill_calls, hi, Function.update_self, stepKeygen, Function.update_idem]
    rfl
  have hi2 : w2.calls i = .locked op path := by simp only [w2, w1, fill_calls, hi]
  have hns : ∀ n ∈ (List.range (20 * cfg.valueSize)).filter (derives cfg op path),
      n < 20 * cfg.valueSize ∧ derives cfg op path n = true ∧ (none : Option Bytes) = none := by
    intro n hn
    rw [List.mem_filter, List.mem_range] at hn
    exact ⟨hn.1, hn.2, rfl⟩
  obtain ⟨masterKey, hrun, hkeys⟩ := run_derives (L := L) hi2 _ _ (List.nodup_range.filter _) hns
    (Function.update_self i (.drawn d fun _ => none) b)
  rw [Function.update_idem] at hrun
  have hread : ∀ n < 20 * cfg.valueSize, derives cfg op path n = true →
      masterKey n = some (w2.globals.masterKeys op.key) := by
    intro n hn hd
    rw [hkeys n, if_pos (List.mem_filter.mpr ⟨List.mem_range.mpr hn, hd⟩)]
  have hderived : Derived cfg op path masterKey := fun n hn hd => by rw [hread n hn hd]; rfl
  have hentry : readEntry cfg L op d (fun n => (masterKey n).getD []) path =
      pathEntry cfg L op (w.globals.masterKeys op.key) d path := by
    have hmk : ∀ n < 20 * cfg.valueSize, derives cfg op path n = true →
        (masterKey n).getD [] = if path = .create then d.masterKey else w.globals.masterKeys op.key := by
      intro n hn hd
      rw [hread n hn hd, Option.getD_some, fill_masterKeys_self, fill_masterKeys_self]
      split <;> rfl
    rw [readEntry_eq hmk fun hpath => if_pos hpath]
    by_cases hpath : path = .create
    · rw [hpath]
      rfl
    · rw [if_neg hpath]
  have hfinish : next L (⟨w2, Function.update b i (.drawn d masterKey)⟩ : State cfg) (.finish i) =
      some (stepFinish L ⟨w2, Function.update b i (.drawn d masterKey)⟩ i op path d masterKey) := by
    simp only [next, hi2, Function.update_self, if_pos hderived]
  have hb' : Function.update b i .outside = b := by rw [← hb, Function.update_eq_self]
  have hstart : run (next L) (⟨w, b⟩ : State cfg) [.enter i, .keygen i d] =
      some ⟨w2, Function.update b i (.drawn d fun _ => none)⟩ := by
    rw [run_cons, henter, Option.bind_some, run_cons, hkeygen, Option.bind_some, run_nil]
  calc run (next L) ⟨w, b⟩ (builderEvents i op path d)
      = run (next L) ⟨w2, Function.update b i (.drawn d masterKey)⟩ [.finish i] := by
        rw [builderEvents, run_append, run_append, hstart, Option.bind_some, hrun, Option.bind_some]
    _ = some (stepFinish L ⟨w2, Function.update b i (.drawn d masterKey)⟩ i op path d masterKey) := by
        rw [run_cons, hfinish, Option.bind_some, run_nil]
    _ = _ := by rw [stepFinish, hentry, install_fill, Function.update_idem, hb']

/-- The master keys that are drawn in a step of `Proxy.lean`. -/
def drawnIn (w : World) : Act cfg → List Bytes
  | .step i d =>
    match w.calls i with
    | .locked op path => if path ≠ .get ∧ cfg.valueSize < op.value.length then [] else [d.masterKey]
    | _ => []
  | .call _ _ => []
  | .fail _ => []
  | .process _ _ _ => []

theorem drawnIn_outside {a : Act cfg} (hat : atBuilder w a = false) : drawnIn w a = [] := by
  cases a with
  | step i d =>
    rw [drawnIn]
    split
    · rename_i op path hpc
      simp [atBuilder, hpc] at hat
    · rfl
  | call i op => rfl
  | fail i => rfl
  | process n order horder => rfl

/-- A step of `Proxy.lean` is one step here, or those of a builder. -/
theorem run_of_step {w' : World} {a : Act cfg} (h : Proxy.next cfg L w a = some w') :
    ∃ es : List (Event cfg), run (next L) ⟨w, fun _ => .outside⟩ es = some ⟨w', fun _ => .outside⟩ ∧
      es.flatMap keys = drawnIn w a := by
  cases hat : atBuilder w a with
  | false =>
    refine ⟨[.outside a], ?_, (drawnIn_outside hat).symm⟩
    simp only [run_cons, next, hat, h, Option.map_some]
    rfl
  | true =>
    obtain ⟨i, d, op, path, rfl, hi⟩ : ∃ i d op path, a = .step i d ∧ w.calls i = .locked op path := by
      unfold atBuilder at hat
      split at hat
      · rename_i i d
        split at hat
        · rename_i op path hi
          exact ⟨i, d, op, path, rfl, hi⟩
        · cases hat
      · cases hat
      · cases hat
      · cases hat
    by_cases hlong : path ≠ .get ∧ cfg.valueSize < op.value.length
    · have hfits : ¬ (path ≠ .get → op.value.length ≤ cfg.valueSize) := by
        intro hfits
        have hle := hfits hlong.1
        omega
      have hthrow : w.goto i (.threw op) = w' := by
        simp only [Proxy.next, stepCall, hi] at h
        cases hc : construct cfg L w.globals op d path with
        | ok r => exact absurd (construct_ok hc).1 hfits
        | error f =>
          simp only [hc, Option.some.injEq] at h
          exact h
      refine ⟨[.enter i], ?_, by simp only [drawnIn, hi, if_pos hlong]; rfl⟩
      rw [run_cons, ← hthrow]
      simp only [next, hi, stepEnter, if_pos hlong]
      rfl
    · have hfits : path ≠ .get → op.value.length ≤ cfg.valueSize := by
        intro hpath
        by_contra hlt
        exact hlong ⟨hpath, by omega⟩
      refine ⟨builderEvents i op path d, ?_, by simp only [drawnIn, hi, if_neg hlong, keys_builderEvents]⟩
      rw [run_builder hi rfl hfits]
      simp only [Proxy.next, stepCall, hi, construct_of_fits w.globals d hfits, Option.some.injEq] at h
      rw [h]

/-- Every run of `Proxy.lean` is one of this system, in which no builder is disturbed. -/
theorem run_of_run {w' : World} {as : List (Act cfg)} (h : run (Proxy.next cfg L) w as = some w') :
    ∃ es : List (Event cfg), run (next L) ⟨w, fun _ => .outside⟩ es = some ⟨w', fun _ => .outside⟩ ∧
      es.flatMap keys = collect (Proxy.next cfg L) drawnIn w as := by
  induction as generalizing w with
  | nil => exact ⟨[], by rw [Option.some.inj h]; rfl, rfl⟩
  | cons a as ih =>
    rw [run_cons, Option.bind_eq_some_iff] at h
    obtain ⟨w1, h1, h2⟩ := h
    obtain ⟨es1, hrun1, hkeys1⟩ := run_of_step h1
    obtain ⟨es2, hrun2, hkeys2⟩ := ih h2
    refine ⟨es1 ++ es2, ?_, ?_⟩
    · rw [run_append, hrun1, Option.bind_some, hrun2]
    · simp only [List.flatMap_append, collect, h1, hkeys1, hkeys2]

end Atomic

end Builders
end Proxy
end Lbl
end Ortoa
