/-
# The master keys of a key

Every derivation of an access reads the entry of `masterKeys` again, while
steps of other calls come in between. That all of them find the master key
that the key's last construction installed, and that the next construction
finds the one that this installs, is the work of the locks (`Inv.step`): two
calls past the lock of one key could mix the labels of two master keys in one
entry. So the entries of a key form one chain from its `create` on
(`constructions_chained`), and no two accesses are built against the same
master key, if `crypto_kdf_keygen` never repeats itself.

Key definitions: `Construction`, `Chained`, `OutsideStep`, `Inv`, `Fresh`.
Key theorems: `Chained.pairwise`, `Inv.step`, `Fresh.step`, `constructions_chained`.
-/
import Ortoa.Lbl.ProxyBuilders
import Ortoa.Lbl.ProxyChain

namespace Ortoa
namespace Lbl
namespace Proxy
namespace Builders

/-! ### The history -/

/-- An entry that has been built: by which call, for what, and from which
master key each subkey was derived. -/
structure Construction (cfg : Config) where
  call : ℕ
  op : Operation
  path : Path
  draw : Draw cfg
  masterKey : ℕ → Bytes
  entry : Entry

section History

variable {cfg : Config} (L : Libsodium)

/-- The construction that a step completes. -/
def constructed (s : State cfg) : Event cfg → List (Construction cfg)
  | .finish i =>
    match s.world.calls i, s.building i with
    | .locked op path, .drawn d masterKey =>
      [⟨i, op, path, d, fun n => (masterKey n).getD [],
        readEntry cfg L op d (fun n => (masterKey n).getD []) path⟩]
    | _, _ => []
  | .outside _ => []
  | .enter _ => []
  | .keygen _ _ => []
  | .derive _ _ => []

/-- The last construction of each key. -/
def lastFor (cs : List (Construction cfg)) : Bytes → Option (Construction cfg) :=
  latest (cs.map fun c => (c.op.key, c))

/-- The entry encrypts under labels of the master key that `c0` installed. -/
structure Continues (c0 c : Construction cfg) : Prop where
  masterKey : ∀ n < 20 * cfg.valueSize, derives cfg c.op c.path n = true →
    c.masterKey n = c0.draw.masterKey
  entry : c.entry = pathEntry cfg L c.op c0.draw.masterKey c.draw c.path

/-- The constructions of each key begin with a create, and each access
continues the construction of its key before it. -/
def Chained (cs : List (Construction cfg)) : Prop :=
  ∀ pre c post, cs = pre ++ c :: post →
    c.path = .create ∨ ∃ c0, lastFor pre c.op.key = some c0 ∧ Continues L c0 c

/-- An access entry has a label derived from `mk`. -/
def Construction.Consumes (c : Construction cfg) (mk : Bytes) : Prop :=
  c.path ≠ .create ∧ ∃ n < 20 * cfg.valueSize, c.masterKey n = mk

theorem lastFor_concat_self (cs : List (Construction cfg)) (c : Construction cfg) :
    lastFor (cs ++ [c]) c.op.key = some c := by
  rw [lastFor, List.map_append, List.map_singleton, latest_concat_self]

theorem lastFor_concat_ne (cs : List (Construction cfg)) {c : Construction cfg} {key : Bytes}
    (h : key ≠ c.op.key) : lastFor (cs ++ [c]) key = lastFor cs key := by
  rw [lastFor, List.map_append, List.map_singleton, latest_concat_ne _ _ h, lastFor]

/-- A key that has a construction keeps having one. -/
theorem lastFor_concat_isSome {cs : List (Construction cfg)} {c : Construction cfg} {key : Bytes}
    (h : (lastFor cs key).isSome = true) : (lastFor (cs ++ [c]) key).isSome = true := by
  by_cases hk : key = c.op.key
  · rw [hk, lastFor_concat_self]
    rfl
  · rw [lastFor_concat_ne _ hk]
    exact h

theorem lastFor_mem {cs : List (Construction cfg)} {c : Construction cfg} {key : Bytes}
    (h : lastFor cs key = some c) : c ∈ cs ∧ c.op.key = key := by
  have hmem := latest_mem h
  obtain ⟨c', hc', heq⟩ := List.mem_map.mp hmem
  rw [Prod.mk.injEq] at heq
  obtain ⟨hk, rfl⟩ := heq
  exact ⟨hc', hk⟩

/-- The last construction of a key does not come before another one of it. -/
theorem lastFor_mem_suffix {pre post : List (Construction cfg)} {c c0 : Construction cfg}
    (h : lastFor (pre ++ c :: post) c.op.key = some c0) : c0 ∈ c :: post := by
  induction post using List.reverseRecOn with
  | nil =>
    rw [lastFor_concat_self, Option.some.injEq] at h
    rw [h]
    exact List.mem_singleton_self _
  | append_singleton post c' ih =>
    rw [← List.cons_append, ← List.append_assoc] at h
    rw [← List.cons_append, List.mem_append]
    by_cases hk : c.op.key = c'.op.key
    · rw [hk, lastFor_concat_self, Option.some.injEq] at h
      rw [h]
      exact Or.inr (List.mem_singleton_self _)
    · rw [lastFor_concat_ne _ hk] at h
      exact Or.inl (ih h)

theorem chained_nil : Chained L ([] : List (Construction cfg)) := by
  intro pre c post h
  exact absurd h.symm (by simp)

theorem Chained.concat {cs : List (Construction cfg)} {c : Construction cfg} (h : Chained L cs)
    (hc : c.path = .create ∨ ∃ c0, lastFor cs c.op.key = some c0 ∧ Continues L c0 c) :
    Chained L (cs ++ [c]) := by
  intro pre c' post heq
  rcases List.eq_nil_or_concat' post with rfl | ⟨post, c2, rfl⟩
  · obtain ⟨rfl, hc'⟩ := List.append_inj' heq rfl
    rw [← (List.cons.inj hc').1]
    exact hc
  · rw [← List.cons_append, ← List.append_assoc] at heq
    exact h pre c' post (List.append_inj' heq rfl).1

/-- What an access consumes was installed by the construction of its key before it. -/
theorem Chained.installed {cs pre post : List (Construction cfg)} {c : Construction cfg} {mk : Bytes}
    (h : Chained L cs) (hcs : cs = pre ++ c :: post) (hc : c.Consumes mk) :
    ∃ c0, lastFor pre c.op.key = some c0 ∧ c0.draw.masterKey = mk := by
  obtain ⟨hpath, n, hn, hmk⟩ := hc
  obtain ⟨c0, hc0, hcont⟩ := (h pre c post hcs).resolve_left hpath
  have hderives : derives cfg c.op c.path n = true := by
    cases hp : c.path with
    | create => exact absurd hp hpath
    | get => rfl
    | put => rfl
  exact ⟨c0, hc0, by rw [← hmk, hcont.masterKey n hn hderives]⟩

/-- If the master keys are all different no two accesses consume the same one. -/
theorem Chained.pairwise {cs : List (Construction cfg)} (h : Chained L cs)
    (hfresh : (cs.map fun c => c.draw.masterKey).Nodup) :
    cs.Pairwise fun c c' => ∀ mk, ¬ (c.Consumes mk ∧ c'.Consumes mk) := by
  induction cs using List.reverseRecOn with
  | nil => exact List.Pairwise.nil
  | append_singleton cs c' ih =>
    have hprefix : Chained L cs := fun pre c post heq =>
      h pre c (post ++ [c']) (by rw [heq, List.append_assoc, List.cons_append])
    have hnodup : (cs.map fun c => c.draw.masterKey).Nodup := by
      rw [List.map_append] at hfresh
      exact (List.nodup_append.mp hfresh).1
    rw [List.pairwise_append]
    refine ⟨ih hprefix hnodup, List.pairwise_singleton _ _, ?_⟩
    intro c hc c2 hc2 mk hmk
    obtain ⟨hconsumes, hconsumes'⟩ := hmk
    rw [List.mem_singleton.mp hc2] at hconsumes'
    obtain ⟨pre, post, rfl⟩ := List.append_of_mem hc
    obtain ⟨c0, hc0, hmk0⟩ := hprefix.installed L rfl hconsumes
    obtain ⟨c1, hc1, hmk1⟩ := h.installed L rfl hconsumes'
    obtain ⟨hmem0, hkey0⟩ := lastFor_mem hc0
    obtain ⟨hmem1, hkey1⟩ := lastFor_mem hc1
    -- the master key has been installed once, so both continue the same construction
    have hsame : c0 = c1 := List.inj_on_of_nodup_map hnodup (List.mem_append_left _ hmem0) hmem1
      (hmk0.trans hmk1.symm)
    have hkey : c'.op.key = c.op.key := by rw [← hkey1, ← hsame, hkey0]
    rw [hkey, ← hsame] at hc1
    have hlater := lastFor_mem_suffix hc1
    exact (List.nodup_append.mp (List.Nodup.of_map _ hnodup)).2.2 c0 hmem0 c0 hlater rfl

end History

/-! ### Steps outside the builders -/

section Outside

variable {cfg : Config} {L : Libsodium}

/-- The operation of a call whose key has a construction: it has built its
entry, or found the key in `keySet`. -/
def started : Pc → Option Operation
  | .tested op path => if path = .create then none else some op
  | .locked op path => if path = .create then none else some op
  | .built op _ _ => some op
  | .sized op _ _ => some op
  | _ => none

/-- What a step outside the builders keeps. -/
structure OutsideStep (w w' : World) : Prop where
  masterKeys : w'.globals.masterKeys = w.globals.masterKeys
  inside : ∀ i op path, w.calls i = .locked op path → w'.calls i = .locked op path
  started : ∀ i op, started (w'.calls i) = some op →
    started (w.calls i) = some op ∨ w.globals.keySet op.key = true
  keySet : ∀ key, w'.globals.keySet key = true →
    w.globals.keySet key = true ∨ ∃ i op, Builders.started (w.calls i) = some op ∧ op.key = key

/-- A call that goes on outside the builders. -/
theorem OutsideStep.goto {w w' : World} {i : ℕ} {pc pc' : Pc} (hpc : w.calls i = pc)
    (hcalls : w'.calls = Function.update w.calls i pc')
    (hkeys : w'.globals.masterKeys = w.globals.masterKeys)
    (hset : w'.globals.keySet = w.globals.keySet) (hlocked : ∀ op path, pc ≠ .locked op path)
    (hstarted : ∀ op, Builders.started pc' = some op →
      Builders.started pc = some op ∨ w.globals.keySet op.key = true) : OutsideStep w w' where
  masterKeys := hkeys
  inside j op path hj := by
    have hji : j ≠ i := by
      rintro rfl
      exact hlocked op path (hpc.symm.trans hj)
    rw [hcalls, Function.update_of_ne hji]
    exact hj
  started j op hj := by
    rw [hcalls] at hj
    by_cases hji : j = i
    · rw [hji, Function.update_self] at hj
      rw [hji, hpc]
      exact hstarted op hj
    · rw [Function.update_of_ne hji] at hj
      exact Or.inl hj
  keySet key hkey := Or.inl (hset ▸ hkey)

/-- A call that goes on to where it has nothing started. -/
theorem OutsideStep.unstarted {w w' : World} {i : ℕ} {pc pc' : Pc} (hpc : w.calls i = pc)
    (hcalls : w'.calls = Function.update w.calls i pc')
    (hkeys : w'.globals.masterKeys = w.globals.masterKeys)
    (hset : w'.globals.keySet = w.globals.keySet) (hlocked : ∀ op path, pc ≠ .locked op path)
    (hnone : Builders.started pc' = none) : OutsideStep w w' := by
  apply OutsideStep.goto hpc hcalls hkeys hset hlocked
  intro op hop
  rw [hnone] at hop
  cases hop

theorem OutsideStep.of_callStep {w w' : World} {i : ℕ} {d : Draw cfg}
    (h : CallStep cfg L w i d w') (hat : atBuilder w (.step i d : Act cfg) = false) :
    OutsideStep w w' := by
  have hlocked : ∀ op path, w.calls i ≠ .locked op path := by
    intro op path hpc
    simp [atBuilder, hpc] at hat
  cases h with
  | test op hpc hset =>
    refine .goto hpc rfl rfl rfl (by simp) fun op' hop => ?_
    have hne : (if op.isGet then Path.get else Path.put) ≠ .create := by split <;> simp
    rw [Builders.started, if_neg hne, Option.some.injEq] at hop
    exact Or.inr (hop ▸ hset)
  | testMissing op hpc => exact .unstarted hpc rfl rfl rfl (by simp) rfl
  | testNew op hpc => exact .unstarted hpc rfl rfl rfl (by simp) rfl
  | lock op path hpc => exact .goto hpc rfl rfl rfl (by simp) (fun _ hop => Or.inl hop)
  | refuse op path hpc => exact .unstarted hpc rfl rfl rfl (by simp) rfl
  | constructed op path hpc => exact absurd hpc (hlocked op path)
  | tooLong op path hpc => exact absurd hpc (hlocked op path)
  | setSize op path entry hpc =>
    refine .goto hpc rfl rfl rfl (by simp) fun op' hop => Or.inl ?_
    split at hop
    · exact hop
    · cases hop
  | insertKey op path entry hpc =>
    have hgoto : OutsideStep w (w.goto i (.ready op path entry)) :=
      .unstarted hpc rfl rfl rfl (by simp) rfl
    refine ⟨hgoto.masterKeys, hgoto.inside, hgoto.started, fun key hkey => ?_⟩
    change Function.update w.globals.keySet op.key true key = true at hkey
    by_cases hk : key = op.key
    · exact Or.inr ⟨i, op, by rw [hpc]; rfl, hk.symm⟩
    · rw [Function.update_of_ne hk] at hkey
      exact Or.inl hkey
  | sendCreate op entry hpc => exact .unstarted hpc rfl rfl rfl (by simp) rfl
  | sendAccess op path entry hpc => exact .unstarted hpc rfl rfl rfl (by simp) rfl
  | read op labels value hpc => exact .unstarted hpc rfl rfl rfl (by simp) rfl
  | readFault op labels f hpc => exact .unstarted hpc rfl rfl rfl (by simp) rfl
  | skipRead op path labels hpc => exact .unstarted hpc rfl rfl rfl (by simp) rfl
  | count op path result hpc => exact .unstarted hpc rfl rfl rfl (by simp) rfl
  | unlock op result hpc => exact .unstarted hpc rfl rfl rfl (by simp) rfl

theorem OutsideStep.of_next {w w' : World} {a : Act cfg} (h : Proxy.next cfg L w a = some w')
    (hat : atBuilder w a = false) : OutsideStep w w' := by
  cases nextStep_of_next h with
  | call i op hpc => exact .unstarted hpc rfl rfl rfl (by simp) rfl
  | step i d _ hstep => exact .of_callStep hstep hat
  | failReady i op path entry hpc =>
    exact .unstarted hpc rfl rfl rfl (by simp) rfl
  | failWaiting i op path hpc =>
    exact .unstarted hpc rfl rfl rfl (by simp) rfl
  | process n order horder m =>
    obtain ⟨hg, hcalls | ⟨op, path, labels, hpc, hcalls⟩⟩ := @serve_globals cfg L w n m order
    · exact ⟨by rw [hg], fun i op path hi => by rw [hcalls]; exact hi,
        fun i op hi => Or.inl (by rw [← hcalls]; exact hi), fun key hkey => Or.inl (hg ▸ hkey)⟩
    · exact .unstarted hpc hcalls (by rw [hg]) (by rw [hg]) (by simp) rfl

end Outside

/-! ### The invariant -/

section Invariant

variable {cfg : Config} {L : Libsodium}

/-- A create of `key` has entered its builder and not returned. -/
def Creating (s : State cfg) (key : Bytes) : Prop :=
  ∃ i op, s.world.calls i = .locked op .create ∧ s.building i ≠ .outside ∧ op.key = key

/-- The master key that a builder finds in the map. -/
def Source (cs : List (Construction cfg)) (op : Operation) (path : Path) (d : Draw cfg)
    (masterKey : Bytes) : Prop :=
  if path = .create then masterKey = d.masterKey
  else ∃ c, lastFor cs op.key = some c ∧ masterKey = c.draw.masterKey

/-- The map has the master key of each key's last construction, but for a key
that is being created; and what the builders have read is that. -/
structure Inv (L : Libsodium) (cs : List (Construction cfg)) (s : State cfg) : Prop where
  locks : LockInv s.world
  inside : ∀ i, s.building i ≠ .outside → ∃ op path, s.world.calls i = .locked op path
  started : ∀ i op, started (s.world.calls i) = some op → (lastFor cs op.key).isSome = true
  known : ∀ key, s.world.globals.keySet key = true → (lastFor cs key).isSome = true
  current : ∀ key c, lastFor cs key = some c → ¬ Creating s key →
    s.world.globals.masterKeys key = c.draw.masterKey
  filled : ∀ i op d masterKey, s.world.calls i = .locked op .create →
    s.building i = .drawn d masterKey → s.world.globals.masterKeys op.key = d.masterKey
  reading : ∀ i op path d masterKey, s.world.calls i = .locked op path →
    s.building i = .drawn d masterKey → ∀ n mk, masterKey n = some mk → Source cs op path d mk
  chained : Chained L cs

theorem inv_initial (db : Db) : Inv L [] (initial cfg db) where
  locks := lockInv_initial none db
  inside _ h := absurd rfl h
  started _ _ h := nomatch h
  known _ h := nomatch h
  current _ _ h := nomatch h
  filled _ _ _ _ h := nomatch h
  reading _ _ _ _ _ h := nomatch h
  chained := chained_nil L

variable {cs : List (Construction cfg)} {s s' : State cfg}

/-- A call that is at its builder, or in it, has the lock of its key for itself. -/
theorem Inv.apart (h : Inv L cs s) {i j : ℕ} {op op' : Operation} {path path' : Path}
    (hi : s.world.calls i = .locked op path) (hj : s.world.calls j = .locked op' path')
    (hk : op'.key = op.key) : j = i :=
  h.locks.unique j i op.key ⟨op', by rw [hj]; rfl, hk⟩ ⟨op, by rw [hi]; rfl, rfl⟩

/-- Nobody else creates the key of a call that is at its builder. -/
theorem Inv.not_creating (h : Inv L cs s) {i : ℕ} {op : Operation} {path : Path}
    (hi : s.world.calls i = .locked op path) (hpath : path ≠ .create) : ¬ Creating s op.key := by
  rintro ⟨j, op', hj, -, hk⟩
  have hji : j = i := h.apart hi hj hk
  rw [hji, hi] at hj
  exact hpath (Pc.locked.inj hj).2

/-- What a builder reads next. -/
theorem Inv.source (h : Inv L cs s) {i : ℕ} {op : Operation} {path : Path} {d : Draw cfg}
    {masterKey : ℕ → Option Bytes} (hi : s.world.calls i = .locked op path)
    (hb : s.building i = .drawn d masterKey) :
    Source cs op path d (s.world.globals.masterKeys op.key) := by
  unfold Source
  by_cases hpath : path = .create
  · rw [if_pos hpath]
    exact h.filled i op d masterKey (hpath ▸ hi) hb
  · rw [if_neg hpath]
    have hstarted : Builders.started (s.world.calls i) = some op := by
      rw [hi, Builders.started, if_neg hpath]
    obtain ⟨c, hc⟩ := Option.isSome_iff_exists.mp (h.started i op hstarted)
    exact ⟨c, hc, h.current op.key c hc (h.not_creating hi hpath)⟩

theorem Inv.outside (h : Inv L cs s) {a : Act cfg} {w : World}
    (ha : Proxy.next cfg L s.world a = some w) (hat : atBuilder s.world a = false) :
    Inv L cs { s with world := w } := by
  have hout := OutsideStep.of_next ha hat
  -- a call that is in its builder has not moved
  have hback : ∀ i op path, w.calls i = .locked op path → s.building i ≠ .outside →
      s.world.calls i = .locked op path := by
    intro i op path hi hb
    obtain ⟨op', path', hi'⟩ := h.inside i hb
    have hsame := hout.inside i op' path' hi'
    rw [hi, Pc.locked.injEq] at hsame
    rw [hi', hsame.1, hsame.2]
  constructor
  · exact h.locks.step (lockStep_of_next ha)
  · intro i hb
    obtain ⟨op, path, hi⟩ := h.inside i hb
    exact ⟨op, path, hout.inside i op path hi⟩
  · intro i op hi
    rcases hout.started i op hi with hi | hset
    · exact h.started i op hi
    · exact h.known op.key hset
  · intro key hkey
    rcases hout.keySet key hkey with hkey | ⟨i, op, hi, rfl⟩
    · exact h.known key hkey
    · exact h.started i op hi
  · intro key c hc hnot
    refine (congrFun hout.masterKeys key).trans (h.current key c hc fun hcreating => hnot ?_)
    obtain ⟨i, op, hi, hb, hk⟩ := hcreating
    exact ⟨i, op, hout.inside i op .create hi, hb, hk⟩
  · intro i op d masterKey hi hb
    have hb' : s.building i ≠ .outside := by rw [hb]; simp
    exact (congrFun hout.masterKeys op.key).trans
      (h.filled i op d masterKey (hback i op .create hi hb') hb)
  · intro i op path d masterKey hi hb
    have hb' : s.building i ≠ .outside := by rw [hb]; simp
    exact h.reading i op path d masterKey (hback i op path hi hb') hb
  · exact h.chained

/-- A call goes on inside its builder: the map changes at most at its key, if
it creates it. -/
theorem Inv.inBuilder (h : Inv L cs s) {i : ℕ} {op : Operation} {path : Path} {b : Building cfg}
    (hi : s.world.calls i = .locked op path) (hb : b ≠ .outside)
    (hbuilding : s'.building = Function.update s.building i b)
    (hcalls : s'.world.calls = s.world.calls)
    (hset : s'.world.globals.keySet = s.world.globals.keySet)
    (hlocks : s'.world.globals.locks = s.world.globals.locks)
    (hkeys : ∀ key, (path = .create → key ≠ op.key) →
      s'.world.globals.masterKeys key = s.world.globals.masterKeys key)
    (hfilled : ∀ d masterKey, b = .drawn d masterKey → path = .create →
      s'.world.globals.masterKeys op.key = d.masterKey)
    (hreading : ∀ d masterKey, b = .drawn d masterKey → ∀ n mk, masterKey n = some mk →
      Source cs op path d mk) : Inv L cs s' := by
  constructor
  · have hquiet : LockStep (.call 0 op : Act cfg) s.world s'.world :=
      .quiet (fun j => by rw [hcalls]) (fun j op' => by rw [hcalls]) hlocks
    exact h.locks.step hquiet
  · intro j hj
    rw [hcalls]
    by_cases hji : j = i
    · exact ⟨op, path, hji ▸ hi⟩
    · rw [hbuilding, Function.update_of_ne hji] at hj
      exact h.inside j hj
  · intro j op' hj
    rw [hcalls] at hj
    exact h.started j op' hj
  · intro key hkey
    rw [hset] at hkey
    exact h.known key hkey
  · intro key c hc hnot
    have hself : path = .create → key ≠ op.key := by
      intro hpath hk
      exact hnot ⟨i, op, by rw [hcalls, hi, hpath],
        by rw [hbuilding, Function.update_self]; exact hb, hk.symm⟩
    rw [hkeys key hself]
    refine h.current key c hc fun hcreating => hnot ?_
    obtain ⟨j, op', hj, hbj, hk⟩ := hcreating
    refine ⟨j, op', by rw [hcalls, hj], ?_, hk⟩
    rw [hbuilding]
    by_cases hji : j = i
    · rw [hji, Function.update_self]
      exact hb
    · rw [Function.update_of_ne hji]
      exact hbj
  · intro j op' d masterKey hj hbj
    rw [hcalls] at hj
    by_cases hji : j = i
    · rw [hbuilding, hji, Function.update_self] at hbj
      rw [hji, hi, Pc.locked.injEq] at hj
      obtain ⟨rfl, hpath⟩ := hj
      exact hfilled d masterKey hbj hpath
    · rw [hbuilding, Function.update_of_ne hji] at hbj
      have hk : op'.key ≠ op.key := fun hk => hji (h.apart hi hj hk)
      rw [hkeys op'.key fun _ => hk]
      exact h.filled j op' d masterKey hj hbj
  · intro j op' path' d masterKey hj hbj
    rw [hcalls] at hj
    by_cases hji : j = i
    · rw [hbuilding, hji, Function.update_self] at hbj
      rw [hji, hi, Pc.locked.injEq] at hj
      obtain ⟨rfl, rfl⟩ := hj
      exact hreading d masterKey hbj
    · rw [hbuilding, Function.update_of_ne hji] at hbj
      exact h.reading j op' path' d masterKey hj hbj
  · exact h.chained

/-- A value that does not fit: the builder throws before it changes anything. -/
theorem Inv.tooLong (h : Inv L cs s) {i : ℕ} {op : Operation} {path : Path}
    (hi : s.world.calls i = .locked op path) (hb : s.building i = .outside) :
    Inv L cs { s with world := s.world.goto i (.threw op) } := by
  have hother : ∀ {j pc}, (s.world.goto i (.threw op)).calls j = pc → pc ≠ .threw op →
      s.world.calls j = pc := by
    intro j pc hj hpc
    have hji : j ≠ i := by
      rintro rfl
      rw [goto_calls_self] at hj
      exact hpc hj.symm
    rwa [goto_calls_ne _ _ _ hji] at hj
  constructor
  · have hthrow : LockStep (.call 0 op : Act cfg) s.world (s.world.goto i (.threw op)) :=
      .throw i op (by rw [hi]; rfl) rfl rfl
    exact h.locks.step hthrow
  · intro j hj
    have hji : j ≠ i := by
      rintro rfl
      exact hj hb
    rw [goto_calls_ne _ _ _ hji]
    exact h.inside j hj
  · intro j op' hj
    by_cases hji : j = i
    · rw [hji, goto_calls_self] at hj
      cases hj
    · rw [goto_calls_ne _ _ _ hji] at hj
      exact h.started j op' hj
  · exact h.known
  · intro key c hc hnot
    refine h.current key c hc fun hcreating => hnot ?_
    obtain ⟨j, op', hj, hbj, hk⟩ := hcreating
    have hji : j ≠ i := by
      rintro rfl
      exact hbj hb
    exact ⟨j, op', by rw [goto_calls_ne _ _ _ hji, hj], hbj, hk⟩
  · intro j op' d masterKey hj
    exact h.filled j op' d masterKey (hother hj (by simp))
  · intro j op' path' d masterKey hj
    exact h.reading j op' path' d masterKey (hother hj (by simp))
  · exact h.chained

/-- The construction that call `i` completes. -/
def finished (cfg : Config) (L : Libsodium) (i : ℕ) (op : Operation) (path : Path) (d : Draw cfg)
    (masterKey : ℕ → Option Bytes) : Construction cfg :=
  ⟨i, op, path, d, fun n => (masterKey n).getD [],
    readEntry cfg L op d (fun n => (masterKey n).getD []) path⟩

/-- It continues the construction of its key before it. -/
theorem Inv.continues (h : Inv L cs s) {i : ℕ} {op : Operation} {path : Path} {d : Draw cfg}
    {masterKey : ℕ → Option Bytes} (hi : s.world.calls i = .locked op path)
    (hb : s.building i = .drawn d masterKey) (hderived : Derived cfg op path masterKey) :
    path = .create ∨ ∃ c0, lastFor cs op.key = some c0 ∧
      Continues L c0 (finished cfg L i op path d masterKey) := by
  by_cases hpath : path = .create
  · exact Or.inl hpath
  right
  have hsource := h.source hi hb
  rw [Source, if_neg hpath] at hsource
  obtain ⟨c0, hc0, -⟩ := hsource
  have hread : ∀ n < 20 * cfg.valueSize, derives cfg op path n = true →
      (masterKey n).getD [] = c0.draw.masterKey := by
    intro n hn hd
    obtain ⟨mk, hmk⟩ := Option.isSome_iff_exists.mp (hderived n hn hd)
    have hsource := h.reading i op path d masterKey hi hb n mk hmk
    rw [Source, if_neg hpath] at hsource
    obtain ⟨c, hc, rfl⟩ := hsource
    rw [hc0, Option.some.injEq] at hc
    rw [hmk, Option.getD_some, hc]
  exact ⟨c0, hc0, hread, readEntry_eq hread fun hp => absurd hp hpath⟩

/-- A builder returns. -/
theorem Inv.finish (h : Inv L cs s) {i : ℕ} {op : Operation} {path : Path} {d : Draw cfg}
    {masterKey : ℕ → Option Bytes} (hi : s.world.calls i = .locked op path)
    (hb : s.building i = .drawn d masterKey) (hderived : Derived cfg op path masterKey) :
    Inv L (cs ++ [finished cfg L i op path d masterKey]) (stepFinish L s i op path d masterKey) := by
  have hlast : lastFor (cs ++ [finished cfg L i op path d masterKey]) op.key =
      some (finished cfg L i op path d masterKey) := lastFor_concat_self cs _
  have hkept : ∀ key, (lastFor cs key).isSome = true →
      (lastFor (cs ++ [finished cfg L i op path d masterKey]) key).isSome = true :=
    fun key => lastFor_concat_isSome
  have hpc : ∀ entry : Entry, ∀ op' path', (if path = .get then Pc.ready op path entry
      else Pc.built op path entry) ≠ .locked op' path' := by
    intro entry op' path'
    split <;> simp
  obtain ⟨entry, hcalls⟩ : ∃ entry, (stepFinish L s i op path d masterKey).world.calls =
      Function.update s.world.calls i
        (if path = .get then .ready op path entry else .built op path entry) :=
    ⟨_, congrArg (fun calls => Function.update calls i _) (install_calls _ _ _ _)⟩
  have hself : (stepFinish L s i op path d masterKey).world.calls i =
      if path = .get then .ready op path entry else .built op path entry := by
    rw [hcalls, Function.update_self]
  have hother : ∀ {j}, j ≠ i →
      (stepFinish L s i op path d masterKey).world.calls j = s.world.calls j := by
    intro j hj
    rw [hcalls, Function.update_of_ne hj]
  have hlocked : ∀ {j op' path'},
      (stepFinish L s i op path d masterKey).world.calls j = .locked op' path' →
      j ≠ i ∧ s.world.calls j = .locked op' path' := by
    intro j op' path' hj
    have hji : j ≠ i := by
      rintro rfl
      exact hpc entry op' path' (hself.symm.trans hj)
    exact ⟨hji, (hother hji).symm.trans hj⟩
  have hbuilding : ∀ {j}, j ≠ i →
      (stepFinish L s i op path d masterKey).building j = s.building j :=
    fun hj => Function.update_of_ne hj _ _
  constructor
  · have hquiet : LockStep (.call 0 op : Act cfg) s.world
        (stepFinish L s i op path d masterKey).world := by
      apply LockStep.quiet_goto hi hcalls
      · split <;> rfl
      · intro op'; split <;> simp
      · exact install_locks _ _ _ _
    exact h.locks.step hquiet
  · intro j hj
    have hji : j ≠ i := by
      rintro rfl
      exact hj (Function.update_self _ _ _)
    rw [hother hji]
    exact h.inside j (hbuilding hji ▸ hj)
  · intro j op' hj
    by_cases hji : j = i
    · rw [hji, hself] at hj
      split at hj
      · cases hj
      · rw [Builders.started, Option.some.injEq] at hj
        rw [← hj, hlast]
        rfl
    · rw [hother hji] at hj
      exact hkept op'.key (h.started j op' hj)
  · intro key hkey
    refine hkept key (h.known key ?_)
    rwa [stepFinish, goto_globals, install_keySet] at hkey
  · intro key c hc hnot
    by_cases hk : key = op.key
    · rw [hk, hlast, Option.some.injEq] at hc
      rw [hk, ← hc]
      by_cases hpath : path = .create
      · rw [stepFinish, goto_globals, install, if_pos hpath]
        exact h.filled i op d masterKey (hpath ▸ hi) hb
      · rw [stepFinish, goto_globals, install, if_neg hpath]
        exact Function.update_self _ _ _
    · have hne : key ≠ (finished cfg L i op path d masterKey).op.key := hk
      rw [lastFor_concat_ne _ hne] at hc
      refine (install_masterKeys_ne hk).trans (h.current key c hc fun hcreating => hnot ?_)
      obtain ⟨j, op', hj, hbj, hk'⟩ := hcreating
      have hji : j ≠ i := by
        rintro rfl
        rw [hi, Pc.locked.injEq] at hj
        exact hk (hj.1 ▸ hk'.symm)
      exact ⟨j, op', by rw [hother hji, hj], by rw [hbuilding hji]; exact hbj, hk'⟩
  · intro j op' d' masterKey' hj hbj
    obtain ⟨hji, hj⟩ := hlocked hj
    have hk : op'.key ≠ op.key := fun hk => hji (h.apart hi hj hk)
    rw [hbuilding hji] at hbj
    exact (install_masterKeys_ne hk).trans (h.filled j op' d' masterKey' hj hbj)
  · intro j op' path' d' masterKey' hj hbj n mk hmk
    obtain ⟨hji, hj⟩ := hlocked hj
    have hk : op'.key ≠ op.key := fun hk => hji (h.apart hi hj hk)
    rw [hbuilding hji] at hbj
    have hne : op'.key ≠ (finished cfg L i op path d masterKey).op.key := hk
    rw [Source, lastFor_concat_ne _ hne]
    exact h.reading j op' path' d' masterKey' hj hbj n mk hmk
  · exact h.chained.concat L (h.continues hi hb hderived)

/-- Every event keeps the invariant, with what it constructs. -/
theorem Inv.step {e : Event cfg} (h : Inv L cs s) (he : next L s e = some s') :
    Inv L (cs ++ constructed L s e) s' := by
  cases steps_of_next he with
  | outside a w hat ha =>
    rw [constructed, List.append_nil]
    exact h.outside ha hat
  | enter i op path hi hb =>
    rw [constructed, List.append_nil, stepEnter]
    split
    · exact h.tooLong hi hb
    · exact h.inBuilder hi (by simp) rfl (fill_calls _ _ _ _) (fill_keySet _ _ _ _)
        (fill_locks _ _ _ _) (fun key hk => fill_masterKeys_ne hk) (fun _ _ hd => by cases hd)
        (fun _ _ hd => by cases hd)
  | keygen i d op path hi hb =>
    rw [constructed, List.append_nil]
    apply h.inBuilder hi (by simp) rfl (fill_calls _ _ _ _) (fill_keySet _ _ _ _)
      (fill_locks _ _ _ _) (fun key hk => fill_masterKeys_ne hk)
    · intro d' masterKey hd hpath
      rw [← (Building.drawn.inj hd).1, stepKeygen, fill, if_pos hpath]
      exact Function.update_self _ _ _
    · intro d' masterKey hd n mk hmk
      rw [← (Building.drawn.inj hd).2] at hmk
      cases hmk
  | derive i n op path d masterKey hi hb =>
    rw [constructed, List.append_nil]
    have hbuilding : (stepDerive s i op d masterKey n).building = Function.update s.building i
        (.drawn d (Function.update masterKey n (some (s.world.globals.masterKeys op.key)))) := rfl
    apply h.inBuilder hi (by simp) hbuilding rfl rfl rfl (fun key _ => rfl)
    · intro d' masterKey' hd hpath
      rw [← (Building.drawn.inj hd).1]
      exact h.filled i op d masterKey (hpath ▸ hi) hb
    · intro d' masterKey' hd m mk hmk
      obtain ⟨rfl, rfl⟩ := Building.drawn.inj hd
      by_cases hm : m = n
      · rw [hm, Function.update_self, Option.some.injEq] at hmk
        rw [← hmk]
        exact h.source hi hb
      · rw [Function.update_of_ne hm] at hmk
        exact h.reading i op path d masterKey hi hb m mk hmk
  | finish i op path d masterKey hi hb hderived =>
    have hcs : constructed L s (.finish i) = [finished cfg L i op path d masterKey] := by
      rw [constructed, hi, hb]
      rfl
    rw [hcs]
    exact h.finish hi hb hderived

end Invariant

/-! ### Fresh master keys -/

section Fresh

variable {cfg : Config} {L : Libsodium}

/-- The master key that a builder has drawn. -/
def Building.drawnKey : Building cfg → Option Bytes
  | .drawn d _ => some d.masterKey
  | .outside => none
  | .entered => none

/-- Of the master keys `D` drawn so far each is in one construction or one
builder at most. -/
structure Fresh (D : List Bytes) (cs : List (Construction cfg)) (s : State cfg) : Prop where
  drawn : ∀ i mk, (s.building i).drawnKey = some mk → mk ∈ D
  unused : ∀ i mk, (s.building i).drawnKey = some mk → ∀ c ∈ cs, c.draw.masterKey ≠ mk
  apart : ∀ i j mk, (s.building i).drawnKey = some mk → (s.building j).drawnKey = some mk → i = j
  used : ∀ c ∈ cs, c.draw.masterKey ∈ D
  nodup : (cs.map fun c => c.draw.masterKey).Nodup

theorem fresh_initial (db : Db) : Fresh [] [] (initial cfg db) where
  drawn _ _ h := nomatch h
  unused _ _ h := nomatch h
  apart _ _ _ h := nomatch h
  used _ h := nomatch h
  nodup := List.nodup_nil

variable {D : List Bytes} {cs : List (Construction cfg)} {s s' : State cfg}

/-- No builder draws a master key. -/
theorem Fresh.undrawn (h : Fresh D cs s)
    (hkept : ∀ i mk, (s'.building i).drawnKey = some mk → (s.building i).drawnKey = some mk) :
    Fresh D cs s' where
  drawn i mk hi := h.drawn i mk (hkept i mk hi)
  unused i mk hi := h.unused i mk (hkept i mk hi)
  apart i j mk hi hj := h.apart i j mk (hkept i mk hi) (hkept j mk hj)
  used := h.used
  nodup := h.nodup

/-- A builder goes on with the master key that it had. -/
theorem Fresh.update (h : Fresh D cs s) {i : ℕ} {b : Building cfg}
    (hbuilding : s'.building = Function.update s.building i b)
    (hb : b.drawnKey = none ∨ b.drawnKey = (s.building i).drawnKey) : Fresh D cs s' := by
  refine h.undrawn fun j mk hj => ?_
  rw [hbuilding] at hj
  by_cases hji : j = i
  · rw [hji, Function.update_self] at hj
    rcases hb with hb | hb
    · rw [hb] at hj
      cases hj
    · rw [hji, ← hb]
      exact hj
  · rwa [Function.update_of_ne hji] at hj

theorem Fresh.keygen (h : Fresh D cs s) {i : ℕ} {d : Draw cfg} {masterKey : ℕ → Option Bytes}
    (hbuilding : s'.building = Function.update s.building i (.drawn d masterKey))
    (hnew : d.masterKey ∉ D) : Fresh (D ++ [d.masterKey]) cs s' := by
  have hcases : ∀ j mk, (s'.building j).drawnKey = some mk →
      (j = i ∧ mk = d.masterKey) ∨ (mk ≠ d.masterKey ∧ (s.building j).drawnKey = some mk) := by
    intro j mk hj
    rw [hbuilding] at hj
    by_cases hji : j = i
    · rw [hji, Function.update_self, Building.drawnKey, Option.some.injEq] at hj
      exact Or.inl ⟨hji, hj.symm⟩
    · rw [Function.update_of_ne hji] at hj
      exact Or.inr ⟨fun hmk => hnew (hmk ▸ h.drawn j mk hj), hj⟩
  constructor
  · intro j mk hj
    rcases hcases j mk hj with ⟨-, rfl⟩ | ⟨-, hj⟩
    · exact List.mem_append_right _ (List.mem_singleton_self _)
    · exact List.mem_append_left _ (h.drawn j mk hj)
  · intro j mk hj c hc
    rcases hcases j mk hj with ⟨-, rfl⟩ | ⟨-, hj⟩
    · intro hmk
      exact hnew (hmk ▸ h.used c hc)
    · exact h.unused j mk hj c hc
  · intro j k mk hj hk
    rcases hcases j mk hj with ⟨rfl, hmk⟩ | ⟨hmk, hj⟩
    · rcases hcases k mk hk with ⟨rfl, -⟩ | ⟨hne, -⟩
      · rfl
      · exact absurd hmk hne
    · rcases hcases k mk hk with ⟨rfl, heq⟩ | ⟨-, hk⟩
      · exact absurd heq hmk
      · exact h.apart j k mk hj hk
  · exact fun c hc => List.mem_append_left _ (h.used c hc)
  · exact h.nodup

theorem Fresh.finish (h : Fresh D cs s) {i : ℕ} {c : Construction cfg}
    (hi : (s.building i).drawnKey = some c.draw.masterKey)
    (hbuilding : s'.building = Function.update s.building i .outside) : Fresh D (cs ++ [c]) s' := by
  have hcases : ∀ j mk, (s'.building j).drawnKey = some mk →
      j ≠ i ∧ (s.building j).drawnKey = some mk := by
    intro j mk hj
    rw [hbuilding] at hj
    have hji : j ≠ i := by
      rintro rfl
      rw [Function.update_self] at hj
      cases hj
    rw [Function.update_of_ne hji] at hj
    exact ⟨hji, hj⟩
  constructor
  · exact fun j mk hj => h.drawn j mk (hcases j mk hj).2
  · intro j mk hj c' hc' hmk
    obtain ⟨hji, hj⟩ := hcases j mk hj
    rcases List.mem_append.mp hc' with hc' | hc'
    · exact h.unused j mk hj c' hc' hmk
    · rw [List.mem_singleton.mp hc'] at hmk
      exact hji (h.apart j i mk hj (hmk ▸ hi))
  · exact fun j k mk hj hk => h.apart j k mk (hcases j mk hj).2 (hcases k mk hk).2
  · intro c' hc'
    rcases List.mem_append.mp hc' with hc' | hc'
    · exact h.used c' hc'
    · rw [List.mem_singleton.mp hc']
      exact h.drawn i _ hi
  · rw [List.map_append, List.map_singleton]
    refine List.nodup_append.mpr ⟨h.nodup, List.nodup_singleton _, ?_⟩
    intro mk hmk mk' hmk'
    obtain ⟨c', hc', rfl⟩ := List.mem_map.mp hmk
    rw [List.mem_singleton.mp hmk']
    exact h.unused i _ hi c' hc'

theorem Fresh.step {e : Event cfg} (h : Fresh D cs s) (he : next L s e = some s')
    (hnew : (D ++ keys e).Nodup) : Fresh (D ++ keys e) (cs ++ constructed L s e) s' := by
  cases steps_of_next he with
  | outside a w hat ha =>
    rw [keys, constructed, List.append_nil, List.append_nil]
    exact h.undrawn fun _ _ hi => hi
  | enter i op path hi hb =>
    rw [keys, constructed, List.append_nil, List.append_nil, stepEnter]
    split
    · exact h.undrawn fun _ _ hi => hi
    · exact h.update rfl (Or.inl rfl)
  | keygen i d op path hi hb =>
    rw [constructed, List.append_nil]
    refine h.keygen rfl fun hmem => ?_
    exact (List.nodup_append.mp hnew).2.2 _ hmem _ (List.mem_singleton_self _) rfl
  | derive i n op path d masterKey hi hb =>
    rw [keys, constructed, List.append_nil, List.append_nil]
    exact h.update rfl (Or.inr (by rw [hb]; rfl))
  | finish i op path d masterKey hi hb hderived =>
    have hcs : constructed L s (.finish i) = [finished cfg L i op path d masterKey] := by
      rw [constructed, hi, hb]
      rfl
    rw [keys, List.append_nil, hcs]
    exact h.finish (by rw [hb]; rfl) rfl

end Fresh

/-! ### Runs -/

/-- The entries constructed along a run, in order of construction. -/
def constructions (cfg : Config) (L : Libsodium) (db : Db) (es : List (Event cfg)) :
    List (Construction cfg) :=
  collect (next L) (constructed L) (initial cfg db) es

section Runs

variable {cfg : Config} {L : Libsodium} {db : Db} {es : List (Event cfg)} {s : State cfg}

theorem inv_run (h : run (next L) (initial cfg db) es = some s) :
    Inv L (constructions cfg L db es) s := by
  refine run_inv (next L) (fun es s => Inv L (constructions cfg L db es) s) (inv_initial db) ?_
    (along_of_forall (next L) _ (fun _ _ => trivial) : Along _ (fun _ _ => True) _ _) h
  intro es s e s' hrun hI _ he
  have hcs : constructions cfg L db (es ++ [e]) = constructions cfg L db es ++ constructed L s e :=
    collect_concat (next L) _ hrun he
  rw [hcs]
  exact hI.step he

theorem fresh_run (h : run (next L) (initial cfg db) es = some s) (hfresh : (es.flatMap keys).Nodup) :
    Fresh (es.flatMap keys) (constructions cfg L db es) s := by
  refine run_inv (next L) (fun es s => (es.flatMap keys).Nodup →
    Fresh (es.flatMap keys) (constructions cfg L db es) s) (fun _ => fresh_initial db) ?_
    (along_of_forall (next L) _ (fun _ _ => trivial) : Along _ (fun _ _ => True) _ _) h hfresh
  intro es s e s' hrun hI _ he hnew
  have hcs : constructions cfg L db (es ++ [e]) = constructions cfg L db es ++ constructed L s e :=
    collect_concat (next L) _ hrun he
  have hkeys : (es ++ [e]).flatMap keys = es.flatMap keys ++ keys e := by simp
  rw [hkeys] at hnew
  rw [hcs, hkeys]
  exact (hI (List.nodup_append.mp hnew).1).step he hnew

/-- In every run from an empty proxy, whatever calls fail, at most one call is
past the lock of a key; the constructions of each key begin with a create, and
each access encrypts under labels of the master key that the construction of
its key before it installed. So if `crypto_kdf_keygen` never repeats itself no
two accesses consume the same master key. -/
theorem constructions_chained (cfg : Config) (L : Libsodium) (db : Db) {es : List (Event cfg)}
    {s : State cfg} (hrun : run (next L) (initial cfg db) es = some s)
    (hfresh : (es.flatMap keys).Nodup) :
    (∀ i j key, Holds s.world i key → Holds s.world j key → i = j) ∧
      Chained L (constructions cfg L db es) ∧
      (constructions cfg L db es).Pairwise fun c c' => ∀ mk, ¬ (c.Consumes mk ∧ c'.Consumes mk) := by
  have hI := inv_run hrun
  exact ⟨hI.locks.unique, hI.chained, hI.chained.pairwise L (fresh_run hrun hfresh).nodup⟩

end Runs

/-! ### A PUT and a GET -/

section Example

variable {cfg : Config} {L : Libsodium} {w : World} {i : ℕ} {op : Operation} {d : Draw cfg}

/-- A PUT of a new key draws one master key. -/
theorem drawn_create (hidle : w.calls i = .idle) (hset : w.globals.keySet op.key = false)
    (hput : op.isGet = false) (hlock : w.globals.locks op.key = some true)
    (hfits : op.value.length ≤ cfg.valueSize) :
    collect (Proxy.next cfg L) drawnIn w (.call i op :: List.replicate 8 (.step i d)) =
      [d.masterKey] := by
  have hc : ∀ g, construct cfg L g op d .create =
      .ok (g.rekey op.key d.masterKey, createEntry cfg L op.key op.value d) :=
    fun g => construct_of_fits g d fun _ => hfits
  have hlong : ¬ (Path.create ≠ .get ∧ cfg.valueSize < op.value.length) := by
    rintro ⟨-, hlt⟩
    omega
  simp only [List.replicate, collect, Proxy.next, stepCall, drawnIn, hidle, hset, hput, hlock, hc,
    hlong, goto_calls_self, goto_goto, setGlobals_goto, send_goto, goto_globals, Bool.false_eq_true,
    if_false, if_true, reduceCtorEq, List.append_nil, List.nil_append]

/-- A GET of a key that is there draws one master key. -/
theorem drawn_get (hidle : w.calls i = .idle) (hset : w.globals.keySet op.key = true)
    (hget : op.isGet = true) (hlock : w.globals.locks op.key = some true) :
    collect (Proxy.next cfg L) drawnIn w (.call i op :: List.replicate 4 (.step i d)) =
      [d.masterKey] := by
  have hc : ∀ g, construct cfg L g op d .get =
      .ok (g.rekey op.key d.masterKey, getEntry cfg L op.key (g.masterKeys op.key) d) :=
    fun g => construct_of_fits g d fun hpath => absurd rfl hpath
  simp only [List.replicate, collect, Proxy.next, stepCall, drawnIn, hidle, hset, hget, hlock, hc,
    goto_calls_self, goto_goto, setGlobals_goto, send_goto, goto_globals, ne_eq, not_true_eq_false,
    false_and, if_false, if_true, reduceCtorEq, List.append_nil, List.nil_append]

/-- A PUT of a new key and then a GET of it. -/
theorem constructions_chained_put_get : ∃ es s,
    run (next Libsodium.plain) (initial constants fun _ => none) es = some s ∧
      (es.flatMap keys = [List.replicate 32 1, List.replicate 32 2]) ∧
      Chained Libsodium.plain (constructions constants Libsodium.plain (fun _ => none) es) := by
  have hget : ∃ w, run (Proxy.next constants Libsodium.plain) (afterPut constants) (getRun _) = some w ∧
    w.net = [putMessage _, getMessage _] ∧ w.db = (fun _ => none) ∧
    w.calls 0 = .returned firstPut [] ∧ w.serverUp = true := run_getRun
  obtain ⟨w, hw, -⟩ := hget
  have hrun : run (Proxy.next constants Libsodium.plain) (Proxy.initial constants none fun _ => none)
      (putRun constants ++ getRun constants) = some w := by
    rw [run_append, run_putRun (by decide), Option.bind_some, hw]
  have hlock : (Proxy.initial constants none fun _ => none).globals.locks firstPut.key = some true := by
    rw [initial_locks]
    exact setupLocks_eq_true_iff.mpr ⟨0, by decide, by decide⟩
  have hput : collect (Proxy.next constants Libsodium.plain) drawnIn
      (Proxy.initial constants none fun _ => none) (putRun constants) = [List.replicate 32 1] :=
    drawn_create rfl rfl (by decide) hlock constants.valueSize_pos
  have hget : collect (Proxy.next constants Libsodium.plain) drawnIn (afterPut constants)
      (getRun constants) = [List.replicate 32 2] :=
    drawn_get rfl afterPut_keySet (by decide) afterPut_locks
  obtain ⟨es, hes, hkeys⟩ := run_of_run hrun
  rw [collect_append _ _ (run_putRun (by decide)), hput, hget] at hkeys
  have hfresh : (es.flatMap keys).Nodup := by
    rw [hkeys]
    decide
  exact ⟨es, _, hes, hkeys, (constructions_chained constants Libsodium.plain _ hes hfresh).2.1⟩

end Example

end Builders
end Proxy
end Lbl
end Ortoa
