/-
# The proxy as a linearizable store

Behind a server that applies a message before its sender goes on, the calls of
`handleOp` that get past the lock are linearizable: a PUT of a key that exists
takes effect when it builds its entry, a PUT of a new key when it inserts the
key into `keySet`, a GET of a missing key when it tests `keySet`, and any
other GET when it reads its value out of the reply (`linearizable`). A call
that finds the lock taken gives up; it returns as if it were done, with an
empty result, and nothing tells its client (`refused_get_not_linearizable`).

Key definitions: `store`, `Pc.point`, `points`, `refusals`, `Synchronous`,
`SyncInv`, `LinearInv`.
Key theorems: `pointStep_of_next`, `sync_run`, `linearizable`.
-/
import Ortoa.Lbl.ProxyChain
import Ortoa.Linearize

namespace Ortoa
namespace Lbl
namespace Proxy

variable {cfg : Config} {L : Libsodium}

/-! ### The sequential store -/

/-- The store that the proxy stands for: the PUTs so far. A GET answers the
last value put under its key, or the empty string; a PUT answers the empty
string that `handleOp` leaves in `*_return`. -/
def store : Object Operation Bytes (List (Bytes × Bytes)) where
  init := []
  apply ws op := if op.isGet then ws else ws ++ [(op.key, op.value)]
  answer ws op := if op.isGet then (latest ws op.key).getD [] else []

theorem store_apply_get {ws : List (Bytes × Bytes)} {op : Operation} (h : op.isGet = true) :
    store.apply ws op = ws := if_pos h

theorem store_apply_put {ws : List (Bytes × Bytes)} {op : Operation} (h : op.isGet = false) :
    store.apply ws op = ws ++ [(op.key, op.value)] := if_neg (by rw [h]; decide)

theorem store_answer_get {ws : List (Bytes × Bytes)} {op : Operation} (h : op.isGet = true) :
    store.answer ws op = (latest ws op.key).getD [] := if_pos h

theorem store_answer_put {ws : List (Bytes × Bytes)} {op : Operation} (h : op.isGet = false) :
    store.answer ws op = [] := if_neg (by rw [h]; decide)

/-- What the client of a call knows. -/
def Pc.status : Pc → Status Operation Bytes
  | .idle => .fresh
  | .called op => .running op
  | .tested op _ => .running op
  | .locked op _ => .running op
  | .built op _ _ => .running op
  | .sized op _ _ => .running op
  | .ready op _ _ => .running op
  | .waiting op _ => .running op
  | .replied op _ _ => .running op
  | .done op _ _ => .running op
  | .counted op _ => .running op
  | .returned op result => .returned op result
  | .threw op => .running op

/-! ### Linearization points -/

/-- The operation and the answer of a call that has taken effect, or has
returned. -/
def Pc.point : Pc → Option (Operation × Bytes)
  | .built op path _ => if path = .put then some (op, []) else none
  | .ready op path _ => if path = .get then none else some (op, [])
  | .waiting op path => if path = .get then none else some (op, [])
  | .replied op path _ => if path = .get then none else some (op, [])
  | .done op _ result => some (op, result)
  | .counted op result => some (op, result)
  | .returned op result => some (op, result)
  | _ => none

/-- The call that takes effect in a step. -/
def points (cfg : Config) (L : Libsodium) (w : World) : Act cfg → List (ℕ × Operation × Bytes)
  | .step i d =>
    match w.calls i with
    | .called op => if w.globals.keySet op.key then [] else if op.isGet then [(i, op, [])] else []
    | .locked op path => if path = .put then [(i, op, [])] else []
    | .sized op _ _ => [(i, op, [])]
    | .replied op path labels =>
      if path = .get then
        match readValueFromLabels cfg L w.globals op.key labels d.uninit with
        | .ok value => [(i, op, value)]
        | .error _ => []
      else []
    | _ => []
  | _ => []

/-- The call that gives up in a step, because it finds the lock taken. -/
def refusals (w : World) : Act cfg → List ℕ
  | .step i _ =>
    match w.calls i with
    | .tested op _ => if w.globals.locks op.key = some true then [] else [i]
    | _ => []
  | _ => []

/-- The calls that take effect in a run, in order. -/
def linearized (cfg : Config) (L : Libsodium) (as : List (Act cfg)) : List (ℕ × Operation × Bytes) :=
  collect (next cfg L) (points cfg L) (initial cfg none fun _ => none) as

/-- The calls that give up in a run. -/
def refused (cfg : Config) (L : Libsodium) (as : List (Act cfg)) : List ℕ :=
  collect (next cfg L) refusals (initial cfg none fun _ => none) as

def World.point (w : World) (i : ℕ) : Option (Operation × Bytes) := (w.calls i).point

def World.status (w : World) (i : ℕ) : Status Operation Bytes := (w.calls i).status

section Steps

variable {w w' : World} {i : ℕ} {d : Draw cfg} {pc pc' : Pc} {pts : List (ℕ × Operation × Bytes)}
  {outs : List ℕ}

/-- The other calls are where they were. -/
theorem point_of_update (hcalls : w'.calls = Function.update w.calls i pc') :
    w'.point i = pc'.point ∧ ∀ j, j ≠ i → w'.point j = w.point j := by
  unfold World.point
  rw [hcalls, Function.update_self]
  exact ⟨rfl, fun j hj => by rw [Function.update_of_ne hj]⟩

theorem pointStep_quiet (hpc : w.calls i = pc) (hcalls : w'.calls = Function.update w.calls i pc')
    (hpoint : pc'.point = pc.point) (hpts : pts = []) (houts : outs = []) :
    PointStep World.point w w' pts outs := by
  refine .quiet (fun j => ?_) hpts houts
  by_cases hj : j = i
  · rw [hj, (point_of_update hcalls).1, hpoint, World.point, hpc]
  · exact (point_of_update hcalls).2 j hj

theorem pointStep_pass {x : Operation} {y : Bytes} (hpc : w.calls i = pc)
    (hcalls : w'.calls = Function.update w.calls i pc') (hnone : pc.point = none)
    (hsome : pc'.point = some (x, y)) (hpts : pts = [(i, x, y)]) (houts : outs = []) :
    PointStep World.point w w' pts outs :=
  .pass i x y ((congrArg Pc.point hpc).trans hnone) ((point_of_update hcalls).1.trans hsome)
    (point_of_update hcalls).2 hpts houts

theorem pointStep_giveUp {x : Operation} {y : Bytes} (hpc : w.calls i = pc)
    (hcalls : w'.calls = Function.update w.calls i pc') (hnone : pc.point = none)
    (hsome : pc'.point = some (x, y)) (hpts : pts = []) (houts : outs = [i]) :
    PointStep World.point w w' pts outs :=
  .giveUp i x y ((congrArg Pc.point hpc).trans hnone) ((point_of_update hcalls).1.trans hsome)
    (point_of_update hcalls).2 hpts houts

/-- Every statement passes the point of its call at most once. -/
theorem pointStep_of_callStep {ws : List (Bytes × Bytes)} (hc : CallInv cfg ws w)
    (h : CallStep cfg L w i d w') :
    PointStep World.point w w' (points cfg L w (.step i d)) (refusals w (.step i d : Act cfg)) := by
  have hok := hc.calls i
  cases h with
  | test op hpc hset =>
    exact pointStep_quiet hpc rfl rfl (by simp [points, hpc, hset]) (by simp [refusals, hpc])
  | testMissing op hpc hset hget =>
    exact pointStep_pass hpc rfl rfl rfl (by simp [points, hpc, hset, hget]) (by simp [refusals, hpc])
  | testNew op hpc hset hget =>
    exact pointStep_quiet hpc rfl rfl (by simp [points, hpc, hset, hget]) (by simp [refusals, hpc])
  | lock op path hpc hlock =>
    exact pointStep_quiet hpc rfl rfl (by simp [points, hpc]) (by simp [refusals, hpc, hlock])
  | refuse op path hpc hlock =>
    exact pointStep_giveUp hpc rfl rfl rfl (by simp [points, hpc]) (by simp [refusals, hpc, hlock])
  | constructed op path hpc _ =>
    cases path with
    | put => exact pointStep_pass hpc rfl rfl rfl (by simp [points, hpc]) (by simp [refusals, hpc])
    | _ => exact pointStep_quiet hpc rfl rfl (by simp [points, hpc]) (by simp [refusals, hpc])
  | tooLong op path hpc hlong => exact absurd (hc.locked_fits i op path hpc) hlong
  | setSize op path entry hpc =>
    rw [hpc] at hok
    cases path with
    | get => exact absurd rfl hok.2.1
    | _ => exact pointStep_quiet hpc rfl rfl (by simp [points, hpc]) (by simp [refusals, hpc])
  | insertKey op path entry hpc =>
    rw [hpc] at hok
    obtain rfl := hok.2.1
    exact pointStep_pass hpc rfl rfl rfl (by simp [points, hpc]) (by simp [refusals, hpc])
  | sendCreate op entry hpc =>
    exact pointStep_quiet hpc rfl rfl (by simp [points, hpc]) (by simp [refusals, hpc])
  | sendAccess op path entry hpc _ =>
    exact pointStep_quiet hpc rfl rfl (by simp [points, hpc]) (by simp [refusals, hpc])
  | read op labels value hpc hread =>
    exact pointStep_pass hpc rfl rfl rfl (by simp [points, hpc, hread]) (by simp [refusals, hpc])
  | readFault op labels f hpc hread =>
    exact pointStep_quiet hpc rfl rfl (by simp [points, hpc, hread]) (by simp [refusals, hpc])
  | skipRead op path labels hpc hp =>
    exact pointStep_quiet hpc rfl (by simp [Pc.point, hp]) (by simp [points, hpc, hp])
      (by simp [refusals, hpc])
  | count op path result hpc =>
    exact pointStep_quiet hpc rfl rfl (by simp [points, hpc]) (by simp [refusals, hpc])
  | unlock op result hpc =>
    exact pointStep_quiet hpc rfl rfl (by simp [points, hpc]) (by simp [refusals, hpc])

theorem pointStep_of_next {a : Act cfg} {ws : List (Bytes × Bytes)} (hc : CallInv cfg ws w)
    (hfail : ∀ i, a ≠ .fail i) (h : next cfg L w a = some w') :
    PointStep World.point w w' (points cfg L w a) (refusals w a) := by
  cases nextStep_of_next h with
  | call i op hpc => exact pointStep_quiet hpc rfl rfl rfl rfl
  | step i d _ hstep => exact pointStep_of_callStep hc hstep
  | failReady i => exact absurd rfl (hfail i)
  | failWaiting i => exact absurd rfl (hfail i)
  | process n order horder m =>
    obtain ⟨-, hcalls | ⟨op, path, labels, hpc, hcalls⟩⟩ := serve_globals (L := L) w n m order
    · exact .quiet (fun j => by rw [World.point, hcalls]; rfl) rfl rfl
    · exact pointStep_quiet hpc hcalls rfl rfl rfl

end Steps

/-! ### A synchronous server -/

/-- The server has processed the messages of a call before it goes on. -/
def Synchronous (w : World) (a : Act cfg) : Prop :=
  ∀ i d, a = .step i d → ∀ m ∈ w.net, m.call ≠ i

/-- A message in flight belongs to the holder of its key, who has no other;
and a reply is the labels of the last value under the present master key. -/
structure SyncInv (cfg : Config) (L : Libsodium) (ws : List (Bytes × Bytes)) (w : World) : Prop where
  own : ∀ m ∈ w.net, Holds w m.call m.entry.keyName ∧ (w.calls m.call).unsent m.call = none
  single : w.net.Pairwise fun m m' => m.call ≠ m'.call
  replied : ∀ i op path labels, w.calls i = .replied op path labels → ∃ v,
    latest ws op.key = some v ∧ labels =
      labelString L cfg.valueSize (w.globals.masterKeys op.key) (padded v cfg.valueSize)

theorem unsent_call {pc : Pc} {i : ℕ} {m : Message} (h : pc.unsent i = some m) : m.call = i := by
  cases pc <;> first | cases h; done | (rw [← Option.some.inj h])

section SyncInv

variable {ws ws' : List (Bytes × Bytes)} {bs : List (ℕ × Bytes)} {w w' : World}

theorem syncInv_initial : SyncInv cfg L [] (initial cfg none fun _ => none) where
  own _ h := by cases h
  single := List.Pairwise.nil
  replied _ _ _ _ h := by cases h

/-- Two messages of one key would belong to the same call. -/
theorem SyncInv.inOrder (h : SyncInv cfg L ws w) (hl : LockInv w) (a : Act cfg) : InOrder w a := by
  intro n order _ m _ hm j hj m' hm' hk
  have hmem := List.mem_of_getElem? hm
  have hmem' := List.mem_of_getElem? hm'
  have heq : m'.call = m.call :=
    hl.unique m'.call m.call m.entry.keyName (hk ▸ (h.own m' hmem').1) (h.own m hmem).1
  obtain ⟨hn, rfl⟩ := List.getElem?_eq_some_iff.mp hm
  obtain ⟨hj', rfl⟩ := List.getElem?_eq_some_iff.mp hm'
  exact List.pairwise_iff_getElem.mp h.single j n hj' hn hj heq

/-- A message that is processed is the only one of its key. -/
theorem SyncInv.alone (h : SyncInv cfg L ws w) (hl : LockInv w) {n : ℕ} {m : Message}
    (hm : w.net[n]? = some m) : ∀ m' ∈ w.net.eraseIdx n, m'.entry.keyName ≠ m.entry.keyName := by
  intro m' hm' hk
  obtain ⟨j, hj⟩ := List.mem_iff_getElem?.mp hm'
  rw [List.getElem?_eraseIdx] at hj
  have hmem := List.mem_of_getElem? hm
  have hmem' := (List.eraseIdx_sublist w.net n).subset hm'
  have heq : m'.call = m.call :=
    hl.unique m'.call m.call m.entry.keyName (hk ▸ (h.own m' hmem').1) (h.own m hmem).1
  obtain ⟨hn, rfl⟩ := List.getElem?_eq_some_iff.mp hm
  split at hj
  · rename_i hlt
    obtain ⟨hj', rfl⟩ := List.getElem?_eq_some_iff.mp hj
    exact List.pairwise_iff_getElem.mp h.single j n hj' hn hlt heq
  · rename_i hge
    obtain ⟨hj', rfl⟩ := List.getElem?_eq_some_iff.mp hj
    exact List.pairwise_iff_getElem.mp h.single n (j + 1) hn hj' (by omega) heq.symm

/-- A statement moves its own call only, and not to a reply. -/
theorem calls_of_callStep {i : ℕ} {d : Draw cfg} (h : CallStep cfg L w i d w') :
    (∀ j, j ≠ i → w'.calls j = w.calls j) ∧ ∀ op path labels, w'.calls i ≠ .replied op path labels := by
  cases h with
  | constructed op path _ _ =>
    refine ⟨fun j hj => goto_calls_ne _ _ _ hj, ?_⟩
    rw [goto_calls_self]
    split <;> simp
  | setSize op path entry _ =>
    refine ⟨fun j hj => goto_calls_ne _ _ _ hj, ?_⟩
    rw [goto_calls_self]
    split <;> simp
  | _ => exact ⟨fun j hj => goto_calls_ne _ _ _ hj, by simp⟩

/-- What is in flight stays with its holder while nobody is replied to. -/
theorem SyncInv.keep (h : SyncInv cfg L ws w) (hnet : w'.net = w.net)
    (hcalls : ∀ m ∈ w.net, w'.calls m.call = w.calls m.call)
    (hreplied : ∀ i op path labels, w'.calls i = .replied op path labels →
      w.calls i = .replied op path labels ∧ latest ws' op.key = latest ws op.key ∧
        w'.globals.masterKeys op.key = w.globals.masterKeys op.key) : SyncInv cfg L ws' w' where
  own m hm := by
    rw [hnet] at hm
    obtain ⟨⟨op, hop, hk⟩, hsent⟩ := h.own m hm
    rw [Holds, hcalls m hm]
    exact ⟨⟨op, hop, hk⟩, hsent⟩
  single := hnet ▸ h.single
  replied i op path labels hi := by
    obtain ⟨hi, hlast, hmk⟩ := hreplied i op path labels hi
    rw [hlast, hmk]
    exact h.replied i op path labels hi

theorem SyncInv.send {i : ℕ} {m : Message} (h : SyncInv cfg L ws w) (hch : ChainInv cfg L ws bs w)
    (hm : (w.calls i).unsent i = some m) (hno : ∀ m ∈ w.net, m.call ≠ i)
    (hnet : w'.net = w.net ++ [m]) (hmk : w'.globals.masterKeys = w.globals.masterKeys)
    (hunsent : (w'.calls i).unsent i = none) (hhold : (w'.calls i).holding = (w.calls i).holding)
    (hother : ∀ j, j ≠ i → w'.calls j = w.calls j)
    (hnr : ∀ op path labels, w'.calls i ≠ .replied op path labels) : SyncInv cfg L ws w' where
  own m' hm' := by
    rw [hnet] at hm'
    rcases List.mem_append.mp hm' with hm' | hm'
    · rw [Holds, hother _ (hno m' hm')]
      exact h.own m' hm'
    · rw [List.mem_singleton.mp hm', unsent_call hm, Holds, hhold]
      exact ⟨hch.owned i m hm, hunsent⟩
  single := by
    rw [hnet, List.pairwise_append]
    refine ⟨h.single, List.pairwise_singleton _ _, fun m1 h1 m2 h2 => ?_⟩
    rw [List.mem_singleton.mp h2, unsent_call hm]
    exact hno m1 h1
  replied j op path labels hj := by
    have hji : j ≠ i := by
      rintro rfl
      exact hnr op path labels hj
    rw [hother j hji] at hj
    rw [hmk]
    exact h.replied j op path labels hj

/-- The reply to an access is the tip of the chain of its key, since no other
message of the key is under way. -/
theorem SyncInv.receive {n : ℕ} {m : Message} {order : List ℕ} (h : SyncInv cfg L ws w)
    (hS : cfg.serverNumThreads = 1 ∨ cfg.valueSize = 1) (hl : LockInv w)
    (hch : ChainInv cfg L ws bs w) (horder : order.Perm (List.range cfg.serverNumThreads))
    (hm : w.net[n]? = some m)
    (hfirst : ∀ j < n, ∀ m' : Message, w.net[j]? = some m' → m'.entry.keyName ≠ m.entry.keyName) :
    SyncInv cfg L ws (serve cfg L w n m order) := by
  obtain ⟨c, c', msgs, hdb, ht, hrest, hpend⟩ := hch.head hm hfirst
  obtain ⟨labels, hlabels, hserve⟩ := serve_takes (n := n) horder (all_reached hS) hdb ht
  obtain ⟨hhold, hsent⟩ := h.own m (List.mem_of_getElem? hm)
  -- what is stored is the tip
  have htip : tip cfg ws w.globals m.entry.keyName = c' := by
    have hnil : msgs = [] := by
      cases hpend { w with net := w.net.eraseIdx n } rfl (fun _ => rfl) with
      | sent _ => exact List.filter_eq_nil_iff.mpr fun m' hm' => by simpa using h.alone hl hm m' hm'
      | unsent j u hu hk =>
        have hj : j = m.call := hl.unique j m.call _ (hk ▸ hch.owned j u hu) hhold
        have hu' : (w.calls j).unsent j = some u := hu
        rw [hj, hsent] at hu'
        cases hu'
    rw [hnil] at hrest
    exact hrest.eq_of_nil.symm
  have hold : ∀ m' ∈ w.net.eraseIdx n, Holds w m'.call m'.entry.keyName ∧
      (w.calls m'.call).unsent m'.call = none :=
    fun m' hm' => h.own m' ((List.eraseIdx_sublist w.net n).subset hm')
  have hsingle := h.single.sublist (List.eraseIdx_sublist w.net n)
  have hsame : ∀ w' : World, w'.net = w.net.eraseIdx n → w'.calls = w.calls →
      w'.globals = w.globals → SyncInv cfg L ws w' := fun w' hnet hcalls hg =>
    ⟨fun m' hm' => by rw [Holds, hcalls]; exact hold m' (hnet ▸ hm'), hnet ▸ hsingle,
      fun i op path labels hi => by rw [hcalls] at hi; rw [hg]; exact h.replied i op path labels hi⟩
  rw [hserve]
  split
  · exact hsame _ rfl rfl rfl
  · rcases reply_cases (w.took n m.entry.keyName labels) m.call labels with hr | ⟨op, path, hpc, hr⟩
    · rw [hr]
      exact hsame _ rfl rfl rfl
    · have hpc' : w.calls m.call = .waiting op path := hpc
      have hkey : op.key = m.entry.keyName := by
        obtain ⟨op', hop, hk⟩ := hhold
        rw [hpc', Pc.holding, Option.some.injEq] at hop
        rw [hop, hk]
      rw [hr]
      constructor
      · intro m' hm'
        have hne : m'.call ≠ m.call := fun heq => by
          have := (hold m' hm').1
          rw [heq] at this
          obtain ⟨op', hop, hk⟩ := this
          rw [hpc', Pc.holding, Option.some.injEq] at hop
          exact h.alone hl hm m' hm' (by rw [← hk, ← hop, hkey])
        rw [Holds, goto_calls_ne _ _ _ hne]
        exact hold m' hm'
      · exact hsingle
      · intro i op' path' labels' hi
        by_cases him : i = m.call
        · rw [him, goto_calls_self, Pc.replied.injEq] at hi
          obtain ⟨rfl, -, rfl⟩ := hi
          rw [hkey]
          rw [← htip, tip] at hlabels
          cases hlast : latest ws m.entry.keyName with
          | none => rw [hlast] at hlabels; cases hlabels
          | some v =>
            rw [hlast] at hlabels
            exact ⟨v, rfl, (Option.some.inj hlabels).symm⟩
        · rw [goto_calls_ne _ _ _ him] at hi
          exact h.replied i op' path' labels' hi

/-- Every step keeps a message with its call. -/
theorem SyncInv.step {a : Act cfg} (h : SyncInv cfg L ws w)
    (hS : cfg.serverNumThreads = 1 ∨ cfg.valueSize = 1) (hl : LockInv w) (hc : CallInv cfg ws w)
    (hch : ChainInv cfg L ws bs w) (hfail : ∀ i, a ≠ .fail i) (hsync : Synchronous w a)
    (hnext : next cfg L w a = some w') : SyncInv cfg L (ws ++ builtPut w a) w' := by
  cases nextStep_of_next hnext with
  | call i op hpc =>
    rw [show builtPut w (.call i op : Act cfg) = [] from rfl, List.append_nil]
    refine h.keep rfl (fun m hm => goto_calls_ne _ _ _ ?_) fun j op' path labels hj => ⟨?_, rfl, rfl⟩
    · rintro heq
      obtain ⟨⟨op', hop, -⟩, -⟩ := h.own m hm
      rw [heq, hpc] at hop
      cases hop
    · by_cases hji : j = i
      · rw [hji, goto_calls_self] at hj
        cases hj
      · rwa [goto_calls_ne _ _ _ hji] at hj
  | step i d _ hstep =>
    obtain ⟨hother, hnr⟩ := calls_of_callStep hstep
    have hno := hsync i d rfl
    have hreplied : ∀ j op path labels, w'.calls j = .replied op path labels →
        j ≠ i ∧ w.calls j = .replied op path labels := by
      intro j op path labels hj
      have hji : j ≠ i := by
        rintro rfl
        exact hnr op path labels hj
      exact ⟨hji, by rw [← hother j hji, hj]⟩
    cases netStep_of_next hfail hc.locked_fits hnext with
    | quiet _ hnet _ hmk _ _ hput _ =>
      rw [hput, List.append_nil]
      exact h.keep hnet (fun m hm => hother _ (hno m hm)) fun j op path labels hj =>
        ⟨(hreplied j op path labels hj).2, rfl, by rw [hmk]⟩
    | build i' d' op path hact hpc _ _ hnet _ hmk _ _ _ =>
      obtain ⟨rfl, rfl⟩ := Act.step.inj hact
      refine h.keep hnet (fun m hm => hother _ (hno m hm)) fun j op' path' labels hj => ?_
      obtain ⟨hji, hj⟩ := hreplied j op' path' labels hj
      have hk : op'.key ≠ op.key := fun hk => hji (hl.unique j i op.key
        ⟨op', by rw [hj]; rfl, hk⟩ ⟨op, by rw [hpc]; rfl, rfl⟩)
      exact ⟨hj, latest_builtPut_ne _ _ hpc hk, by rw [hmk, Function.update_of_ne hk]⟩
    | send i' m hm _ hnet _ hmk hunsent hhold hother' hput _ =>
      have hi : i' = i := by
        by_contra hne
        rw [hother i' hne, hm] at hunsent
        cases hunsent
      subst hi
      rw [hput, List.append_nil]
      exact h.send hch hm hno hnet hmk hunsent hhold hother' hnr
    | receive n m order horder hact _ _ _ => cases hact
  | failReady i => exact absurd rfl (hfail i)
  | failWaiting i => exact absurd rfl (hfail i)
  | process n order horder m _ hm =>
    rw [show builtPut w (.process n order horder : Act cfg) = [] from rfl, List.append_nil]
    exact h.receive hS hl hch horder hm (h.inOrder hl _ n order horder m rfl hm)

end SyncInv

/-! ### What has taken effect -/

/-- The master keys that the steps of a run draw. -/
def drawn (as : List (Act cfg)) : List Bytes :=
  as.flatMap fun
    | .step _ d => [d.masterKey]
    | _ => []

/-- The calls that have taken effect, in order, against the proxy's own state:
`keySet` has their keys, and their last values are those written, unless a
call is about to insert its key. -/
structure LinearInv (ws : List (Bytes × Bytes)) (h : List (ℕ × Operation × Bytes)) (w : World) :
    Prop where
  legal : store.Legal h
  known : ∀ key, w.globals.keySet key = (latest (store.after h) key).isSome
  agree : ∀ key, latest (store.after h) key = latest ws key ∨ ∃ i op path entry,
    (w.calls i = .built op .create entry ∨ w.calls i = .sized op path entry) ∧ op.key = key

section LinearInv

variable {ws : List (Bytes × Bytes)} {h : List (ℕ × Operation × Bytes)} {w w' : World} {i : ℕ}
  {op : Operation} {d : Draw cfg}

theorem linearInv_initial : LinearInv [] [] (initial cfg none fun _ => none) where
  legal := store.legal_nil
  known _ := rfl
  agree _ := Or.inl rfl

/-- A call that goes on, and is not about to insert its key. -/
theorem LinearInv.keep {pc pc' : Pc} (hI : LinearInv ws h w) (hpc : w.calls i = pc)
    (hcalls : w'.calls = Function.update w.calls i pc')
    (hset : w'.globals.keySet = w.globals.keySet)
    (hbuilt : ∀ op path entry, pc ≠ .built op path entry)
    (hsized : ∀ op path entry, pc ≠ .sized op path entry) : LinearInv ws h w' where
  legal := hI.legal
  known key := by rw [hset, hI.known]
  agree key := by
    apply (hI.agree key).imp_right
    rintro ⟨j, op, path, entry, hj, hk⟩
    have hji : j ≠ i := by
      rintro rfl
      rw [hpc] at hj
      exact hj.elim (hbuilt _ _ _) (hsized _ _ _)
    exact ⟨j, op, path, entry, by rw [hcalls, Function.update_of_ne hji]; exact hj, hk⟩

/-- A GET takes effect. -/
theorem LinearInv.get (hI : LinearInv ws h w) (i : ℕ) (hop : op.isGet = true) {y : Bytes}
    (hy : y = (latest (store.after h) op.key).getD []) : LinearInv ws (h ++ [(i, op, y)]) w := by
  have hafter : store.after (h ++ [(i, op, y)]) = store.after h := by
    rw [store.after_concat, store_apply_get hop]
  constructor
  · exact hI.legal.concat (by rw [store_answer_get hop, hy])
  · intro key
    rw [hafter, hI.known]
  · intro key
    rw [hafter]
    exact hI.agree key

theorem after_put (h : List (ℕ × Operation × Bytes)) (i : ℕ) (hop : op.isGet = false) :
    store.after (h ++ [(i, op, [])]) = store.after h ++ [(op.key, op.value)] := by
  rw [store.after_concat, store_apply_put hop]

/-- A PUT of a key that exists takes effect when it builds its entry. -/
theorem LinearInv.put {entry : Entry} (hI : LinearInv ws h w) (hc : CallInv cfg ws w)
    (hpc : w.calls i = .locked op .put) : LinearInv (ws ++ builtPut w (.step i d : Act cfg))
      (h ++ [(i, op, [])]) ((w.setGlobals (w.globals.rekey op.key d.masterKey)).goto i
        (.built op .put entry)) := by
  obtain ⟨-, hget, hset⟩ : CallOk cfg ws w.globals (.locked op .put) := hpc ▸ hc.calls i
  have hop : op.isGet = false := by
    rw [← Bool.not_eq_true]
    exact fun hg => absurd (hget.mpr hg) (by decide)
  have hput : builtPut w (.step i d : Act cfg) = [(op.key, op.value)] := by simp [builtPut, hpc, hop]
  rw [hput]
  constructor
  · exact hI.legal.concat (store_answer_put hop).symm
  · intro key
    rw [after_put h i hop]
    by_cases hk : key = op.key
    · rw [hk, latest_concat_self]
      exact hset (by decide)
    · rw [latest_concat_ne _ _ hk]
      exact hI.known key
  · intro key
    rw [after_put h i hop]
    by_cases hk : key = op.key
    · rw [hk, latest_concat_self, latest_concat_self]
      exact Or.inl rfl
    · rw [latest_concat_ne _ _ hk, latest_concat_ne _ _ hk]
      have hkeep : LinearInv ws h ((w.setGlobals (w.globals.rekey op.key d.masterKey)).goto i
          (.built op .put entry)) := hI.keep hpc rfl rfl (by simp) (by simp)
      exact hkeep.agree key

/-- A PUT of a new key builds its entry, and has yet to insert the key. -/
theorem LinearInv.create {entry : Entry} (hI : LinearInv ws h w)
    (hpc : w.calls i = .locked op .create) : LinearInv (ws ++ builtPut w (.step i d : Act cfg)) h
      ((w.setGlobals (w.globals.rekey op.key d.masterKey)).goto i (.built op .create entry)) := by
  have hkeep : LinearInv ws h ((w.setGlobals (w.globals.rekey op.key d.masterKey)).goto i
      (.built op .create entry)) := hI.keep hpc rfl rfl (by simp) (by simp)
  refine ⟨hkeep.legal, hkeep.known, fun key => ?_⟩
  by_cases hk : key = op.key
  · exact Or.inr ⟨i, op, .create, entry, Or.inl (goto_calls_self _ _ _), hk.symm⟩
  · rw [latest_builtPut_ne _ _ hpc hk]
    exact hkeep.agree key

theorem LinearInv.setSize {path : Path} {entry : Entry} (hI : LinearInv ws h w)
    (hpc : w.calls i = .built op path entry) :
    LinearInv ws h ((w.setGlobals (w.globals.setSize op.key op.value.length)).goto i
      (if path = .create then .sized op path entry else .ready op path entry)) := by
  refine ⟨hI.legal, hI.known, fun key => (hI.agree key).imp_right ?_⟩
  rintro ⟨j, op', path', entry', hj, hk⟩
  by_cases hji : j = i
  · rw [hji, hpc] at hj
    obtain ⟨rfl, rfl, rfl⟩ := Pc.built.inj (hj.resolve_right (by simp))
    exact ⟨i, op, .create, entry, Or.inr (goto_calls_self _ _ _), hk⟩
  · exact ⟨j, op', path', entry', by rw [goto_calls_ne _ _ _ hji]; exact hj, hk⟩

/-- A PUT of a new key takes effect when it inserts the key. -/
theorem LinearInv.insertKey {path : Path} {entry : Entry} (hI : LinearInv ws h w)
    (hc : CallInv cfg ws w) (hpc : w.calls i = .sized op path entry) :
    LinearInv ws (h ++ [(i, op, [])])
      ((w.setGlobals (w.globals.insertKey op.key)).goto i (.ready op path entry)) := by
  obtain ⟨hop, -, hlast⟩ : CallOk cfg ws w.globals (.sized op path entry) := hpc ▸ hc.calls i
  constructor
  · exact hI.legal.concat (store_answer_put hop).symm
  · intro key
    rw [after_put h i hop]
    by_cases hk : key = op.key
    · rw [hk, latest_concat_self]
      exact Function.update_self _ _ _
    · rw [latest_concat_ne _ _ hk, ← hI.known key]
      exact Function.update_of_ne hk _ _
  · intro key
    rw [after_put h i hop]
    by_cases hk : key = op.key
    · rw [hk, latest_concat_self, hlast]
      exact Or.inl rfl
    · rw [latest_concat_ne _ _ hk]
      apply (hI.agree key).imp_right
      rintro ⟨j, op', path', entry', hj, hk'⟩
      have hji : j ≠ i := by
        rintro rfl
        rw [hpc] at hj
        exact hk (by rw [← hk', (Pc.sized.inj (hj.resolve_left (by simp))).1])
      exact ⟨j, op', path', entry', by rw [goto_calls_ne _ _ _ hji]; exact hj, hk'⟩

/-- A GET that reads its reply gets the last value that has taken effect: it
holds its key, so nobody else is about to insert it. -/
theorem LinearInv.read {labels value : Bytes} (hI : LinearInv ws h w) (hl : LockInv w)
    (hc : CallInv cfg ws w) (hs : SyncInv cfg L ws w)
    (hd : ∀ key v, latest ws key = some v → LabelsDiffer L (cfg.valueSize * 4) (w.globals.masterKeys key))
    (hpc : w.calls i = .replied op .get labels)
    (hread : readValueFromLabels cfg L w.globals op.key labels d.uninit = .ok value) :
    value = (latest (store.after h) op.key).getD [] := by
  have hi : Holds w i op.key := ⟨op, by rw [hpc]; rfl, rfl⟩
  obtain ⟨v, hlast, rfl⟩ := hs.replied i op .get labels hpc
  have hagree : latest (store.after h) op.key = latest ws op.key := by
    apply (hI.agree op.key).resolve_right
    rintro ⟨j, op', path, entry, hj, hk⟩
    have hji : j = i := hl.unique j i op.key
      ⟨op', by rcases hj with hj | hj <;> rw [hj] <;> rfl, hk⟩ hi
    rw [hji, hpc] at hj
    exact hj.elim (by simp) (by simp)
  have hsize : w.globals.valueSizes op.key = v.length := by
    apply (hc.sized op.key v hlast).resolve_right
    rintro ⟨j, op', path, entry, hj, hk⟩
    have hji : j = i := hl.unique j i op.key ⟨op', by rw [hj]; rfl, hk⟩ hi
    rw [hji, hpc] at hj
    cases hj
  rw [readValueFromLabels_eq cfg L w.globals op.key d.uninit
    (padded_length (hc.fits op.key v hlast)) (hd op.key v hlast), hsize, take_padded,
    Except.ok.injEq] at hread
  rw [hagree, hlast, ← hread]
  rfl

theorem LinearInv.callStep (hI : LinearInv ws h w) (hl : LockInv w) (hc : CallInv cfg ws w)
    (hs : SyncInv cfg L ws w)
    (hd : ∀ key v, latest ws key = some v → LabelsDiffer L (cfg.valueSize * 4) (w.globals.masterKeys key))
    (hstep : CallStep cfg L w i d w') : LinearInv (ws ++ builtPut w (.step i d : Act cfg))
      (h ++ points cfg L w (.step i d)) w' := by
  have hsame : ∀ puts pts, builtPut w (.step i d : Act cfg) = puts →
      points cfg L w (.step i d) = pts → LinearInv (ws ++ puts) (h ++ pts) w' →
      LinearInv (ws ++ builtPut w (.step i d : Act cfg)) (h ++ points cfg L w (.step i d)) w' := by
    rintro _ _ rfl rfl hI
    exact hI
  have hquiet : ∀ {pc pc'}, w.calls i = pc → w'.calls = Function.update w.calls i pc' →
      w'.globals.keySet = w.globals.keySet → builtPut w (.step i d : Act cfg) = [] →
      points cfg L w (.step i d) = [] → (∀ op path entry, pc ≠ .built op path entry) →
      (∀ op path entry, pc ≠ .sized op path entry) →
      LinearInv (ws ++ builtPut w (.step i d : Act cfg)) (h ++ points cfg L w (.step i d)) w' := by
    intro pc pc' hpc hcalls hset hput hpts hbuilt hsized
    rw [hput, hpts, List.append_nil, List.append_nil]
    exact hI.keep hpc hcalls hset hbuilt hsized
  cases hstep with
  | test op hpc hset =>
    exact hquiet hpc rfl rfl (by simp [builtPut, hpc]) (by simp [points, hpc, hset]) (by simp) (by simp)
  | testMissing op hpc hset hget =>
    apply hsame [] [(i, op, [])] (by simp [builtPut, hpc]) (by simp [points, hpc, hset, hget])
    rw [List.append_nil]
    refine ((hI.get i hget ?_).keep hpc rfl rfl (by simp) (by simp))
    have hnone : latest (store.after h) op.key = none := by
      rw [← Option.not_isSome_iff_eq_none, ← hI.known, hset]
      decide
    rw [hnone]
    rfl
  | testNew op hpc hset hget =>
    exact hquiet hpc rfl rfl (by simp [builtPut, hpc]) (by simp [points, hpc, hset, hget]) (by simp)
      (by simp)
  | lock op path hpc _ =>
    exact hquiet hpc rfl rfl (by simp [builtPut, hpc]) (by simp [points, hpc]) (by simp) (by simp)
  | refuse op path hpc _ =>
    exact hquiet hpc rfl rfl (by simp [builtPut, hpc]) (by simp [points, hpc]) (by simp) (by simp)
  | constructed op path hpc _ =>
    cases path with
    | create =>
      rw [show points cfg L w (.step i d) = [] by simp [points, hpc], List.append_nil]
      exact hI.create hpc
    | get =>
      obtain ⟨-, hget, -⟩ : CallOk cfg ws w.globals (.locked op .get) := hpc ▸ hc.calls i
      exact hquiet hpc rfl rfl (by simp [builtPut, hpc, hget.mp rfl]) (by simp [points, hpc]) (by simp)
        (by simp)
    | put =>
      rw [show points cfg L w (.step i d) = [(i, op, [])] by simp [points, hpc]]
      exact hI.put hc hpc
  | tooLong op path hpc hlong => exact absurd (hc.locked_fits i op path hpc) hlong
  | setSize op path entry hpc =>
    apply hsame [] [] (by simp [builtPut, hpc]) (by simp [points, hpc])
    rw [List.append_nil, List.append_nil]
    exact hI.setSize hpc
  | insertKey op path entry hpc =>
    apply hsame [] [(i, op, [])] (by simp [builtPut, hpc]) (by simp [points, hpc])
    rw [List.append_nil]
    exact hI.insertKey hc hpc
  | sendCreate op entry hpc =>
    exact hquiet hpc rfl rfl (by simp [builtPut, hpc]) (by simp [points, hpc]) (by simp) (by simp)
  | sendAccess op path entry hpc _ =>
    exact hquiet hpc rfl rfl (by simp [builtPut, hpc]) (by simp [points, hpc]) (by simp) (by simp)
  | read op labels value hpc hread =>
    apply hsame [] [(i, op, value)] (by simp [builtPut, hpc]) (by simp [points, hpc, hread])
    rw [List.append_nil]
    have hok : CallOk cfg ws w.globals (.replied op .get labels) := hpc ▸ hc.calls i
    exact (hI.get i (hok.mp rfl) (hI.read hl hc hs hd hpc hread)).keep hpc rfl rfl (by simp) (by simp)
  | readFault op labels f hpc hread =>
    exact hquiet hpc rfl rfl (by simp [builtPut, hpc]) (by simp [points, hpc, hread]) (by simp) (by simp)
  | skipRead op path labels hpc hp =>
    exact hquiet hpc rfl rfl (by simp [builtPut, hpc]) (by simp [points, hpc, hp]) (by simp) (by simp)
  | count op path result hpc =>
    exact hquiet hpc rfl rfl (by simp [builtPut, hpc]) (by simp [points, hpc]) (by simp) (by simp)
  | unlock op result hpc =>
    exact hquiet hpc rfl rfl (by simp [builtPut, hpc]) (by simp [points, hpc]) (by simp) (by simp)

theorem LinearInv.step {a : Act cfg} (hI : LinearInv ws h w) (hl : LockInv w) (hc : CallInv cfg ws w)
    (hs : SyncInv cfg L ws w)
    (hd : ∀ key v, latest ws key = some v → LabelsDiffer L (cfg.valueSize * 4) (w.globals.masterKeys key))
    (hfail : ∀ i, a ≠ .fail i) (hnext : next cfg L w a = some w') :
    LinearInv (ws ++ builtPut w a) (h ++ points cfg L w a) w' := by
  cases nextStep_of_next hnext with
  | call i op hpc =>
    rw [show builtPut w (.call i op : Act cfg) = [] from rfl,
      show points cfg L w (.call i op : Act cfg) = [] from rfl, List.append_nil, List.append_nil]
    exact hI.keep hpc rfl rfl (by simp) (by simp)
  | step i d _ hstep => exact hI.callStep hl hc hs hd hstep
  | failReady i => exact absurd rfl (hfail i)
  | failWaiting i => exact absurd rfl (hfail i)
  | process n order horder m =>
    rw [show builtPut w (.process n order horder : Act cfg) = [] from rfl,
      show points cfg L w (.process n order horder : Act cfg) = [] from rfl, List.append_nil,
      List.append_nil]
    obtain ⟨hg, hcalls | ⟨op, path, labels, hpc, hcalls⟩⟩ := serve_globals (L := L) w n m order
    · exact ⟨hI.legal, fun key => by rw [hg]; exact hI.known key,
        fun key => by rw [hcalls]; exact hI.agree key⟩
    · exact hI.keep hpc hcalls (by rw [hg]) (by simp) (by simp)

end LinearInv

/-! ### Runs -/

/-- The master keys of the keys that have been written are drawn ones. -/
theorem drawn_step {a : Act cfg} {ws : List (Bytes × Bytes)} {keys : List Bytes} {w w' : World}
    (hI : ∀ key v, latest ws key = some v → w.globals.masterKeys key ∈ keys)
    (hdraw : ∀ i d, a = .step i d → d.masterKey ∈ keys) (hstep : NetStep cfg L a w w') :
    ∀ key v, latest (ws ++ builtPut w a) key = some v → w'.globals.masterKeys key ∈ keys := by
  cases hstep with
  | quiet _ _ _ hmk _ _ hput _ =>
    rw [hput, List.append_nil, hmk]
    exact hI
  | build i d op path hact hpc _ _ _ _ hmk _ _ _ =>
    subst hact
    intro key v hv
    rw [hmk]
    by_cases hk : key = op.key
    · rw [hk, Function.update_self]
      exact hdraw i d rfl
    · rw [Function.update_of_ne hk]
      rw [latest_builtPut_ne _ _ hpc hk] at hv
      exact hI key v hv
  | send i m _ _ _ _ hmk _ _ _ hput _ =>
    rw [hput, List.append_nil, hmk]
    exact hI
  | receive n m order horder hact _ _ hw' =>
    subst hact hw'
    rw [show builtPut w (.process n order horder : Act cfg) = [] from rfl, List.append_nil,
      (serve_globals w n m order).1]
    exact hI

/-- All of it, in every state of a regular run behind a synchronous server. -/
structure RunInv (cfg : Config) (L : Libsodium) (keys : List Bytes) (as : List (Act cfg)) (w : World) :
    Prop where
  call : CallInv cfg (puts cfg L as) w
  chain : ChainInv cfg L (puts cfg L as) (builds cfg L as) w
  sync : SyncInv cfg L (puts cfg L as) w
  drawn : ∀ key v, latest (puts cfg L as) key = some v → w.globals.masterKeys key ∈ keys
  linear : LinearInv (puts cfg L as) (linearized cfg L as) w

theorem sync_run {keys : List Bytes} (hS : cfg.serverNumThreads = 1 ∨ cfg.valueSize = 1)
    (hinj : L.InjectiveOn keys (20 * cfg.valueSize)) {as : List (Act cfg)} {w : World}
    (hreg : Along (next cfg L) (fun w a => (Regular a ∧ Synchronous w a) ∧
      ∀ i d, a = .step i d → d.masterKey ∈ keys) (initial cfg none fun _ => none) as)
    (hrun : run (next cfg L) (initial cfg none fun _ => none) as = some w) : RunInv cfg L keys as w := by
  refine run_inv (next cfg L) (RunInv cfg L keys)
    ⟨callInv_initial _, chainInv_initial, syncInv_initial, (fun _ _ h => by cases h),
      linearInv_initial⟩ ?_ hreg hrun
  rintro as w a w' hrun hI ⟨⟨ha, hsync⟩, hdraw⟩ hnext
  have hl := lockInv_run hrun
  have hputs : puts cfg L (as ++ [a]) = puts cfg L as ++ builtPut w a :=
    collect_concat (next cfg L) builtPut hrun hnext
  have hpoints : linearized cfg L (as ++ [a]) = linearized cfg L as ++ points cfg L w a :=
    collect_concat (next cfg L) (points cfg L) hrun hnext
  obtain ⟨hc, hch⟩ := chain_step hS hrun hI.call hI.chain ha (hI.sync.inOrder hl a) hnext
  refine ⟨hc, hch, ?_, ?_, ?_⟩
  · rw [hputs]
    exact hI.sync.step hS hl hI.call hI.chain ha.no_failure hsync hnext
  · rw [hputs]
    exact drawn_step hI.drawn hdraw (netStep_of_next ha.no_failure hI.call.locked_fits hnext)
  · rw [hputs, hpoints]
    refine hI.linear.step hl hI.call hI.sync (fun key v hv => ?_) ha.no_failure hnext
    exact labelsDiffer_of_injectiveOn cfg L hinj (hI.drawn key v hv)

theorem mem_drawn {as : List (Act cfg)} {i : ℕ} {d : Draw cfg} (h : .step i d ∈ as) :
    d.masterKey ∈ drawn as := List.mem_flatMap.mpr ⟨_, h, List.mem_singleton_self _⟩

theorem status_fresh {pc : Pc} (h : pc.status = .fresh) : pc.point = none := by
  cases pc <;> first | rfl | cases h

theorem status_of_point {pc : Pc} {x : Operation} {y : Bytes} (h : pc.point = some (x, y)) :
    pc.status = .running x ∨ pc.status = .returned x y := by
  cases pc with
  | built op path entry =>
    simp only [Pc.point] at h
    split at h <;> simp_all [Pc.status]
  | ready op path entry =>
    simp only [Pc.point] at h
    split at h <;> simp_all [Pc.status]
  | waiting op path =>
    simp only [Pc.point] at h
    split at h <;> simp_all [Pc.status]
  | replied op path labels =>
    simp only [Pc.point] at h
    split at h <;> simp_all [Pc.status]
  | done op path result => simp_all [Pc.point, Pc.status]
  | counted op result => simp_all [Pc.point, Pc.status]
  | returned op result => simp_all [Pc.point, Pc.status]
  | _ => cases h

theorem point_of_status {pc : Pc} {x : Operation} {y : Bytes} (h : pc.status = .returned x y) :
    pc.point = some (x, y) := by
  cases pc <;> simp_all [Pc.status, Pc.point]

/-- Behind a synchronous server, and without failures, the calls that do not
give up at the lock are linearizable: in the order in which they take effect
each GET answers with the last value put under its key, or the empty string. -/
theorem linearizable (cfg : Config) (L : Libsodium)
    (hS : cfg.serverNumThreads = 1 ∨ cfg.valueSize = 1) {as : List (Act cfg)} {w : World}
    (hrun : run (next cfg L) (initial cfg none fun _ => none) as = some w)
    (hreg : Along (next cfg L) (fun w a => Regular a ∧ Synchronous w a)
      (initial cfg none fun _ => none) as)
    (hinj : L.InjectiveOn (drawn as) (20 * cfg.valueSize)) :
    Linearization (next cfg L) World.status store (refused cfg L as)
      (initial cfg none fun _ => none) as w (linearized cfg L as) := by
  have hdraw : Along (next cfg L) (fun _ a => ∀ i d, a = .step i d → d.masterKey ∈ drawn as)
      (initial cfg none fun _ => none) as :=
    along_of_forall (next cfg L) _ fun a ha i d hact => mem_drawn (hact ▸ ha)
  have hall := hreg.and _ hdraw
  refine linearization_of_points (fun _ => rfl) ?_ (fun s i => status_fresh)
    (fun s i x y => status_of_point) (fun s i x y => point_of_status) hall hrun
    (sync_run hS hinj hall hrun).linear.legal
  intro as1 s a s' hrun1 hC ha hnext
  exact pointStep_of_next (sync_run hS hinj hC hrun1).call ha.1.1.no_failure hnext

/-! ### A GET that is refused -/

section Refused

theorem mem_after {h : List (ℕ × Operation × Bytes)} {x : Bytes × Bytes} : x ∈ store.after h ↔
    ∃ e ∈ h, e.2.1.isGet = false ∧ x = (e.2.1.key, e.2.1.value) := by
  induction h using List.reverseRecOn with
  | nil => simp [store]
  | append_singleton h e ih =>
    rw [store.after_concat]
    cases hop : e.2.1.isGet with
    | true =>
      rw [store_apply_get hop, ih]
      simp [hop]
    | false =>
      rw [store_apply_put hop, List.mem_append, ih]
      simp [hop]

/-- A PUT that returns, then a GET that waits for its reply, then a GET that
is refused. -/
def servedRun (cfg : Config) : List (Act cfg) :=
  (.call 0 firstPut :: List.replicate 6 (.step 0 (drawOf cfg 1))) ++
    (.process 0 (List.range cfg.serverNumThreads) cfg.serverInOrder ::
      List.replicate 2 (.step 0 (drawOf cfg 1)))

def refusedRun (cfg : Config) : List (Act cfg) :=
  getRun cfg ++ (.call 2 firstGet :: List.replicate 2 (.step 2 (drawOf cfg 2)))

/-- The PUT has sent its message. -/
def afterSent (cfg : Config) : World where
  globals := ((((opScureSetup cfg none).setLock firstPut.key false).rekey firstPut.key
    (List.replicate 32 1)).setSize firstPut.key firstPut.value.length).insertKey firstPut.key
  accesses := 0
  aborted := 0
  calls := Function.update (fun _ => .idle) 0 (.done firstPut .create [])
  net := [putMessage cfg]
  db := fun _ => none
  serverUp := true

/-- The server has processed it. -/
def afterServed (cfg : Config) : World :=
  { afterSent cfg with net := [], db := create (fun _ => none) (putMessage cfg).entry }

/-- The PUT has returned. -/
def afterReturn (cfg : Config) : World :=
  { afterServed cfg with
    globals := (afterServed cfg).globals.setLock firstPut.key true
    accesses := 1 }.goto 0 (.returned firstPut [])

/-- The conditions under which the proxy is linearizable. -/
abbrev Allowed (w : World) (a : Act cfg) : Prop := Regular a ∧ Synchronous w a

theorem allowed_call (w : World) (i : ℕ) {op : Operation} (h : op.value.length ≤ cfg.valueSize) :
    Allowed w (.call i op : Act cfg) := ⟨regular_of_value h, fun _ _ hact => by cases hact⟩

theorem allowed_step {w : World} {i : ℕ} (d : Draw cfg) (h : ∀ m ∈ w.net, m.call ≠ i) :
    Allowed w (.step i d) := ⟨regular_step _ _, fun j d' hact => by
  obtain ⟨rfl, -⟩ := Act.step.inj hact
  exact h⟩

theorem run_servedRun (hkey : 1 ≤ cfg.keyMax) : run (next cfg Libsodium.plain)
      (initial cfg none fun _ => none) (servedRun cfg) = some (afterReturn cfg) ∧
    Along (next cfg Libsodium.plain) Allowed (initial cfg none fun _ => none) (servedRun cfg) := by
  have hlock : (initial cfg none fun _ => none).globals.locks firstPut.key = some true := by
    rw [initial_locks]
    exact setupLocks_eq_true_iff.mpr ⟨0, hkey, by decide⟩
  have hsent : run (next cfg Libsodium.plain) (initial cfg none fun _ => none)
      (.call 0 firstPut :: List.replicate 6 (.step 0 (drawOf cfg 1))) = some (afterSent cfg) :=
    run_create_sent _ rfl rfl (by decide) hlock cfg.valueSize_pos
  have hserved : next cfg Libsodium.plain (afterSent cfg)
      (.process 0 (List.range cfg.serverNumThreads) cfg.serverInOrder) = some (afterServed cfg) :=
    next_process_create _ rfl rfl rfl
  have hdone : (afterServed cfg).calls 0 = .done firstPut .create [] := rfl
  constructor
  · rw [servedRun, run_append, hsent, Option.bind_some, run_cons, hserved, Option.bind_some,
      run_finish _ hdone]
    rfl
  · refine (along_append _).mpr ⟨along_create_sent _ rfl rfl (by decide) hlock cfg.valueSize_pos
      (allowed_call _ _ cfg.valueSize_pos) fun w' hw' => allowed_step _ (hw' ▸ by simp [initial]),
      fun w' hw' => ⟨⟨regular_process _ _ _, fun _ _ hact => by cases hact⟩, fun w'' hw'' => ?_⟩⟩
    rw [hsent, Option.some.injEq] at hw'
    rw [← hw', hserved, Option.some.injEq] at hw''
    subst hw''
    exact along_finish _ hdone fun w' hw' => allowed_step _ (hw' ▸ by simp [afterServed])

/-- The first GET waits with the lock. -/
theorem run_waiting (cfg : Config) : ∃ w, run (next cfg Libsodium.plain) (afterReturn cfg) (getRun cfg) = some w ∧
    Along (next cfg Libsodium.plain) Allowed (afterReturn cfg) (getRun cfg) ∧
    w.calls = Function.update (afterReturn cfg).calls 1 (.waiting firstGet .get) ∧
    w.net = [getMessage cfg] ∧ w.globals.keySet firstGet.key = true ∧
    w.globals.locks firstGet.key = some false := by
  have hkey : firstGet.key = firstPut.key := rfl
  have hset : (afterReturn cfg).globals.keySet firstGet.key = true := by
    simp [afterReturn, afterServed, afterSent, hkey, Globals.setLock, Globals.insertKey]
  have hlock : (afterReturn cfg).globals.locks firstGet.key = some true := by
    simp [afterReturn, hkey, Globals.setLock]
  have hmk : (afterReturn cfg).globals.masterKeys firstGet.key = List.replicate 32 1 := by
    simp [afterReturn, afterServed, afterSent, hkey, Globals.setLock, Globals.insertKey,
      Globals.setSize, Globals.rekey]
  refine ⟨_, run_get_sent _ rfl hset (by decide) hlock, ?_, rfl, ?_, ?_, ?_⟩
  · exact along_get_sent _ rfl hset (by decide) hlock (allowed_call _ _ (Nat.zero_le _))
      fun w' hw' => allowed_step _ (hw' ▸ by simp [afterReturn, afterServed])
  · rw [goto_net, hmk]
    rfl
  · simpa [Globals.setLock, Globals.rekey] using hset
  · simp [Globals.setLock, Globals.rekey]

/-- The second finds it taken. -/
theorem run_refusedRun (cfg : Config) : ∃ w, run (next cfg Libsodium.plain) (afterReturn cfg) (refusedRun cfg) = some w ∧
    Along (next cfg Libsodium.plain) Allowed (afterReturn cfg) (refusedRun cfg) ∧
    w.calls 0 = .returned firstPut [] ∧ w.calls 1 = .waiting firstGet .get ∧
    w.calls 2 = .returned firstGet [] ∧ ∀ i, 2 < i → w.calls i = .idle := by
  obtain ⟨w, hrun, halong, hcalls, hnet, hset, hlock⟩ := run_waiting cfg
  have hidle : w.calls 2 = .idle := by rw [hcalls]; rfl
  have hrest := run_refused (L := Libsodium.plain) (drawOf cfg 2) hidle (Or.inl hset)
    (by rw [hlock]; decide)
  refine ⟨_, (by rw [refusedRun, run_append, hrun]; exact hrest),
    (along_append _).mpr ⟨halong, fun w' hw' => ?_⟩, ?_, ?_, goto_calls_self _ _ _, fun i hi => ?_⟩
  · rw [hrun, Option.some.injEq] at hw'
    subst hw'
    refine along_refused _ hidle hset (allowed_call _ _ (Nat.zero_le _)) fun w' hw' => allowed_step _ ?_
    rw [hw', hnet]
    simp [getMessage]
  · rw [goto_calls_ne _ _ _ (by decide)]
    exact congrFun hcalls 0
  · rw [goto_calls_ne _ _ _ (by decide)]
    exact congrFun hcalls 1
  · rw [goto_calls_ne _ _ _ (by omega)]
    apply (congrFun hcalls i).trans
    rw [Function.update_of_ne (by omega)]
    simp [afterReturn, afterServed, afterSent, World.goto, show i ≠ 0 by omega]

/-- The whole run. -/
theorem run_allowed (hkey : 1 ≤ cfg.keyMax) : ∃ w, run (next cfg Libsodium.plain)
      (initial cfg none fun _ => none) (servedRun cfg ++ refusedRun cfg) = some w ∧
    Along (next cfg Libsodium.plain) Allowed (initial cfg none fun _ => none)
      (servedRun cfg ++ refusedRun cfg) ∧
    w.calls 0 = .returned firstPut [] ∧ w.calls 1 = .waiting firstGet .get ∧
    w.calls 2 = .returned firstGet [] ∧ ∀ i, 2 < i → w.calls i = .idle := by
  obtain ⟨hserved, halong⟩ := run_servedRun hkey
  obtain ⟨w, hrun, halong', hcalls⟩ := run_refusedRun cfg
  refine ⟨w, by rw [run_append, hserved]; exact hrun, (along_append _).mpr ⟨halong, fun w' hw' => ?_⟩,
    hcalls⟩
  rw [hserved, Option.some.injEq] at hw'
  exact hw' ▸ halong'

/-- The calls that are not refused have their order in this run too. -/
theorem linearizable_refusedRun : ∃ w, run (next constants.single Libsodium.plain)
      (initial constants.single none fun _ => none) (servedRun _ ++ refusedRun _) = some w ∧
    Linearization (next constants.single Libsodium.plain) World.status store
      (refused constants.single Libsodium.plain (servedRun _ ++ refusedRun _))
      (initial constants.single none fun _ => none) (servedRun _ ++ refusedRun _) w
      (linearized constants.single Libsodium.plain (servedRun _ ++ refusedRun _)) := by
  obtain ⟨w, hrun, halong, -⟩ := run_allowed (show 1 ≤ constants.single.keyMax by decide)
  refine ⟨w, hrun, linearizable constants.single Libsodium.plain (Or.inl rfl) hrun halong ?_⟩
  exact Libsodium.plain_injectiveOn [1, 1, 1, 1, 1, 1, 1, 1, 2, 2, 2, 2, 2, 2] (by decide)

/-- All of the calls have none: the PUT had returned when the second GET was
made, but that GET returned the empty string. -/
theorem refused_get_not_linearizable : ∃ as w, run (next constants Libsodium.plain)
      (initial constants none fun _ => none) as = some w ∧
    Along (next constants Libsodium.plain) Allowed (initial constants none fun _ => none) as ∧
    ¬ ∃ h : List (ℕ × Operation × Bytes), Linearization (next constants Libsodium.plain) World.status
      store [] (initial constants none fun _ => none) as w h := by
  obtain ⟨w, hrun, halong, h0, h1, h2, hidle⟩ := run_allowed (show 1 ≤ constants.keyMax by decide)
  refine ⟨_, w, hrun, halong, ?_⟩
  rintro ⟨h, hlin⟩
  have hput : (0, firstPut, []) ∈ h :=
    (hlin.complete 0 firstPut [] (congrArg Pc.status h0)).resolve_left (by simp)
  have hget : (2, firstGet, []) ∈ h :=
    (hlin.complete 2 firstGet [] (congrArg Pc.status h2)).resolve_left (by simp)
  obtain ⟨hserved, -⟩ := run_servedRun (show 1 ≤ constants.keyMax by decide)
  obtain ⟨l1, l2, rfl, hput1, hget2⟩ := hlin.realTime _ _ _ rfl hserved 0 firstPut [] 2 _ _ rfl rfl
    hput rfl hget rfl
  obtain ⟨pre, post, rfl⟩ := List.append_of_mem hget2
  -- the PUT is before the GET
  have hafter : (firstPut.key, firstPut.value) ∈ store.after (l1 ++ pre) :=
    mem_after.mpr ⟨_, List.mem_append_left _ hput1, by decide, rfl⟩
  obtain ⟨v, hv⟩ := Option.isSome_iff_exists.mp (latest_isSome_iff.mpr ⟨_, hafter⟩)
  have hlegal : [] = store.answer (store.after (l1 ++ pre)) firstGet :=
    hlin.legal (l1 ++ pre) (2, firstGet, []) post (by simp)
  rw [store_answer_get (by decide), show firstGet.key = firstPut.key from rfl, hv] at hlegal
  -- but no PUT of the run is of the empty string
  obtain ⟨⟨i, op, y⟩, he, hop, hkv⟩ := mem_after.mp (latest_mem hv)
  have hmem : (i, op, y) ∈ l1 ++ (pre ++ (2, firstGet, []) :: post) := by
    rcases List.mem_append.mp he with he | he <;> simp [he]
  have hempty : op.value = [] := (Prod.mk.inj hkv).2.symm.trans hlegal.symm
  have hstatus := hlin.called i op y hmem
  simp only [World.status] at hstatus
  rcases Nat.lt_or_ge 2 i with hi | hi
  · rw [hidle i hi] at hstatus
    exact hstatus.elim (by simp [Pc.status]) (by simp [Pc.status])
  · obtain rfl | rfl | rfl : i = 0 ∨ i = 1 ∨ i = 2 := by omega
    · rw [h0] at hstatus
      obtain ⟨rfl, -⟩ := Status.returned.inj (hstatus.resolve_left (by simp [Pc.status]))
      exact absurd hempty (by decide)
    · rw [h1] at hstatus
      obtain rfl := Status.running.inj (hstatus.resolve_right (by simp [Pc.status]))
      exact absurd (show firstGet.isGet = false from hop) (by decide)
    · rw [h2] at hstatus
      obtain ⟨rfl, -⟩ := Status.returned.inj (hstatus.resolve_left (by simp [Pc.status]))
      exact absurd (show firstGet.isGet = false from hop) (by decide)

end Refused

end Proxy
end Lbl
end Ortoa
