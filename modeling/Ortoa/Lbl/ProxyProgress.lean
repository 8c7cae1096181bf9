/-
# The proxy's requests end

No statement of `handleOp` waits for another call: a call that finds the lock
of its key taken gives up, and only `client.access` waits, for the server. So
whatever the scheduler and the network do, the calls run out of statements
(`requests_end`): as long as the server is up every call then has returned or
has thrown, no message is left, and every lock that `OpScureSetup` has made is
free again, but for the keys of calls that have thrown; and each call that has
returned was counted once, in `accesses` or in `aborted`.

A call is measured by the statements before it, and a message by one
(`Pc.rank`, `measure`); `Move` says what one statement of a call does to that
and to the messages.

Key definitions: `Pc.rank`, `Move`, `Awaited`, `Accounted`, `Counted`, `Internal`.
Key theorems: `move_of_callStep`, `serve_moves`, `measure_step`, `requests_end`.
-/
import Ortoa.Lbl.ProxyLocks
import Ortoa.Progress

namespace Ortoa
namespace Lbl
namespace Proxy

variable {cfg : Config} {L : Libsodium} {w w' : World} {file : Option Saved} {db : Db}

/-- How much is before a call; the message that it sends counts as well. -/
def Pc.rank : Pc → ℕ
  | .idle | .returned _ _ | .threw _ => 0
  | .counted _ _ => 1
  | .done _ _ _ => 2
  | .replied _ _ _ => 3
  | .waiting _ _ => 4
  | .ready _ _ _ => 6
  | .sized _ _ _ => 7
  | .built _ _ _ => 8
  | .locked _ _ => 9
  | .tested _ _ => 10
  | .called _ => 11

/-- The call has been counted. -/
def Pc.settled : Pc → Bool
  | .counted _ _ | .returned _ _ => true
  | _ => false

/-- The call is past the sending of a `create`. -/
def Pc.created : Pc → Bool
  | .done _ _ _ | .counted _ _ | .returned _ _ => true
  | _ => false

/-! ### One statement -/

/-- What a statement of call `i` does, when it sends `ms` and goes to `pc`. -/
structure Move (w w' : World) (i : ℕ) (pc : Pc) (ms : List Message) : Prop where
  calls : w'.calls = Function.update w.calls i pc
  net : w'.net = w.net ++ ms
  serverUp : w'.serverUp = w.serverUp
  rank : pc.rank + ms.length < (w.calls i).rank
  counted : w'.accesses + w'.aborted + (w.calls i).settled.toNat =
    w.accesses + w.aborted + pc.settled.toNat
  access : ∀ op path, pc = .waiting op path → ∃ m ∈ ms, m.call = i ∧ m.method = .access
  create : ∀ m ∈ ms, m.method = .create → m.call = i ∧ pc.created = true
  stays : (w.calls i).created = true → pc.created = true
  going : pc ≠ .idle

theorem Move.not_idle {i : ℕ} {pc : Pc} {ms : List Message} (h : Move w w' i pc ms) : w.calls i ≠ .idle := by
  intro hidle
  have := h.rank
  rw [hidle] at this
  exact Nat.not_lt_zero _ this

/-- Neither sends nor counts on the way from `pc` to `pc'`. -/
structure Silent (pc pc' : Pc) : Prop where
  rank : pc'.rank < pc.rank
  settled : pc'.settled = pc.settled
  wait : ∀ op path, pc' ≠ .waiting op path
  going : pc' ≠ .idle
  created : pc.created = true → pc'.created = true

theorem Move.silent {i : ℕ} {pc pc' : Pc} (hpc : w.calls i = pc)
    (hcalls : w'.calls = Function.update w.calls i pc')
    (hrest : (w'.net = w.net ∧ w'.serverUp = w.serverUp) ∧ w'.accesses = w.accesses ∧ w'.aborted = w.aborted)
    (hsilent : Silent pc pc') : Move w w' i pc' [] where
  calls := hcalls
  net := hrest.1.1.trans (List.append_nil _).symm
  serverUp := hrest.1.2
  rank := by rw [hpc]; exact hsilent.rank
  counted := by rw [hrest.2.1, hrest.2.2, hpc, hsilent.settled]
  access op path h := absurd h (hsilent.wait op path)
  create m hm := by cases hm
  stays := by rw [hpc]; exact hsilent.created
  going := hsilent.going

theorem move_of_callStep {i : ℕ} {d : Draw cfg} (h : CallStep cfg L w i d w') :
    ∃ pc ms, Move w w' i pc ms := by
  have hsame : (w.net = w.net ∧ w.serverUp = w.serverUp) ∧ w.accesses = w.accesses ∧ w.aborted = w.aborted :=
    ⟨⟨rfl, rfl⟩, rfl, rfl⟩
  cases h with
  | test op hpc =>
    exact ⟨_, [], .silent hpc rfl hsame ⟨by simp [Pc.rank], rfl, by simp, by simp, by simp [Pc.created]⟩⟩
  | testMissing op hpc =>
    refine ⟨_, [], rfl, (List.append_nil _).symm, rfl, by simp [hpc, Pc.rank], ?_, by simp, by simp,
      by simp [hpc, Pc.created], by simp⟩
    rw [hpc]
    rfl
  | testNew op hpc =>
    exact ⟨_, [], .silent hpc rfl hsame ⟨by simp [Pc.rank], rfl, by simp, by simp, by simp [Pc.created]⟩⟩
  | lock op path hpc =>
    exact ⟨_, [], .silent hpc rfl hsame ⟨by simp [Pc.rank], rfl, by simp, by simp, by simp [Pc.created]⟩⟩
  | refuse op path hpc =>
    refine ⟨_, [], rfl, (List.append_nil _).symm, rfl, by simp [hpc, Pc.rank], ?_, by simp, by simp,
      by simp [hpc, Pc.created], by simp⟩
    rw [hpc]
    rfl
  | constructed op path hpc =>
    by_cases hp : path = .get
    · rw [if_pos hp]
      exact ⟨_, [], .silent hpc rfl hsame ⟨by simp [Pc.rank], rfl, by simp, by simp, by simp [Pc.created]⟩⟩
    · rw [if_neg hp]
      exact ⟨_, [], .silent hpc rfl hsame ⟨by simp [Pc.rank], rfl, by simp, by simp, by simp [Pc.created]⟩⟩
  | tooLong op path hpc =>
    exact ⟨_, [], .silent hpc rfl hsame ⟨by simp [Pc.rank], rfl, by simp, by simp, by simp [Pc.created]⟩⟩
  | setSize op path entry hpc =>
    by_cases hp : path = .create
    · rw [if_pos hp]
      exact ⟨_, [], .silent hpc rfl hsame ⟨by simp [Pc.rank], rfl, by simp, by simp, by simp [Pc.created]⟩⟩
    · rw [if_neg hp]
      exact ⟨_, [], .silent hpc rfl hsame ⟨by simp [Pc.rank], rfl, by simp, by simp, by simp [Pc.created]⟩⟩
  | insertKey op path entry hpc =>
    exact ⟨_, [], .silent hpc rfl hsame ⟨by simp [Pc.rank], rfl, by simp, by simp, by simp [Pc.created]⟩⟩
  | sendCreate op entry hpc =>
    exact ⟨_, [⟨i, .create, entry⟩], rfl, rfl, rfl, by simp [hpc, Pc.rank], by rw [hpc]; rfl, by simp,
      by simp [Pc.created], by simp [Pc.created], by simp⟩
  | sendAccess op path entry hpc =>
    exact ⟨_, [⟨i, .access, entry⟩], rfl, rfl, rfl, by simp [hpc, Pc.rank], by rw [hpc]; rfl, by simp,
      by simp, by simp [hpc, Pc.created], by simp⟩
  | read op labels value hpc =>
    exact ⟨_, [], .silent hpc rfl hsame ⟨by simp [Pc.rank], rfl, by simp, by simp, by simp [Pc.created]⟩⟩
  | readFault op labels f hpc =>
    exact ⟨_, [], .silent hpc rfl hsame ⟨by simp [Pc.rank], rfl, by simp, by simp, by simp [Pc.created]⟩⟩
  | skipRead op path labels hpc =>
    exact ⟨_, [], .silent hpc rfl hsame ⟨by simp [Pc.rank], rfl, by simp, by simp, by simp [Pc.created]⟩⟩
  | count op path result hpc =>
    refine ⟨_, [], rfl, (List.append_nil _).symm, rfl, by simp [hpc, Pc.rank], ?_, by simp, by simp,
      by simp [Pc.created], by simp⟩
    rw [hpc]
    change w.accesses + 1 + w.aborted = w.accesses + w.aborted + 1
    omega
  | unlock op result hpc =>
    exact ⟨_, [], .silent hpc rfl hsame ⟨by simp [Pc.rank], rfl, by simp, by simp, by simp [Pc.created]⟩⟩

/-- What the server does with message `m`: its call goes on, unless there is
nothing to answer, nobody to take the answer, or the server ends. -/
theorem serve_moves (w : World) (n : ℕ) (m : Message) (order : List ℕ) :
    ((serve cfg L w n m order).net = w.net.eraseIdx n ∧ (serve cfg L w n m order).globals = w.globals ∧
      (serve cfg L w n m order).accesses = w.accesses ∧ (serve cfg L w n m order).aborted = w.aborted) ∧
    (((serve cfg L w n m order).calls = w.calls ∧ ((serve cfg L w n m order).serverUp = true →
        m.method = .create ∨ ∀ op path, w.calls m.call ≠ .waiting op path)) ∨
      ∃ op path labels, m.method = .access ∧ w.calls m.call = .waiting op path ∧
        (serve cfg L w n m order).calls = Function.update w.calls m.call (.replied op path labels)) := by
  unfold serve
  cases hm : m.method with
  | create => exact ⟨⟨rfl, rfl, rfl, rfl⟩, Or.inl ⟨rfl, fun _ => Or.inl rfl⟩⟩
  | access =>
    dsimp only
    split
    · rename_i labels db _
      unfold World.reply
      cases hpc : w.calls m.call with
      | waiting op path => exact ⟨⟨rfl, rfl, rfl, rfl⟩, Or.inr ⟨op, path, labels, rfl, rfl, rfl⟩⟩
      | _ => exact ⟨⟨rfl, rfl, rfl, rfl⟩, Or.inl ⟨rfl, fun _ => Or.inr (by simp)⟩⟩
    · exact ⟨⟨rfl, rfl, rfl, rfl⟩, Or.inl ⟨rfl, fun h => by cases h⟩⟩

/-! ### What holds in every state -/

/-- The calls that clients have made in a run. -/
def requests (as : List (Act cfg)) : List ℕ :=
  as.flatMap fun a =>
    match a with
    | .call i _ => [i]
    | _ => []

/-- A call that waits for a reply has a message in flight, as long as the
server is up; a `create` in flight was sent by a call that does not wait. -/
structure Awaited (w : World) : Prop where
  awaited : w.serverUp = true → ∀ i op path, w.calls i = .waiting op path →
    ∃ m ∈ w.net, m.call = i ∧ m.method = .access
  creates : ∀ m ∈ w.net, m.method = .create → (w.calls m.call).created = true

/-- A lock that there is is free or taken, or the call that took it has thrown. -/
def Accounted (initialLocks : Bytes → Option Bool) (w : World) : Prop :=
  ∀ key, initialLocks key = some true → w.globals.locks key = some true ∨ (∃ i, Holds w i key) ∨
    ∃ i op, w.calls i = .threw op ∧ op.key = key

/-- The calls that were made, each once, and how many of them were counted. -/
structure Counted (is : List ℕ) (w : World) : Prop where
  nodup : is.Nodup
  mem : ∀ i, i ∈ is ↔ w.calls i ≠ .idle
  settled : w.accesses + w.aborted = ∑ i ∈ is.toFinset, (w.calls i).settled.toNat

theorem Awaited.move {i : ℕ} {pc : Pc} {ms : List Message} (h : Awaited w) (hm : Move w w' i pc ms) :
    Awaited w' := by
  constructor
  · intro hup j op path hj
    rw [hm.serverUp] at hup
    rw [hm.calls] at hj
    rw [hm.net]
    by_cases hji : j = i
    · rw [hji, Function.update_self] at hj
      obtain ⟨m, hmem, hcall, hmethod⟩ := hm.access op path hj
      exact ⟨m, List.mem_append_right _ hmem, hcall.trans hji.symm, hmethod⟩
    · rw [Function.update_of_ne hji] at hj
      obtain ⟨m, hmem, hrest⟩ := h.awaited hup j op path hj
      exact ⟨m, List.mem_append_left _ hmem, hrest⟩
  · intro m hmem hmethod
    rw [hm.net] at hmem
    rw [hm.calls]
    rcases List.mem_append.mp hmem with hold | hnew
    · by_cases hi : m.call = i
      · rw [hi, Function.update_self]
        exact hm.stays (hi ▸ h.creates m hold hmethod)
      · rw [Function.update_of_ne hi]
        exact h.creates m hold hmethod
    · obtain ⟨hi, hcreated⟩ := hm.create m hnew hmethod
      rw [hi, Function.update_self]
      exact hcreated

/-- A call moves otherwise: it starts, or its RPC throws. -/
theorem Awaited.goto {i : ℕ} {pc : Pc} (h : Awaited w) (hwait : ∀ op path, pc ≠ .waiting op path)
    (hold : (w.calls i).created = false) : Awaited (w.goto i pc) := by
  constructor
  · intro hup j op path hj
    by_cases hji : j = i
    · rw [hji, goto_calls_self] at hj
      exact absurd hj (hwait op path)
    · rw [goto_calls_ne _ _ _ hji] at hj
      exact h.awaited hup j op path hj
  · intro m hmem hmethod
    have hcreated := h.creates m hmem hmethod
    have hi : m.call ≠ i := fun hi => by
      rw [hi, hold] at hcreated
      cases hcreated
    rw [goto_calls_ne _ _ _ hi]
    exact hcreated

theorem Awaited.serve {n : ℕ} {m : Message} {order : List ℕ} (h : Awaited w) (hup : w.serverUp = true)
    (hm : w.net[n]? = some m) : Awaited (serve cfg L w n m order) := by
  obtain ⟨⟨hnet, -, -, -⟩, hcases⟩ := @serve_moves cfg L w n m order
  have hkeep : ∀ m' ∈ w.net, m' ≠ m → m' ∈ w.net.eraseIdx n := by
    intro m' hm' hne
    rw [List.mem_eraseIdx_iff_getElem?]
    obtain ⟨k, hk⟩ := List.mem_iff_getElem?.mp hm'
    refine ⟨k, fun hkn => hne ?_, hk⟩
    rw [hkn, hm, Option.some.injEq] at hk
    exact hk.symm
  have hmem : m ∈ w.net := List.mem_of_getElem? hm
  have hsub : ∀ m' ∈ (Proxy.serve cfg L w n m order).net, m' ∈ w.net := fun m' hm' =>
    List.mem_of_mem_eraseIdx (hnet ▸ hm')
  rcases hcases with ⟨hcalls, hanswer⟩ | ⟨op, path, labels, hmethod, hpc, hcalls⟩
  · constructor
    · intro hup' j op path hj
      rw [hcalls] at hj
      obtain ⟨m', hm', hcall, hmethod⟩ := h.awaited hup j op path hj
      rw [hnet]
      refine ⟨m', hkeep m' hm' ?_, hcall, hmethod⟩
      rintro rfl
      rcases hanswer hup' with hcreate | hnot
      · rw [hcreate] at hmethod
        cases hmethod
      · exact hnot op path (hcall ▸ hj)
    · intro m' hm' hmethod
      rw [hcalls]
      exact h.creates m' (hsub m' hm') hmethod
  · constructor
    · intro _ j op' path' hj
      rw [hcalls] at hj
      have hji : j ≠ m.call := by
        rintro rfl
        rw [Function.update_self] at hj
        cases hj
      rw [Function.update_of_ne hji] at hj
      obtain ⟨m', hm', hcall, hmethod'⟩ := h.awaited hup j op' path' hj
      rw [hnet]
      refine ⟨m', hkeep m' hm' ?_, hcall, hmethod'⟩
      rintro rfl
      exact hji hcall.symm
    · intro m' hm' hmethod'
      have hcreated := h.creates m' (hsub m' hm') hmethod'
      have hne : m'.call ≠ m.call := fun he => by
        rw [he, hpc] at hcreated
        cases hcreated
      rw [hcalls, Function.update_of_ne hne]
      exact hcreated

theorem Awaited.step {a : Act cfg} (h : Awaited w) (ha : next cfg L w a = some w') : Awaited w' := by
  cases nextStep_of_next ha with
  | call i op hpc => exact h.goto (by simp) (by rw [hpc]; rfl)
  | step i d _ hstep =>
    obtain ⟨pc, ms, hm⟩ := move_of_callStep hstep
    exact h.move hm
  | failReady i op path entry hpc => exact h.goto (by simp) (by rw [hpc]; rfl)
  | failWaiting i op path hpc => exact h.goto (by simp) (by rw [hpc]; rfl)
  | process n order horder m hup hm => exact h.serve hup hm

/-- Who has a lock, or has thrown with it, goes on having it when another call moves. -/
theorem taken_of_update {i : ℕ} {pc : Pc} {key : Bytes} (hcalls : w'.calls = Function.update w.calls i pc)
    (hi : ¬ Holds w i key) (hpc : ∀ op, w.calls i ≠ .threw op)
    (h : (∃ j, Holds w j key) ∨ ∃ j op, w.calls j = .threw op ∧ op.key = key) :
    (∃ j, Holds w' j key) ∨ ∃ j op, w'.calls j = .threw op ∧ op.key = key := by
  rcases h with ⟨j, hj⟩ | ⟨j, op, hj, hk⟩
  · exact Or.inl ⟨j, (holds_update hcalls).mpr (Or.inr ⟨holds_ne hi hj, hj⟩)⟩
  · refine Or.inr ⟨j, op, ?_, hk⟩
    have hji : j ≠ i := fun hji => hpc op (hji ▸ hj)
    rw [hcalls, Function.update_of_ne hji]
    exact hj

theorem Accounted.step {locks : Bytes → Option Bool} {a : Act cfg} (h : Accounted locks w)
    (hs : LockStep a w w') : Accounted locks w' := by
  intro key hkey
  have hholds : ∀ {i : ℕ} {op : Operation}, (w.calls i).holding = some op → op.key ≠ key →
      ¬ Holds w i key := by
    rintro i op hop hk ⟨op', hop', hk'⟩
    rw [hop, Option.some.injEq] at hop'
    exact hk (hop' ▸ hk')
  have hnone : ∀ {i : ℕ}, (w.calls i).holding = none → ¬ Holds w i key := by
    rintro i hnone ⟨op, hop, -⟩
    rw [hnone] at hop
    cases hop
  cases hs with
  | quiet hhold hthrew hlocks =>
    rw [hlocks]
    refine (h key hkey).imp_right fun ht => ht.imp ?_ ?_
    · exact fun ⟨i, hi⟩ => ⟨i, (holds_quiet hhold i key).mpr hi⟩
    · exact fun ⟨i, op, hi, hk⟩ => ⟨i, op, (hthrew i op).mpr hi, hk⟩
  | take i d op path _ hpc hfree hcalls hlocks =>
    by_cases hk : op.key = key
    · exact Or.inr (Or.inl ⟨i, (holds_update hcalls).mpr (Or.inl ⟨rfl, op, rfl, hk⟩)⟩)
    · rw [hlocks, Function.update_of_ne (Ne.symm hk)]
      exact (h key hkey).imp_right (taken_of_update hcalls (hnone (by rw [hpc]; rfl)) (by simp [hpc]))
  | refuse i op path hpc htaken hcalls hlocks =>
    have hmoved := taken_of_update hcalls (hnone (by rw [hpc]; rfl)) (by simp [hpc])
    by_cases hk : op.key = key
    · -- the lock is taken, by another call
      exact Or.inr (hmoved ((h key hkey).resolve_left (hk ▸ htaken)))
    · rw [hlocks, Function.update_of_ne (Ne.symm hk)]
      exact (h key hkey).imp_right hmoved
  | release i op result hpc hcalls hlocks =>
    by_cases hk : op.key = key
    · exact Or.inl (by rw [hlocks, hk, Function.update_self])
    · rw [hlocks, Function.update_of_ne (Ne.symm hk)]
      exact (h key hkey).imp_right (taken_of_update hcalls (hholds (by rw [hpc]; rfl) hk) (by simp [hpc]))
  | throw i op hop hcalls hlocks =>
    by_cases hk : op.key = key
    · exact Or.inr (Or.inr ⟨i, op, by rw [hcalls, Function.update_self], hk⟩)
    · rw [hlocks]
      refine (h key hkey).imp_right (taken_of_update hcalls (hholds hop hk) fun op' hthrew => ?_)
      rw [hthrew] at hop
      cases hop

theorem Counted.move {is : List ℕ} {i : ℕ} {pc : Pc} (h : Counted is w) (hi : w.calls i ≠ .idle)
    (hpc : pc ≠ .idle) (hcalls : w'.calls = Function.update w.calls i pc)
    (hcounted : w'.accesses + w'.aborted + (w.calls i).settled.toNat =
      w.accesses + w.aborted + pc.settled.toNat) : Counted is w' where
  nodup := h.nodup
  mem j := by
    rw [h.mem, hcalls]
    by_cases hj : j = i
    · rw [hj, Function.update_self]
      simp [hi, hpc]
    · rw [Function.update_of_ne hj]
  settled := by
    have hsum := sum_update (fun pc => pc.settled.toNat) w.calls
      (List.mem_toFinset.mpr ((h.mem i).mpr hi)) pc
    have hold := h.settled
    rw [hcalls]
    omega

/-- A new call. -/
theorem Counted.call {is : List ℕ} {i : ℕ} {op : Operation} (h : Counted is w) (hi : w.calls i = .idle) :
    Counted (is ++ [i]) (w.goto i (.called op)) := by
  have hnot : i ∉ is := fun hmem => (h.mem i).mp hmem hi
  constructor
  · exact List.nodup_append.mpr ⟨h.nodup, List.nodup_singleton i, fun j hj k hk hjk =>
      hnot (by rw [← List.mem_singleton.mp hk, ← hjk]; exact hj)⟩
  · intro j
    rw [List.mem_append, List.mem_singleton, h.mem]
    by_cases hj : j = i
    · rw [hj, goto_calls_self]
      simp
    · rw [goto_calls_ne _ _ _ hj]
      simp [hj]
  · have hsame : ∀ j ∈ is.toFinset, ((w.goto i (.called op)).calls j).settled.toNat =
        (w.calls j).settled.toNat := fun j hj => by
      have hji : j ≠ i := fun hji => hnot (hji ▸ List.mem_toFinset.mp hj)
      rw [goto_calls_ne _ _ _ hji]
    have hset : (is ++ [i]).toFinset = insert i is.toFinset := by
      rw [List.toFinset_append, List.toFinset_cons, List.toFinset_nil, insert_empty_eq,
        Finset.union_comm, Finset.insert_eq]
    rw [hset, Finset.sum_insert (by rwa [List.mem_toFinset]), Finset.sum_congr rfl hsame, goto_calls_self]
    exact h.settled.trans (Nat.zero_add _).symm

theorem Counted.step {is : List ℕ} {a : Act cfg} (h : Counted is w) (ha : next cfg L w a = some w') :
    Counted (is ++ requests [a]) w' := by
  cases nextStep_of_next ha with
  | call i op hpc => exact h.call hpc
  | step i d _ hstep =>
    obtain ⟨pc, ms, hm⟩ := move_of_callStep hstep
    rw [show requests [(.step i d : Act cfg)] = [] from rfl, List.append_nil]
    exact h.move hm.not_idle hm.going hm.calls hm.counted
  | failReady i op path entry hpc =>
    rw [show requests [(.fail i : Act cfg)] = [] from rfl, List.append_nil]
    exact h.move (by simp [hpc]) (by simp) rfl (by rw [hpc]; rfl)
  | failWaiting i op path hpc =>
    rw [show requests [(.fail i : Act cfg)] = [] from rfl, List.append_nil]
    exact h.move (by simp [hpc]) (by simp) rfl (by rw [hpc]; rfl)
  | process n order horder m hup hm =>
    rw [show requests [(.process n order horder : Act cfg)] = [] from rfl, List.append_nil]
    obtain ⟨⟨-, -, hacc, hab⟩, ⟨hcalls, -⟩ | ⟨op, path, labels, -, hpc, hcalls⟩⟩ :=
      @serve_moves cfg L w n m order
    · exact ⟨h.nodup, fun i => by rw [hcalls]; exact h.mem i, by rw [hacc, hab, hcalls]; exact h.settled⟩
    · exact h.move (by simp [hpc]) (by simp) hcalls (by rw [hacc, hab, hpc]; rfl)

/-- A step of a call that has been made, or of the server. -/
def Internal : Act cfg → Prop
  | .step _ _ => True
  | .process _ _ _ => True
  | _ => False

def measure (is : List ℕ) (w : World) : ℕ := ∑ i ∈ is.toFinset, (w.calls i).rank + w.net.length

end Proxy
end Lbl
end Ortoa
