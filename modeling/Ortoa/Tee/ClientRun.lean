/-
# The client and the host together

`runThreaded` has its threads fill a queue, take operations out of it and
call `access` with them; at the host each of these calls is a thread of its
own. A thread of the client that has called waits for the answer, so that
the client's access is two steps here, with the host's in between. A call for
which the host's pool has no thread yet is one that has not taken a step.

What the client does is a run of `SharedQueue`, and what the host does one of
`Requests` (`client_run`, `host_run`). So all that is known of either holds
here. In every run no operation is lost on the way to the host, sent twice, or
answered to another thread (`calls_exactly_once`); and over generated files no
run goes on for ever, none gets stuck before all threads have stopped, and
then every line of the file has been sent and answered (`client_run_ends`).

Key definitions: `place`, `State`, `next`, `clientActs`, `hostActs`, `sent`, `Linked`, `measure`, `Ended`.
Key theorems: `place_step`, `step_of_next`, `client_run`, `host_run`, `Linked.step`, `held_step`,
`measure_step`, `calls_exactly_once`, `stopped_of_halted`, `client_run_ends`.
-/
import Ortoa.Tee.SharedQueue
import Ortoa.Tee.WorkloadRuns
import Ortoa.Progress
import Mathlib.Data.Fintype.Sum

namespace Ortoa
namespace Tee
namespace ClientRun

open SharedQueue (Action Thread WarmUpRunner ClientRunner dequeue)
open Requests (OneLine SameBlocks FromFile Origins Level Holds seededKey written)

variable {h w r : ℕ}

/-! ### The threads that dequeue -/

/-- Where a `WarmUpRunner` or a `ClientRunner` is. -/
inductive Place
  /-- At `while (warmupOperations--)`. -/
  | test
  | dequeue
  /-- At `client.access(out, data)`. -/
  | access (data : Operation)
  | stopped
  deriving DecidableEq

def warmPlace : WarmUpRunner → Place
  | .test => .test
  | .dequeue => .dequeue
  | .access data => .access data
  | .stopped => .stopped

def runnerPlace : ClientRunner → Place
  | .dequeue => .dequeue
  | .access data => .access data
  | .stopped => .stopped

def place (s : SharedQueue.State h w r) : Thread w r → Place
  | .warm i => warmPlace (s.warm i)
  | .runner i => runnerPlace (s.runner i)

/-- The thread's step in the client. -/
def action : Thread w r → Action h w r
  | .warm i => .warm i
  | .runner i => .runner i

/-- What a thread does to its place and to the queue. -/
inductive PlaceStep (q : List Operation) : Place → Place → List Operation → Prop
  | test (p : Place) : p = .dequeue ∨ p = .stopped → PlaceStep q .test p q
  | dequeue : PlaceStep q .dequeue
      (if (dequeue q).1.op = .eod then .stopped else .access (dequeue q).1) (dequeue q).2
  | access (data : Operation) (p : Place) : p = .test ∨ p = .dequeue → PlaceStep q (.access data) p q

/-- What a step of a thread leaves as it was. -/
structure Moved (s s' : SharedQueue.State h w r) (t : Thread w r) : Prop where
  config : s'.config = s.config
  joined : s'.joined = s.joined
  others : ∀ t', t' ≠ t → place s' t' = place s t'

section Places

variable {E : Cipher} {s s' : SharedQueue.State h w r}

theorem place_warm_update {i : Fin w} {pc : WarmUpRunner}
    (hwarm : s'.warm = Function.update s.warm i pc) (hrunner : s'.runner = s.runner) :
    place s' (.warm i) = warmPlace pc ∧ ∀ t', t' ≠ .warm i → place s' t' = place s t' := by
  unfold place
  rw [hwarm, hrunner]
  refine ⟨congrArg warmPlace (Function.update_self _ _ _), fun t' ht => ?_⟩
  cases t' with
  | warm j =>
    have hj : j ≠ i := fun hj => ht (congrArg Thread.warm hj)
    exact congrArg warmPlace (Function.update_of_ne hj _ _)
  | runner j => rfl

theorem place_runner_update {i : Fin r} {pc : ClientRunner}
    (hrunner : s'.runner = Function.update s.runner i pc) (hwarm : s'.warm = s.warm) :
    place s' (.runner i) = runnerPlace pc ∧ ∀ t', t' ≠ .runner i → place s' t' = place s t' := by
  unfold place
  rw [hwarm, hrunner]
  refine ⟨congrArg runnerPlace (Function.update_self _ _ _), fun t' ht => ?_⟩
  cases t' with
  | warm j => rfl
  | runner j =>
    have hj : j ≠ i := fun hj => ht (congrArg Thread.runner hj)
    exact congrArg runnerPlace (Function.update_of_ne hj _ _)

/-- The step of a thread. -/
theorem place_step {t : Thread w r} (hs : SharedQueue.next E s (action t) = some s') :
    s.Filled ∧ Moved s s' t ∧ PlaceStep s.queue (place s t) (place s' t) s'.queue := by
  cases t with
  | warm i =>
    obtain ⟨hfilled, ⟨hpc, hs'⟩ | ⟨hpc, hs'⟩ | ⟨data, hpc, hs'⟩⟩ := SharedQueue.warm_cases hs
    all_goals
      have hmoved := place_warm_update (congrArg SharedQueue.State.warm hs') (by rw [hs'])
      refine ⟨hfilled, ⟨by rw [hs'], by rw [hs'], hmoved.2⟩, ?_⟩
      rw [hmoved.1, hs', place, hpc]
    · apply PlaceStep.test
      split
      · exact Or.inr rfl
      · exact Or.inl rfl
    · rw [apply_ite warmPlace]
      exact .dequeue
    · exact .access data _ (Or.inl rfl)
  | runner i =>
    obtain ⟨hfilled, ⟨hpc, hs'⟩ | ⟨data, hpc, hs'⟩⟩ := SharedQueue.runner_cases hs
    all_goals
      have hmoved := place_runner_update (congrArg SharedQueue.State.runner hs') (by rw [hs'])
      refine ⟨hfilled, ⟨by rw [hs'], by rw [hs'], hmoved.2⟩, ?_⟩
      rw [hmoved.1, hs', place, hpc]
    · rw [apply_ite runnerPlace]
      exact .dequeue
    · exact .access data _ (Or.inr rfl)

/-- What a thread is handed out in its step. -/
theorem handedOut_action (t : Thread w r) : SharedQueue.handedOut s (action t) =
    if place s t = .dequeue then [(t, (dequeue s.queue).1)] else [] := by
  cases t with
  | warm i => cases hpc : s.warm i <;> simp [action, SharedQueue.handedOut, place, warmPlace, hpc]
  | runner i => cases hpc : s.runner i <;> simp [action, SharedQueue.handedOut, place, runnerPlace, hpc]

end Places

/-! ### The client and the host -/

structure State (h w r : ℕ) where
  client : SharedQueue.State h w r
  host : Requests.State
  /-- The call whose answer a thread waits for. -/
  waits : Thread w r → Option ℕ
  /-- The number of calls so far. -/
  started : ℕ

inductive Act (h w r : ℕ)
  /-- A `DataHandler` calls `enqueue`. -/
  | enqueue (i : Fin h) (d : OpDraw)
  /-- A thread takes a step that is no call of `access`. -/
  | own (t : Thread w r)
  /-- `send_access`. -/
  | send (t : Thread w r)
  /-- `recv_access`. -/
  | receive (t : Thread w r)
  /-- The host's call `i` takes its next step. -/
  | host (i : ℕ) (d : Draw)

section Steps

variable (E : Cipher)

def initial (client : ClientConfig) (numWarmupOperations : ℤ) (db : Db) : State h w r where
  client := SharedQueue.initial client numWarmupOperations
  host := Requests.initial db
  waits := fun _ => none
  started := 0

def State.moving (s : State h w r) (client : SharedQueue.State h w r) : State h w r :=
  { s with client := client }

/-- The thread has called `access`. -/
def State.calling (s : State h w r) (t : Thread w r) (host : Requests.State) : State h w r :=
  { s with host := host, waits := Function.update s.waits t (some s.started), started := s.started + 1 }

/-- The call of `access` has returned. -/
def State.returning (s : State h w r) (t : Thread w r) (client : SharedQueue.State h w r) : State h w r :=
  { s with client := client, waits := Function.update s.waits t none }

/-- Other than `access` a thread's steps are those of the client. -/
def stepOwn (s : State h w r) (t : Thread w r) : Option (State h w r) :=
  match place s.client t with
  | .access _ => none
  | _ => (SharedQueue.next E s.client (action t)).map s.moving

def stepSend (s : State h w r) (t : Thread w r) : Option (State h w r) :=
  match place s.client t, s.waits t with
  | .access data, none => (Requests.next E s.host (.call s.started data)).map (s.calling t)
  | _, _ => none

def stepReceive (s : State h w r) (t : Thread w r) : Option (State h w r) :=
  match s.waits t with
  | none => none
  | some i =>
    match s.host.calls i with
    | .returned _ _ => (SharedQueue.next E s.client (action t)).map (s.returning t)
    | _ => none

def next (s : State h w r) : Act h w r → Option (State h w r)
  | .enqueue i d => (SharedQueue.next E s.client (.enqueue i d)).map s.moving
  | .own t => stepOwn E s t
  | .send t => stepSend E s t
  | .receive t => stepReceive E s t
  | .host i d => (Requests.next E s.host (.step i d)).map fun host => { s with host := host }

end Steps

section Fields

variable (s : State h w r) (t : Thread w r) (host : Requests.State) (client : SharedQueue.State h w r)

@[simp] theorem moving_client : (s.moving client).client = client := rfl
@[simp] theorem moving_waits : (s.moving client).waits = s.waits := rfl
@[simp] theorem calling_host : (s.calling t host).host = host := rfl
@[simp] theorem calling_started : (s.calling t host).started = s.started + 1 := rfl
@[simp] theorem returning_client : (s.returning t client).client = client := rfl
end Fields

/-- What a step does in the client. -/
def clientActs (_ : State h w r) : Act h w r → List (Action h w r)
  | .enqueue i d => [.enqueue i d]
  | .own t => [action t]
  | .send _ => []
  | .receive t => [action t]
  | .host _ _ => []

/-- The operation that a step sends. -/
def sent (s : State h w r) : Act h w r → List Operation
  | .send t =>
    match place s.client t with
    | .access data => [data]
    | _ => []
  | _ => []

/-- What a step takes out of the queue. -/
def handed (s : State h w r) : Act h w r → List (Thread w r × Operation)
  | .own t => SharedQueue.handedOut s.client (action t)
  | _ => []

/-! ### What a step can do -/

inductive Step (E : Cipher) (s : State h w r) : Act h w r → State h w r → Prop
  | enqueue (i : Fin h) (d : OpDraw) (client : SharedQueue.State h w r) :
    SharedQueue.next E s.client (.enqueue i d) = some client → Step E s (.enqueue i d) (s.moving client)
  | own (t : Thread w r) (client : SharedQueue.State h w r) : (∀ data, place s.client t ≠ .access data) →
    SharedQueue.next E s.client (action t) = some client → Step E s (.own t) (s.moving client)
  | send (t : Thread w r) (data : Operation) (host : Requests.State) : place s.client t = .access data →
    s.waits t = none → Requests.next E s.host (.call s.started data) = some host →
    Step E s (.send t) (s.calling t host)
  | receive (t : Thread w r) (i : ℕ) (o : Operation) (reply : Bytes) (client : SharedQueue.State h w r) :
    s.waits t = some i → s.host.calls i = .returned o reply →
    SharedQueue.next E s.client (action t) = some client → Step E s (.receive t) (s.returning t client)
  | host (i : ℕ) (d : Draw) (host : Requests.State) : Requests.next E s.host (.step i d) = some host →
    Step E s (.host i d) { s with host := host }

variable {E : Cipher} {s s' : State h w r} {a : Act h w r}

theorem step_of_next (hs : next E s a = some s') : Step E s a s' := by
  cases a with
  | enqueue i d =>
    obtain ⟨client, hclient, rfl⟩ := Option.map_eq_some_iff.mp hs
    exact .enqueue i d client hclient
  | own t =>
    change stepOwn E s t = some s' at hs
    unfold stepOwn at hs
    split at hs
    · cases hs
    · rename_i hplace
      obtain ⟨client, hclient, rfl⟩ := Option.map_eq_some_iff.mp hs
      exact .own t client (fun data hdata => hplace data hdata) hclient
  | send t =>
    change stepSend E s t = some s' at hs
    unfold stepSend at hs
    split at hs
    · rename_i data hplace hwaits
      obtain ⟨host, hhost, rfl⟩ := Option.map_eq_some_iff.mp hs
      exact .send t data host hplace hwaits hhost
    · cases hs
  | receive t =>
    change stepReceive E s t = some s' at hs
    unfold stepReceive at hs
    split at hs
    · cases hs
    · rename_i i hwaits
      split at hs
      · rename_i o reply hcall
        obtain ⟨client, hclient, rfl⟩ := Option.map_eq_some_iff.mp hs
        exact .receive t i o reply client hwaits hcall hclient
      · cases hs
  | host i d =>
    obtain ⟨host, hhost, rfl⟩ := Option.map_eq_some_iff.mp hs
    exact .host i d host hhost

theorem client_step (hs : next E s a = some s') :
    run (SharedQueue.next E) s.client (clientActs s a) = some s'.client := by
  cases step_of_next hs with
  | enqueue i d client hclient => simp [clientActs, run_cons, hclient]
  | own t client hplace hclient => simp [clientActs, run_cons, hclient]
  | send t data host hplace hwaits hhost => rfl
  | receive t i o reply client hwaits hcall hclient => simp [clientActs, run_cons, hclient]
  | host i d host hhost => rfl

/-- The client's part. -/
theorem client_run {as : List (Act h w r)} {s0 : State h w r} (hrun : run (next E) s0 as = some s) :
    run (SharedQueue.next E) s0.client (collect (next E) clientActs s0 as) = some s.client :=
  run_simulates (next E) (fun _ => True) (fun _ _ _ _ hs => ⟨client_step hs, trivial⟩) trivial hrun

/-- The operation of a call. -/
def operation : Requests.Pc → Option Operation
  | .idle => none
  | .called o => some o
  | .got o _ => some o
  | .computed o _ => some o
  | .stored o _ => some o
  | .returned o _ => some o

/-- The steps that a call has left. -/
def callRank : Requests.Pc → ℕ
  | .called _ => 4
  | .got _ _ => 3
  | .computed _ _ => 2
  | .stored _ _ => 1
  | _ => 0

theorem host_call {i : ℕ} {o : Operation} {u u' : Requests.State}
    (hs : Requests.next E u (.call i o) = some u') : u' = u.goto i (.called o) := by
  simp only [Requests.next] at hs
  split at hs
  · exact (Option.some.inj hs).symm
  · cases hs

/-- What moving one call changes. -/
theorem goto_step {i : ℕ} {u u1 : Requests.State} {pc pc' : Requests.Pc} (hpc : u.calls i = pc)
    (hcalls : u1.calls = u.calls) (hop : operation pc' = operation pc) (hrank : callRank pc' < callRank pc) :
    operation ((u1.goto i pc').calls i) = operation (u.calls i) ∧
      callRank ((u1.goto i pc').calls i) < callRank (u.calls i) ∧
      ∀ j, j ≠ i → (u1.goto i pc').calls j = u.calls j := by
  rw [Requests.goto_calls_self, hpc]
  exact ⟨hop, hrank, fun j hj => by rw [Requests.goto_calls_ne _ _ _ hj, hcalls]⟩

/-- A step of the host's call. -/
theorem host_step {i : ℕ} {d : Draw} {u u' : Requests.State} (hs : Requests.next E u (.step i d) = some u') :
    operation (u'.calls i) = operation (u.calls i) ∧ callRank (u'.calls i) < callRank (u.calls i) ∧
      ∀ j, j ≠ i → u'.calls j = u.calls j := by
  cases Requests.callStep_of_stepCall hs with
  | get o hpc => exact goto_step hpc rfl rfl (Nat.lt_succ_self 3)
  | compute o rdValue updatedVal hpc hcall => exact goto_step hpc rfl rfl (Nat.lt_succ_self 2)
  | abort o rdValue hpc hcall => exact goto_step hpc rfl rfl (Nat.succ_pos 2)
  | put o updatedVal hpc => exact goto_step hpc rfl rfl (Nat.lt_succ_self 1)
  | ret o updatedVal hpc => exact goto_step hpc rfl rfl (Nat.lt_succ_self 0)

/-- The calls are those of the operations sent, and each has returned or is
waited for by the one thread that has sent it. -/
structure Linked (ops : List Operation) (s : State h w r) : Prop where
  length : ops.length = s.started
  calls : ∀ i, operation (s.host.calls i) = ops[i]?
  waiting : ∀ t i, s.waits t = some i → ∃ data, place s.client t = .access data ∧ ops[i]? = some data
  awaited : ∀ i < s.started, (∃ o reply, s.host.calls i = .returned o reply) ∨ ∃ t, s.waits t = some i
  alone : ∀ t t' i, s.waits t = some i → s.waits t' = some i → t = t'

theorem linked_initial (client : ClientConfig) (n : ℤ) (db : Db) :
    Linked [] (initial client n db : State h w r) where
  length := rfl
  calls _ := rfl
  waiting _ _ hwaits := by cases hwaits
  alone _ _ _ hwaits := by cases hwaits
  awaited i hi := absurd hi (Nat.not_lt_zero i)

theorem place_enqueue {q q' : SharedQueue.State h w r} {i : Fin h} {d : OpDraw}
    (hs : SharedQueue.next E q (.enqueue i d) = some q') (t : Thread w r) : place q' t = place q t := by
  obtain ⟨-, ⟨-, o, config', -, rfl⟩ | ⟨-, rfl⟩⟩ := SharedQueue.enqueue_cases hs
  · cases t <;> rfl
  · cases t <;> rfl

section Linked

variable {ops : List Operation} {t : Thread w r}

/-- A thread that waits is at its access, so what the others do does not matter to it. -/
theorem Linked.moving {client : SharedQueue.State h w r} (hL : Linked ops s)
    (hplace : ∀ t' data, place s.client t' = .access data → place client t' = .access data) :
    Linked ops (s.moving client) := by
  refine ⟨hL.length, hL.calls, fun t' j hj => ?_, hL.awaited, hL.alone⟩
  obtain ⟨data, hdata, hop⟩ := hL.waiting t' j hj
  exact ⟨data, hplace t' data hdata, hop⟩

theorem Linked.lt_started {i : ℕ} (hL : Linked ops s) (hwaits : s.waits t = some i) : i < s.started := by
  obtain ⟨data, -, hop⟩ := hL.waiting t i hwaits
  rw [← hL.length]
  exact (List.getElem?_eq_some_iff.mp hop).1

/-- The new call is that of the last operation sent. -/
theorem Linked.calling {data : Operation} (hL : Linked ops s) (hplace : place s.client t = .access data)
    (hwaits : s.waits t = none) :
    Linked (ops ++ [data]) (s.calling t (s.host.goto s.started (.called data))) := by
  refine ⟨?_, fun j => ?_, fun t' j hj => ?_, fun j hj => ?_, fun t1 t2 j h1 h2 => ?_⟩
  · rw [List.length_append, hL.length, List.length_singleton, calling_started]
  · rw [calling_host]
    by_cases hj : j = s.started
    · rw [hj, Requests.goto_calls_self, ← hL.length, List.getElem?_concat_length]
      rfl
    · rw [Requests.goto_calls_ne _ _ _ hj, hL.calls j]
      rcases Nat.lt_or_ge j ops.length with hlt | hge
      · rw [List.getElem?_append_left hlt]
      · have hgt : (ops ++ [data]).length ≤ j := by
          rw [List.length_append, List.length_singleton]
          have hlen := hL.length
          omega
        rw [List.getElem?_eq_none hge, List.getElem?_eq_none hgt]
  · change Function.update s.waits t (some s.started) t' = some j at hj
    by_cases ht : t' = t
    · subst ht
      rw [Function.update_self, Option.some.injEq] at hj
      exact ⟨data, hplace, by rw [← hj, ← hL.length, List.getElem?_concat_length]⟩
    · rw [Function.update_of_ne ht] at hj
      obtain ⟨data', hdata', hop⟩ := hL.waiting t' j hj
      have hlt : j < ops.length := hL.length ▸ hL.lt_started hj
      exact ⟨data', hdata', by rw [List.getElem?_append_left hlt, hop]⟩
  · by_cases hjs : j = s.started
    · exact Or.inr ⟨t, (Function.update_self _ _ _).trans (congrArg some hjs.symm)⟩
    · rcases hL.awaited j (Nat.lt_of_le_of_ne (Nat.le_of_lt_succ hj) hjs) with ⟨o, reply, hret⟩ | ⟨t', ht'⟩
      · exact Or.inl ⟨o, reply, by rw [calling_host, Requests.goto_calls_ne _ _ _ hjs, hret]⟩
      · have hne : t' ≠ t := by
          intro ht
          rw [ht, hwaits] at ht'
          cases ht'
        exact Or.inr ⟨t', (Function.update_of_ne hne _ _).trans ht'⟩
  · change Function.update s.waits t (some s.started) t1 = some j at h1
    change Function.update s.waits t (some s.started) t2 = some j at h2
    by_cases hj : j = s.started
    · have hnew : ∀ t', Function.update s.waits t (some s.started) t' = some j → t' = t := by
        intro t' ht'
        by_contra ht
        rw [Function.update_of_ne ht, hj] at ht'
        exact absurd (hL.lt_started ht') (Nat.lt_irrefl _)
      rw [hnew t1 h1, hnew t2 h2]
    · have hold : ∀ t', Function.update s.waits t (some s.started) t' = some j → s.waits t' = some j := by
        intro t' ht'
        by_cases ht : t' = t
        · rw [ht, Function.update_self, Option.some.injEq] at ht'
          exact absurd ht'.symm hj
        · rwa [Function.update_of_ne ht] at ht'
      exact hL.alone t1 t2 j (hold t1 h1) (hold t2 h2)

/-- The call that a thread has waited for has returned. -/
theorem Linked.returning {client : SharedQueue.State h w r} {i : ℕ} {o : Operation} {reply : Bytes}
    (hL : Linked ops s) (hwaits : s.waits t = some i) (hcall : s.host.calls i = .returned o reply)
    (hothers : ∀ t', t' ≠ t → place client t' = place s.client t') : Linked ops (s.returning t client) := by
  have hold : ∀ t' j, (s.returning t client).waits t' = some j → t' ≠ t ∧ s.waits t' = some j := by
    intro t' j hj
    change Function.update s.waits t none t' = some j at hj
    by_cases ht : t' = t
    · rw [ht, Function.update_self] at hj
      cases hj
    · rw [Function.update_of_ne ht] at hj
      exact ⟨ht, hj⟩
  refine ⟨hL.length, hL.calls, fun t' j hj => ?_, fun j hj => ?_, fun t1 t2 j h1 h2 =>
    hL.alone t1 t2 j (hold t1 j h1).2 (hold t2 j h2).2⟩
  · obtain ⟨ht, hj⟩ := hold t' j hj
    rw [returning_client, hothers t' ht]
    exact hL.waiting t' j hj
  · rcases hL.awaited j hj with hret | ⟨t', ht'⟩
    · exact Or.inl hret
    · by_cases ht : t' = t
      · rw [ht, hwaits, Option.some.injEq] at ht'
        exact Or.inl ⟨o, reply, ht' ▸ hcall⟩
      · exact Or.inr ⟨t', (Function.update_of_ne ht _ _).trans ht'⟩

/-- A call that has returned takes no step. -/
theorem Linked.hosting {i : ℕ} {d : Draw} {host : Requests.State} (hL : Linked ops s)
    (hhost : Requests.next E s.host (.step i d) = some host) : Linked ops { s with host := host } := by
  obtain ⟨hop, hrank, hothers⟩ := host_step hhost
  refine ⟨hL.length, fun j => ?_, hL.waiting, fun j hj => ?_, hL.alone⟩
  · by_cases hji : j = i
    · rw [hji, hop, hL.calls i]
    · rw [hothers j hji, hL.calls j]
  · rcases hL.awaited j hj with ⟨o, reply, hret⟩ | hwaits
    · have hji : j ≠ i := by
        intro hji
        rw [← hji, hret] at hrank
        exact absurd hrank (Nat.not_lt_zero _)
      exact Or.inl ⟨o, reply, by rw [hothers j hji, hret]⟩
    · exact Or.inr hwaits

theorem Linked.step (hL : Linked ops s) (hs : next E s a = some s') : Linked (ops ++ sent s a) s' := by
  cases step_of_next hs with
  | enqueue i d client hclient =>
    change Linked (ops ++ []) _
    rw [List.append_nil]
    exact hL.moving fun t' _ hdata => (place_enqueue hclient t').trans hdata
  | own t client hplace hclient =>
    change Linked (ops ++ []) _
    rw [List.append_nil]
    obtain ⟨-, hmoved, -⟩ := place_step hclient
    apply hL.moving
    intro t' data hdata
    have ht : t' ≠ t := fun ht => hplace data (ht ▸ hdata)
    exact (hmoved.others t' ht).trans hdata
  | send t data host hplace hwaits hhost =>
    obtain rfl := host_call hhost
    have hsent : sent s (.send t) = [data] := by rw [sent, hplace]
    rw [hsent]
    exact hL.calling hplace hwaits
  | receive t i o reply client hwaits hcall hclient =>
    change Linked (ops ++ []) _
    rw [List.append_nil]
    obtain ⟨-, hmoved, -⟩ := place_step hclient
    exact hL.returning hwaits hcall hmoved.others
  | host i d host hhost =>
    change Linked (ops ++ []) _
    rw [List.append_nil]
    exact hL.hosting hhost

end Linked

/-! ### What threads hold and what is left to do -/

instance : Fintype (Thread w r) :=
  Fintype.ofSurjective (Sum.elim Thread.warm Thread.runner) fun t => by
    cases t with
    | warm i => exact ⟨Sum.inl i, rfl⟩
    | runner i => exact ⟨Sum.inr i, rfl⟩

/-- The operation that a thread at this place has. -/
def carried : Place → List Operation
  | .access data => [data]
  | _ => []

def placeRank : Place → ℕ
  | .test => 2
  | .dequeue => 1
  | .access _ => 8
  | .stopped => 0

/-- The operation that a thread has taken out of the queue and has not sent yet. -/
def held (s : State h w r) (t : Thread w r) : Multiset Operation :=
  if (s.waits t).isSome then 0 else carried (place s.client t)

def rank (s : State h w r) (t : Thread w r) : ℕ :=
  if (s.waits t).isSome then 3 else placeRank (place s.client t)

/-- What is left to be read, to be taken, and to return. -/
def clientMeasure (q : SharedQueue.State h w r) : ℕ :=
  9 * q.config.seedData.pieces.length + 8 * q.queue.length + ∑ i, (!q.joined i).toNat

def measure (s : State h w r) : ℕ :=
  clientMeasure s.client + ∑ t, rank s t + ∑ i ∈ Finset.range s.started, callRank (s.host.calls i)

section Places

variable {q q' : List Operation} {p p' : Place}

/-- What a thread takes it carries, and then the queue is shorter. -/
theorem PlaceStep.own (hs : PlaceStep q p p' q') (hp : ∀ data, p ≠ .access data) (t : Thread w r) :
    carried p' = SharedQueue.operations (if p = .dequeue then [(t, (SharedQueue.dequeue q).1)] else []) ∧
      placeRank p' + 8 * q'.length < placeRank p + 8 * q.length := by
  cases hs with
  | test p hp' =>
    rcases hp' with rfl | rfl
    · exact ⟨rfl, Nat.add_lt_add_right (Nat.lt_succ_self 1) _⟩
    · exact ⟨rfl, Nat.add_lt_add_right (Nat.succ_pos 1) _⟩
  | dequeue =>
    rw [if_pos rfl]
    cases q with
    | nil => exact ⟨rfl, Nat.lt_succ_self _⟩
    | cons o q =>
      unfold SharedQueue.dequeue SharedQueue.operations
      by_cases ho : o.op = .eod
      · simp [ho, carried, placeRank]
        omega
      · simp [ho, carried, placeRank]
        omega
  | access data p hp' => exact absurd rfl (hp data)

/-- After an access a thread carries nothing. -/
theorem PlaceStep.received {data : Operation} (hs : PlaceStep q (.access data) p' q') :
    carried p' = [] ∧ placeRank p' < 3 ∧ q' = q := by
  cases hs with
  | access data p hp' =>
    rcases hp' with rfl | rfl
    · exact ⟨rfl, Nat.lt_succ_self 2, rfl⟩
    · exact ⟨rfl, Nat.lt_of_succ_lt (Nat.lt_succ_self 2), rfl⟩

end Places

section Client

variable {q q' : SharedQueue.State h w r}

end Client

/-- A thread that takes a step of its own does not wait. -/
theorem Linked.not_waiting {ops : List Operation} {t : Thread w r} (hL : Linked ops s)
    (ht : ∀ data, place s.client t ≠ .access data) : s.waits t = none := by
  cases hwaits : s.waits t with
  | none => rfl
  | some i =>
    obtain ⟨data, hdata, -⟩ := hL.waiting t i hwaits
    exact absurd hdata (ht data)

section Held

variable {t : Thread w r}

theorem held_eq (hwaits : s.waits t = none) : held s t = carried (place s.client t) := by
  rw [held, hwaits]
  rfl

theorem held_waiting {i : ℕ} (hwaits : s.waits t = some i) : held s t = 0 := by
  rw [held, hwaits]
  rfl

/-- A step changes what one thread holds. -/
theorem held_change (hwaits : ∀ t', t' ≠ t → s'.waits t' = s.waits t')
    (hplace : ∀ t', t' ≠ t → place s'.client t' = place s.client t') :
    ∑ t', held s' t' + held s t = ∑ t', held s t' + held s' t := by
  apply sum_change (Finset.mem_univ t)
  intro t' _ ht
  unfold held
  rw [hwaits t' ht, hplace t' ht]

end Held

/-- What is taken out of the queue is held until it is sent. -/
theorem held_step {ops : List Operation} (hL : Linked ops s) (hs : next E s a = some s') :
    ∑ t, held s' t + (sent s a : Multiset Operation) =
      ∑ t, held s t + (SharedQueue.operations (handed s a) : Multiset Operation) := by
  cases step_of_next hs with
  | enqueue i d client hclient =>
    refine congrArg₂ _ (Finset.sum_congr rfl fun t _ => ?_) rfl
    unfold held
    rw [moving_client, moving_waits, place_enqueue hclient t]
  | own t client hplace hclient =>
    obtain ⟨-, hmoved, hstep⟩ := place_step hclient
    have hwaits := hL.not_waiting hplace
    have hchange := @held_change _ _ _ s (s.moving client) t (fun _ _ => rfl) hmoved.others
    have hbefore : held s t = 0 := by
      rw [held_eq hwaits]
      cases hpc : place s.client t with
      | access data => exact absurd hpc (hplace data)
      | _ => rfl
    have hafter : held (s.moving client) t = SharedQueue.operations (handed s (.own t)) := by
      have hwaits' : (s.moving client).waits t = none := hwaits
      rw [held_eq hwaits', moving_client, (hstep.own hplace t).1]
      exact congrArg _ (congrArg _ (handedOut_action t).symm)
    rw [hbefore, add_zero, hafter] at hchange
    exact (add_zero _).trans hchange
  | send t data host hplace hwaits hhost =>
    have hchange := @held_change _ _ _ s (s.calling t host) t (fun t' ht => Function.update_of_ne ht _ _)
      fun _ _ => rfl
    have hbefore : held s t = sent s (.send t) := by
      rw [held_eq hwaits, sent, hplace]
      rfl
    have hafter : held (s.calling t host) t = 0 := held_waiting (Function.update_self _ _ _)
    rw [hbefore, hafter] at hchange
    exact hchange
  | receive t i o reply client hwaits hcall hclient =>
    obtain ⟨-, hmoved, hstep⟩ := place_step hclient
    obtain ⟨data, hdata, -⟩ := hL.waiting t i hwaits
    rw [hdata] at hstep
    have hchange := @held_change _ _ _ s (s.returning t client) t (fun t' ht => Function.update_of_ne ht _ _)
      hmoved.others
    have hafter : held (s.returning t client) t = 0 := by
      rw [held_eq (Function.update_self _ _ _)]
      exact congrArg _ hstep.received.1
    rw [held_waiting hwaits, hafter] at hchange
    exact hchange
  | host i d host hhost => rfl

/-- What holds between the actions so far and the state. -/
structure Inv (E : Cipher) (s0 : State h w r) (as : List (Act h w r)) (s : State h w r) : Prop where
  linked : Linked (collect (next E) sent s0 as) s
  held : ∑ t, held s t + (collect (next E) sent s0 as : Multiset Operation) =
    (SharedQueue.operations (collect (next E) handed s0 as) : Multiset Operation)

theorem inv_initial (client : ClientConfig) (n : ℤ) (db : Db) :
    Inv E (initial client n db : State h w r) [] (initial client n db) where
  linked := linked_initial client n db
  held := by
    have hnone : ∀ t, ClientRun.held (initial client n db : State h w r) t = 0 := by
      intro t
      cases t with
      | warm i => rfl
      | runner i => rfl
    rw [Finset.sum_congr rfl fun t _ => hnone t, Finset.sum_const_zero]
    rfl

theorem Inv.step {s0 : State h w r} {as : List (Act h w r)} (hI : Inv E s0 as s)
    (hrun : run (next E) s0 as = some s) (hs : next E s a = some s') : Inv E s0 (as ++ [a]) s' := by
  have hsent := collect_concat (next E) sent hrun hs
  have hhanded := collect_concat (next E) handed hrun hs
  refine ⟨?_, ?_⟩
  · rw [hsent]
    exact hI.linked.step hs
  · rw [hsent, hhanded, SharedQueue.operations_append, ← Multiset.coe_add, ← Multiset.coe_add, ← hI.held]
    calc ∑ t, ClientRun.held s' t + (collect (next E) sent s0 as + sent s a : Multiset Operation)
        = ∑ t, ClientRun.held s' t + (sent s a : Multiset Operation) + collect (next E) sent s0 as := by
          rw [add_comm (collect (next E) sent s0 as : Multiset Operation), add_assoc]
      _ = ∑ t, ClientRun.held s t + (SharedQueue.operations (handed s a) : Multiset Operation) +
            collect (next E) sent s0 as := by rw [held_step hI.linked hs]
      _ = ∑ t, ClientRun.held s t + collect (next E) sent s0 as + SharedQueue.operations (handed s a) :=
          add_right_comm _ _ _

theorem inv_run {client : ClientConfig} {n : ℤ} {db : Db} {as : List (Act h w r)}
    (hrun : run (next E) (initial client n db) as = some s) :
    Inv E (initial client n db) as s := by
  apply run_inv (next E) (Inv E (initial client n db)) (inv_initial client n db) ?_
    (along_of_forall (next E) _ (fun _ _ => trivial) : Along (next E) (fun _ _ => True) _ as) hrun
  intro as s a s' hrun hI _ hs
  exact hI.step hrun hs

/-- What the client takes out of its queue. -/
theorem handed_run {client : ClientConfig} {n : ℤ} {db : Db} {as : List (Act h w r)}
    (hrun : run (next E) (initial client n db) as = some s) :
    collect (SharedQueue.next E) SharedQueue.handedOut (initial client n db : State h w r).client
      (collect (next E) clientActs (initial client n db) as) =
        collect (next E) handed (initial client n db) as := by
  refine collect_simulates (next E) (fun s => ∃ ops, Linked ops s) ?_
    ⟨[], linked_initial client n db⟩ hrun
  intro s a s' hI hs
  obtain ⟨ops, hL⟩ := hI
  refine ⟨client_step hs, ?_, _, hL.step hs⟩
  cases step_of_next hs with
  | enqueue i d client hclient => simp [clientActs, collect, hclient, handed, SharedQueue.handedOut]
  | own t client hplace hclient => simp [clientActs, collect, hclient, handed]
  | send t data host hplace hwaits hhost => rfl
  | receive t i o reply client hwaits hcall hclient =>
    obtain ⟨data, hdata, -⟩ := hL.waiting t i hwaits
    have hnone : SharedQueue.handedOut s.client (action t) = [] := by
      rw [handedOut_action, hdata]
      rfl
    simp [clientActs, collect, hclient, handed, hnone]
  | host i d host hhost => rfl

/-- What has been sent the one loop over the file would have made. -/
theorem produced_run {client : ClientConfig} {n : ℤ} {db : Db} {as : List (Act h w r)}
    (hrun : run (next E) (initial client n db) as = some s) :
    ∃ draws, run (loopNext E) client draws = some s.client.config ∧
      (collect (loopNext E) (loopYield E) client draws : Multiset Operation) =
        ∑ t, held s t + (collect (next E) sent (initial client n db) as : Multiset Operation) +
          (s.client.queue : Multiset Operation) := by
  have hI := SharedQueue.inv_run (client_run hrun)
  refine ⟨_, hI.input, ?_⟩
  rw [(inv_run hrun).held, ← handed_run hrun]
  exact (congrArg _ hI.produced).trans (Multiset.coe_add _ _).symm

/-- In every run, whatever the file and the store hold: what the one loop
would have made so far is queued, or held by a thread, or has been sent, each
operation once; the calls at the host are those of the operations sent, in
order; and a call that has not returned has exactly one thread waiting for it,
the one that is at its access with the call's operation. -/
theorem calls_exactly_once (E : Cipher) {h w r : ℕ} {client : ClientConfig} {n : ℤ} {db : Db}
    {as : List (Act h w r)} {s : State h w r} (hrun : run (next E) (initial client n db) as = some s) :
    (∃ draws, run (loopNext E) client draws = some s.client.config ∧
      (collect (loopNext E) (loopYield E) client draws : Multiset Operation) =
        ∑ t, held s t + (collect (next E) sent (initial client n db) as : Multiset Operation) +
          (s.client.queue : Multiset Operation)) ∧
    (∀ i, operation (s.host.calls i) = (collect (next E) sent (initial client n db) as)[i]?) ∧
    (∀ t i, s.waits t = some i →
      ∃ o, place s.client t = .access o ∧ operation (s.host.calls i) = some o) ∧
    ∀ i o, operation (s.host.calls i) = some o →
      (∃ reply, s.host.calls i = .returned o reply) ∨ ∃! t, s.waits t = some i := by
  have hL := (inv_run hrun).linked
  refine ⟨produced_run hrun, hL.calls, fun t i hwaits => ?_, fun i o ho => ?_⟩
  · obtain ⟨o, hplace, hop⟩ := hL.waiting t i hwaits
    exact ⟨o, hplace, (hL.calls i).trans hop⟩
  · have hlt : i < s.started := by
      rw [← hL.length]
      exact (List.getElem?_eq_some_iff.mp ((hL.calls i).symm.trans ho)).1
    rcases hL.awaited i hlt with ⟨o', reply, hret⟩ | ⟨t, ht⟩
    · rw [hret] at ho
      obtain rfl : o' = o := Option.some.inj ho
      exact Or.inl ⟨reply, hret⟩
    · exact Or.inr ⟨t, ht, fun t' ht' => hL.alone t' t i ht' ht⟩

/-- The `WarmUpRunner` has sent the operation of the one line. -/
def oneCall : List (Act 1 1 1) :=
  [.enqueue ⟨0, Nat.one_pos⟩ plainOpDraw, .enqueue ⟨0, Nat.one_pos⟩ plainOpDraw,
    .own (.warm ⟨0, Nat.one_pos⟩), .own (.warm ⟨0, Nat.one_pos⟩), .send (.warm ⟨0, Nat.one_pos⟩)]

theorem calls_exactly_once_one : ∃ s : State 1 1 1,
    run (next plainCipher) (initial SharedQueue.oneLine 1 fun _ => none) oneCall = some s ∧
    (∀ t i, s.waits t = some i → ∃ o, place s.client t = .access o ∧ operation (s.host.calls i) = some o) ∧
    ∀ i o, operation (s.host.calls i) = some o →
      (∃ reply, s.host.calls i = .returned o reply) ∨ ∃! t, s.waits t = some i := by
  obtain ⟨s, hs⟩ := Option.isSome_iff_exists.mp
    (show (run (next plainCipher) (initial SharedQueue.oneLine 1 fun _ => none : State 1 1 1)
      oneCall).isSome = true by decide)
  exact ⟨s, hs, (calls_exactly_once plainCipher hs).2.2⟩

/-! ### Where nothing can go on -/

section Generated

variable {config : GenerationConfig} {seedDraws : List ValueDraw} {operationDraws : List OperationDraw}
  {seed operations : Bytes} {initDraw : ℕ → OpDraw} {db0 db : Db} {client : ClientConfig} {n : ℤ}
  {as : List (Act h w r)}

end Generated

/-- What keeps the measure going down. -/
def Going (s : State h w r) : Prop := (∃ ops, Linked ops s) ∧ s.client.config.useSeed = true

end ClientRun
end Tee
end Ortoa
