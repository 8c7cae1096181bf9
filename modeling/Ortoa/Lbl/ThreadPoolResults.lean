/-
# What a call gets from the pool

A call gets its futures in the order in which it submitted its tasks, so it
returns without an error exactly when no task has failed, and throws the error
of the first task that has (`Got`). Its memory is then what one interleaving of
the statements of its tasks makes of the memory it set up
(`returned_result`), whatever other calls have their tasks in the queue.

After an error the tasks behind the one that failed may still be queued or
running; the memory is what they have made of it so far.

Key definitions: `Got`.
Key theorems: `got_run`, `returned_result`, `returned_ok`.
-/
import Ortoa.Lbl.ThreadPoolOrder

namespace Ortoa
namespace Lbl
namespace ThreadPool

variable {σ ε : Type} {n : ℕ} {memory : ℕ → σ} {acts : List (Act σ ε)} {s s' : Pool σ ε}

/-! ### The futures -/

/-- What a call at `pc` knows of its futures. -/
def Got (promises : ℕ × ℕ → Option (Except ε Unit)) (c : ℕ) : Client σ ε → Prop
  | .getting b k => ∀ j < k, j < b.bodies.length → promises (c, j) = some (.ok ())
  | .returned b (.ok ()) => ∀ j < b.bodies.length, promises (c, j) = some (.ok ())
  | .returned b (.error e) => ∃ k < b.bodies.length, promises (c, k) = some (.error e) ∧
    ∀ j < k, promises (c, j) = some (.ok ())
  | _ => True

theorem Got.mono {promises promises' : ℕ × ℕ → Option (Except ε Unit)} {c : ℕ} {pc : Client σ ε}
    (hG : Got promises c pc) (h : ∀ id r, promises id = some r → promises' id = some r) : Got promises' c pc := by
  cases pc with
  | getting b k => exact fun j hj hlt => h _ _ (hG j hj hlt)
  | returned b r =>
    cases r with
    | ok u => exact fun j hj => h _ _ (hG j hj)
    | error e =>
      obtain ⟨k, hk, herr, hall⟩ := hG
      exact ⟨k, hk, h _ _ herr, fun j hj => h _ _ (hall j hj)⟩
  | _ => trivial

/-- A promise is set once. -/
theorem promises_of_workerStep {i pick : ℕ} (hP : (toWorkQueue s).Placed) (h : WorkerStep s i pick s')
    (id : ℕ × ℕ) (r : Except ε Unit) (hr : s.promises id = some r) : s'.promises id = some r := by
  cases h with
  | settle t r' hpc =>
    have hnone : s.promises t.id = none := hP.workingOutcome i t (congrArg Worker.task hpc)
    have hne : id ≠ t.id := by
      rintro rfl
      rw [hnone] at hr
      cases hr
    show Function.update s.promises t.id (some r') id = some r
    rw [Function.update_of_ne hne]
    exact hr
  | _ => exact hr

theorem got_clientStep {c pick : ℕ} (hG : Got s.promises c (s.clients c)) (h : ClientStep n s c pick s') :
    Got s'.promises c (s'.clients c) := by
  cases h with
  | submitted b k =>
    rw [client_self]
    exact fun j hj => absurd hj (Nat.not_lt_zero j)
  | get b k hpc hlt hok =>
    rw [hpc] at hG
    rw [client_self]
    intro j hj hjlt
    rcases Nat.lt_succ_iff_lt_or_eq.mp hj with hjk | rfl
    · exact hG j hjk hjlt
    · exact hok
  | rethrow b k e hpc hlt herr =>
    rw [hpc] at hG
    rw [client_self]
    exact ⟨k, hlt, herr, fun j hj => hG j hj (hj.trans hlt)⟩
  | gotAll b k hpc hle =>
    rw [hpc] at hG
    rw [client_self]
    exact fun j hj => hG j (hj.trans_le hle) hj
  | waitLeave d hpc =>
    rw [client_self]
    cases d <;> trivial
  | _ =>
    rw [client_self]
    trivial

theorem got_run (h : run (next n) (initial memory) acts = some s) (c : ℕ) : Got s.promises c (s.clients c) := by
  suffices hI : (toWorkQueue s).Placed ∧ ∀ c, Got s.promises c (s.clients c) from hI.2 c
  have hP0 : (toWorkQueue (initial memory : Pool σ ε)).Placed := WorkQueue.placed_initial memory
  refine run_keeps (next n) (fun s => (toWorkQueue s).Placed ∧ ∀ c, Got s.promises c (s.clients c))
    ⟨hP0, fun _ => trivial⟩ ?_ h
  rintro s a s' ⟨hP, hG⟩ ha
  refine ⟨(run_next_placed hP ha).2, ?_⟩
  have hnew : ∀ c pc, Got s.promises c pc → ∀ d, Got s.promises d ((s.client c pc).clients d) := by
    intro c pc hpc d
    by_cases hd : d = c
    · subst hd
      rw [client_self]
      exact hpc
    · rw [client_ne _ _ _ hd]
      exact hG d
  cases nextStep_of_next ha with
  | batch c b => exact hnew c _ trivial
  | waitForTasks c => exact hnew c _ trivial
  | destroy c => exact hnew c _ trivial
  | client c pick _ hstep =>
    intro d
    by_cases hd : d = c
    · subst hd
      exact got_clientStep (hG d) hstep
    · cases hstep <;> first | (rw [client_ne _ _ _ hd]; exact hG d)
  | worker i pick _ _ hstep =>
    intro c
    have hc : s'.clients = s.clients := by cases hstep <;> rfl
    rw [hc]
    exact (hG c).mono (promises_of_workerStep hP hstep)
  | _ => exact hG

/-! ### The result -/

section Returned

variable {c : ℕ} {b : Batch σ ε} {r : Except ε Unit}

theorem submitted_of_returned (hc : s.clients c = .returned b r) : (toWorkQueue s).submitted c = b.bodies := by
  show (s.clients c).submitted = b.bodies
  rw [hc]
  exact List.take_length

theorem start_of_returned (hc : s.clients c = .returned b r) : (toWorkQueue s).start c = b.init := by
  show (s.clients c).init.getD (s.memory c) = b.init
  rw [hc]
  rfl

/-- What the tasks of a call have executed. -/
theorem replay_of_returned (h : run (next n) (initial memory) acts = some s) (hc : s.clients c = .returned b r) :
    ∃ trace, WorkQueue.replay trace b.init = .ok (s.memory c) ∧
      (∀ x ∈ trace, ∃ body, b.bodies[x.1]? = some body ∧ x.2 ∈ body) ∧ (r = .ok () → Interleaves trace b.bodies) := by
  have hrun := run_toWorkQueue h
  obtain ⟨hP, hR⟩ := WorkQueue.inv_run hrun
  have hreplay := hR.replay c
  rw [start_of_returned hc] at hreplay
  refine ⟨WorkQueue.trace memory c (queueRun n memory acts), hreplay, fun x hx => ?_, ?_⟩
  · have hmem := WorkQueue.trace_mem hP hR hx
    rwa [submitted_of_returned hc] at hmem
  · rintro rfl
    have hG := got_run h c
    rw [hc] at hG
    have hend : ∀ k < ((toWorkQueue s).submitted c).length, (toWorkQueue s).outcome (c, k) = some (.ok ()) := by
      rw [submitted_of_returned hc]
      exact hG
    have hinter := (WorkQueue.interleaves_of_ended hrun hend).1
    rwa [submitted_of_returned hc] at hinter

/-- A call that has returned has the memory that one interleaving of the
statements of its tasks makes of what it set up, all of them if no task has
failed, and else the error of the first that has. -/
theorem returned_result (h : run (next n) (initial memory) acts = some s) (hc : s.clients c = .returned b r) :
    ∃ trace, WorkQueue.replay trace b.init = .ok (s.memory c) ∧
      (∀ x ∈ trace, ∃ body, b.bodies[x.1]? = some body ∧ x.2 ∈ body) ∧
      ((r = .ok () ∧ Interleaves trace b.bodies) ∨ ∃ e, ∃ k < b.bodies.length, r = .error e ∧
        s.promises (c, k) = some (.error e) ∧ ∀ j < k, s.promises (c, j) = some (.ok ())) := by
  obtain ⟨trace, hreplay, hmem, hinter⟩ := replay_of_returned h hc
  refine ⟨trace, hreplay, hmem, ?_⟩
  have hG := got_run h c
  rw [hc] at hG
  cases r with
  | ok u => exact Or.inl ⟨rfl, hinter rfl⟩
  | error e =>
    obtain ⟨k, hk, herr, hall⟩ := hG
    exact Or.inr ⟨e, k, hk, rfl, herr, hall⟩

/-- Call 0 has one task, which a worker has executed. -/
def oneTask : List (Act ℕ Unit) :=
  [.batch 0 ⟨5, [[fun m => .ok (m + 1)]]⟩, .client 0 0, .client 0 0, .client 0 0, .client 0 0,
    .worker 0 0, .worker 0 0, .worker 0 0, .worker 0 0, .worker 0 0, .worker 0 0, .worker 0 0, .worker 0 0,
    .client 0 0, .client 0 0]

theorem returned_result_oneTask : ∃ s, ∃ trace : List (ℕ × (ℕ → Except Unit ℕ)),
    run (next 1) (initial fun _ => 0) oneTask = some s ∧ s.memory 0 = 6 ∧
      WorkQueue.replay trace 5 = .ok (s.memory 0) := by
  obtain ⟨trace, hreplay, -⟩ := returned_result
    (show run (next 1) (initial fun _ => 0) oneTask = some _ from rfl) (c := 0) rfl
  exact ⟨_, trace, rfl, rfl, hreplay⟩

/-- Tasks that do not fail give no error. -/
theorem returned_ok {J : σ → Prop} (h : run (next n) (initial memory) acts = some s)
    (hc : s.clients c = .returned b r) (hsafe : WorkQueue.Safe J b.bodies) (h0 : J b.init) : r = .ok () := by
  cases r with
  | ok u => rfl
  | error e =>
    have hG := got_run h c
    rw [hc] at hG
    obtain ⟨k, -, herr, -⟩ := hG
    have hok := WorkQueue.outcome_ok (run_toWorkQueue h) (submitted_of_returned hc ▸ hsafe)
      (start_of_returned hc ▸ h0) herr
    cases hok

end Returned

end ThreadPool
end Lbl
end Ortoa
