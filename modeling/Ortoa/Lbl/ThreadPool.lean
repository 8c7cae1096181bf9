/-
# `BS_thread_pool.hpp`: the pool behind `submit`

The proxy and the server hand the parts of their work to a pool of worker
threads: a call submits its tasks one by one and then gets their futures one
by one. `Worker` and `Client` have one state before each statement of
`worker`, `push_task`, `get`, `wait_for_tasks` and the destructor that touches
what the threads share, and `next` executes one statement of one thread. What
a statement does under `tasks_mutex` to `tasks` alone is one step with its
lock and unlock; the atomic variables are read and written between other
threads' steps. A condition variable is the list of the threads that are
blocked in it. A thread that blocks has evaluated its predicate before
(`parking`), and only what is notified after it has blocked wakes it.

A task is the list of statements of the submitted function on the memory that
the tasks of its call share. The caller sets that memory up before the first
`submit`.

Not covered: `reset`, `push_loop`, `parallelize_loop` and `multi_future`,
which nothing here calls.

Key definitions: `Worker`, `Client`, `Pool`, `next`, `toWorkQueue`.
Key theorems: `workerStep_of_stepWorker`, `clientStep_of_stepClient`, `held_run`, `run_toWorkQueue`.
-/
import Ortoa.WorkQueue

namespace Ortoa
namespace Lbl
namespace ThreadPool

/-! ### The threads -/

/-- What a call has the pool do: the memory it sets up, and the body of each
function that it submits. -/
structure Batch (σ ε : Type) where
  init : σ
  bodies : List (List (σ → Except ε σ))

/-- Where a worker thread is in `worker`. -/
inductive Worker (σ ε : Type)
  /-- Before `while (running)`. -/
  | top
  /-- Before it has `tasks_mutex`. -/
  | locking
  /-- Before the predicate of `task_available_cv.wait`. -/
  | testing
  /-- The predicate was false; before it blocks. -/
  | parking
  /-- Blocked in `task_available_cv`, or notified and before it has `tasks_mutex` again. -/
  | blocked
  /-- Before `running` in `if (running && !paused)`. -/
  | checking
  /-- Before `paused` in it. -/
  | checkingPaused
  /-- Before `tasks.front()`. -/
  | taking
  /-- In `task()`, with the statements that are left. -/
  | working (t : Task σ ε)
  /-- Before `tasks_lock.lock()`. -/
  | finished
  /-- Before `--tasks_total`. -/
  | counting
  /-- Before `if (waiting)`. -/
  | counted
  /-- Before `task_done_cv.notify_one()`. -/
  | notifying
  /-- Before the end of the scope of `tasks_lock`. -/
  | leaving
  | exited

/-- Where another thread is: in a call that runs a batch, in `wait_for_tasks`
(for the destructor or not), or in the rest of the destructor. -/
inductive Client (σ ε : Type)
  | idle
  /-- Before `submit` of body `k`. -/
  | submitting (b : Batch σ ε) (k : ℕ)
  /-- In `push_task`, before `++tasks_total`. -/
  | pushed (b : Batch σ ε) (k : ℕ)
  /-- Before `task_available_cv.notify_one()`. -/
  | announcing (b : Batch σ ε) (k : ℕ)
  /-- Before `get` of future `k`. -/
  | getting (b : Batch σ ε) (k : ℕ)
  /-- All futures were got, or one has thrown. -/
  | returned (b : Batch σ ε) (r : Except ε Unit)
  /-- Before `waiting = true`. -/
  | waitEntered (destructor : Bool)
  /-- Before it has `tasks_mutex`. -/
  | waitLocking (destructor : Bool)
  /-- Before the predicate of `task_done_cv.wait`. -/
  | waitTesting (destructor : Bool)
  | waitParking (destructor : Bool)
  | waitBlocked (destructor : Bool)
  /-- Before `waiting = false`. -/
  | waitOver (destructor : Bool)
  | waitLeaving (destructor : Bool)
  /-- `wait_for_tasks` has returned. -/
  | waited
  /-- Before `running = false`. -/
  | stopping
  /-- Before `task_available_cv.notify_all()`. -/
  | stopped
  /-- Before `threads[k].join()`. -/
  | joining (k : ℕ)
  | destroyed

inductive Thread
  | worker (i : ℕ)
  | client (c : ℕ)
  deriving DecidableEq

variable {σ ε : Type}

/-- The thread has `tasks_mutex`. -/
def Worker.holds : Worker σ ε → Bool
  | .testing | .parking | .checking | .checkingPaused | .taking => true
  | .counting | .counted | .notifying | .leaving => true
  | _ => false

def Client.holds : Client σ ε → Bool
  | .waitTesting _ | .waitParking _ | .waitOver _ | .waitLeaving _ => true
  | _ => false

/-- The batch of a call, and how many of its tasks are in the queue or beyond. -/
def Client.batch : Client σ ε → Option (Batch σ ε × ℕ)
  | .submitting b k => some (b, k)
  | .pushed b k => some (b, k + 1)
  | .announcing b k => some (b, k + 1)
  | .getting b _ => some (b, b.bodies.length)
  | .returned b _ => some (b, b.bodies.length)
  | _ => none

/-! ### The pool -/

structure Pool (σ ε : Type) where
  tasks : List (Task σ ε)
  tasksTotal : BitVec 64
  paused : Bool
  running : Bool
  waiting : Bool
  tasksMutex : Option Thread
  /-- The workers blocked in `task_available_cv`. -/
  taskAvailableCv : List ℕ
  /-- The threads blocked in `task_done_cv`. -/
  taskDoneCv : List ℕ
  workers : ℕ → Worker σ ε
  clients : ℕ → Client σ ε
  /-- The promise of each task. -/
  promises : ℕ × ℕ → Option (Except ε Unit)
  memory : ℕ → σ
  /-- `tasks.front()` was called on an empty queue. -/
  crashed : Bool

/-- The pool when its constructor has set `running`: a thread that has not been
started is one that has not taken a step. -/
def initial (memory : ℕ → σ) : Pool σ ε where
  tasks := []
  tasksTotal := 0
  paused := false
  running := true
  waiting := false
  tasksMutex := none
  taskAvailableCv := []
  taskDoneCv := []
  workers := fun _ => .top
  clients := fun _ => .idle
  promises := fun _ => none
  memory := memory
  crashed := false

/-- `determine_thread_count`. -/
def determineThreadCount (threadCount hardwareConcurrency : ℕ) : ℕ :=
  if 0 < threadCount then threadCount
  else if 0 < hardwareConcurrency then hardwareConcurrency
  else 1

theorem determineThreadCount_pos (threadCount hardwareConcurrency : ℕ) :
    0 < determineThreadCount threadCount hardwareConcurrency := by
  unfold determineThreadCount
  split
  · assumption
  · split
    · assumption
    · exact Nat.one_pos

/-- `get_tasks_running`. -/
def getTasksRunning (s : Pool σ ε) : BitVec 64 := s.tasksTotal - BitVec.ofNat 64 s.tasks.length

/-- `notify_one`: one of the blocked threads is no longer blocked, if there is one. -/
def notifyOne (blocked : List ℕ) (pick : ℕ) : List ℕ := blocked.eraseIdx (pick % blocked.length)

def Pool.worker (s : Pool σ ε) (i : ℕ) (pc : Worker σ ε) : Pool σ ε :=
  { s with workers := Function.update s.workers i pc }

def Pool.client (s : Pool σ ε) (c : ℕ) (pc : Client σ ε) : Pool σ ε :=
  { s with clients := Function.update s.clients c pc }

/-- What can happen next. -/
inductive Act (σ ε : Type)
  /-- Call `c` sets up its memory and starts to submit. -/
  | batch (c : ℕ) (b : Batch σ ε)
  | waitForTasks (c : ℕ)
  /-- The destructor is called. -/
  | destroy (c : ℕ)
  | pause
  | unpause
  /-- Thread `c` executes its next statement; `pick` is whom it notifies. -/
  | client (c pick : ℕ)
  | worker (i pick : ℕ)
  /-- A worker wakes up without being notified. -/
  | spuriousWorker (pick : ℕ)
  | spuriousClient (pick : ℕ)

/-- The next statement of worker `i`. -/
def stepWorker (s : Pool σ ε) (i pick : ℕ) : Option (Pool σ ε) :=
  match s.workers i with
  | .top => some (s.worker i (if s.running then .locking else .exited))
  | .locking =>
    if s.tasksMutex = none then some ({ s with tasksMutex := some (.worker i) }.worker i .testing)
    else none
  | .testing => some (s.worker i (if !s.tasks.isEmpty || !s.running then .checking else .parking))
  | .parking => some ({ s with
      tasksMutex := none, taskAvailableCv := i :: s.taskAvailableCv }.worker i .blocked)
  | .blocked =>
    if i ∉ s.taskAvailableCv ∧ s.tasksMutex = none then
      some ({ s with tasksMutex := some (.worker i) }.worker i .testing)
    else none
  | .checking => some (s.worker i (if s.running then .checkingPaused else .leaving))
  | .checkingPaused => some (s.worker i (if s.paused then .leaving else .taking))
  | .taking =>
    match s.tasks with
    | [] => some { s with crashed := true }
    | t :: tasks => some ({ s with tasks := tasks, tasksMutex := none }.worker i (.working t))
  | .working t =>
    match t.body with
    | [] => some ({ s with
        promises := Function.update s.promises t.id (some (.ok ())) }.worker i .finished)
    | f :: rest =>
      match f (s.memory t.call) with
      | .ok m => some ({ s with
          memory := Function.update s.memory t.call m }.worker i (.working ⟨t.call, t.index, rest⟩))
      | .error e => some ({ s with
          promises := Function.update s.promises t.id (some (.error e)) }.worker i .finished)
  | .finished =>
    if s.tasksMutex = none then some ({ s with tasksMutex := some (.worker i) }.worker i .counting)
    else none
  | .counting => some ({ s with tasksTotal := s.tasksTotal - 1 }.worker i .counted)
  | .counted => some (s.worker i (if s.waiting then .notifying else .leaving))
  | .notifying => some ({ s with taskDoneCv := notifyOne s.taskDoneCv pick }.worker i .leaving)
  | .leaving => some ({ s with tasksMutex := none }.worker i .top)
  | .exited => none

/-- The next statement of thread `c`, with `n` workers. -/
def stepClient (n : ℕ) (s : Pool σ ε) (c pick : ℕ) : Option (Pool σ ε) :=
  match s.clients c with
  | .submitting b k =>
    match b.bodies[k]? with
    | none => some (s.client c (.getting b 0))
    | some body =>
      if s.tasksMutex = none then
        some ({ s with tasks := s.tasks ++ [Task.mk c k body] }.client c (.pushed b k))
      else none
  | .pushed b k => some ({ s with tasksTotal := s.tasksTotal + 1 }.client c (.announcing b k))
  | .announcing b k => some ({ s with
      taskAvailableCv := notifyOne s.taskAvailableCv pick }.client c (.submitting b (k + 1)))
  | .getting b k =>
    if k < b.bodies.length then
      match s.promises (c, k) with
      | none => none
      | some (.ok ()) => some (s.client c (.getting b (k + 1)))
      | some (.error e) => some (s.client c (.returned b (.error e)))
    else some (s.client c (.returned b (.ok ())))
  | .waitEntered d => some ({ s with waiting := true }.client c (.waitLocking d))
  | .waitLocking d =>
    if s.tasksMutex = none then
      some ({ s with tasksMutex := some (.client c) }.client c (.waitTesting d))
    else none
  | .waitTesting d =>
    let unfinished := if s.paused then BitVec.ofNat 64 s.tasks.length else 0
    some (s.client c (if s.tasksTotal = unfinished then .waitOver d else .waitParking d))
  | .waitParking d => some ({ s with
      tasksMutex := none, taskDoneCv := c :: s.taskDoneCv }.client c (.waitBlocked d))
  | .waitBlocked d =>
    if c ∉ s.taskDoneCv ∧ s.tasksMutex = none then
      some ({ s with tasksMutex := some (.client c) }.client c (.waitTesting d))
    else none
  | .waitOver d => some ({ s with waiting := false }.client c (.waitLeaving d))
  | .waitLeaving d =>
    some ({ s with tasksMutex := none }.client c (if d then .stopping else .waited))
  | .stopping => some ({ s with running := false }.client c .stopped)
  | .stopped => some ({ s with taskAvailableCv := [] }.client c (.joining 0))
  | .joining k =>
    if k < n then
      match s.workers k with
      | .exited => some (s.client c (.joining (k + 1)))
      | _ => none
    else some (s.client c .destroyed)
  | .idle | .returned _ _ | .waited | .destroyed => none

/-- A pool of `n` workers. -/
def next (n : ℕ) (s : Pool σ ε) : Act σ ε → Option (Pool σ ε)
  | .batch c b =>
    match s.clients c with
    | .idle => some ({ s with memory := Function.update s.memory c b.init }.client c (.submitting b 0))
    | _ => none
  | .waitForTasks c =>
    match s.clients c with
    | .idle => some (s.client c (.waitEntered false))
    | _ => none
  | .destroy c =>
    match s.clients c with
    | .idle => some (s.client c (.waitEntered true))
    | _ => none
  | .pause => some { s with paused := true }
  | .unpause => some { s with paused := false }
  | .client c pick => stepClient n s c pick
  | .worker i pick => if i < n then stepWorker s i pick else none
  | .spuriousWorker pick => some { s with taskAvailableCv := s.taskAvailableCv.eraseIdx pick }
  | .spuriousClient pick => some { s with taskDoneCv := s.taskDoneCv.eraseIdx pick }

/-! ### What a statement can do -/

section Fields

variable (s : Pool σ ε) (i : ℕ) (pc : Worker σ ε) (c : ℕ) (pc' : Client σ ε)

@[simp] theorem worker_tasks : (s.worker i pc).tasks = s.tasks := rfl
@[simp] theorem worker_running : (s.worker i pc).running = s.running := rfl
@[simp] theorem worker_tasksMutex : (s.worker i pc).tasksMutex = s.tasksMutex := rfl
@[simp] theorem worker_clients : (s.worker i pc).clients = s.clients := rfl
@[simp] theorem worker_promises : (s.worker i pc).promises = s.promises := rfl
@[simp] theorem worker_self : (s.worker i pc).workers i = pc := Function.update_self _ _ _
theorem worker_ne {j : ℕ} (h : j ≠ i) : (s.worker i pc).workers j = s.workers j := Function.update_of_ne h _ _
@[simp] theorem client_tasks : (s.client c pc').tasks = s.tasks := rfl
@[simp] theorem client_running : (s.client c pc').running = s.running := rfl
@[simp] theorem client_tasksMutex : (s.client c pc').tasksMutex = s.tasksMutex := rfl
@[simp] theorem client_workers : (s.client c pc').workers = s.workers := rfl
@[simp] theorem client_promises : (s.client c pc').promises = s.promises := rfl
@[simp] theorem client_self : (s.client c pc').clients c = pc' := Function.update_self _ _ _
theorem client_ne {d : ℕ} (h : d ≠ c) : (s.client c pc').clients d = s.clients d := Function.update_of_ne h _ _

end Fields

/-- What is left of a task when it ends with `r`. -/
def EndsWith (s : Pool σ ε) (t : Task σ ε) : Except ε Unit → Prop
  | .ok () => t.body = []
  | .error e => ∃ f rest, t.body = f :: rest ∧ f (s.memory t.call) = .error e

/-- The statements of `worker`, one by one. -/
inductive WorkerStep (s : Pool σ ε) (i pick : ℕ) : Pool σ ε → Prop
  | enter : s.workers i = .top → s.running = true → WorkerStep s i pick (s.worker i .locking)
  | exit : s.workers i = .top → s.running = false → WorkerStep s i pick (s.worker i .exited)
  | lock : s.workers i = .locking → s.tasksMutex = none →
    WorkerStep s i pick ({ s with tasksMutex := some (.worker i) }.worker i .testing)
  | pass : s.workers i = .testing → (s.tasks ≠ [] ∨ s.running = false) →
    WorkerStep s i pick (s.worker i .checking)
  | fail : s.workers i = .testing → s.tasks = [] → s.running = true →
    WorkerStep s i pick (s.worker i .parking)
  | park : s.workers i = .parking → WorkerStep s i pick ({ s with
      tasksMutex := none, taskAvailableCv := i :: s.taskAvailableCv }.worker i .blocked)
  | wake : s.workers i = .blocked → i ∉ s.taskAvailableCv → s.tasksMutex = none →
    WorkerStep s i pick ({ s with tasksMutex := some (.worker i) }.worker i .testing)
  | goOn : s.workers i = .checking → s.running = true → WorkerStep s i pick (s.worker i .checkingPaused)
  | stop : s.workers i = .checking → s.running = false → WorkerStep s i pick (s.worker i .leaving)
  | start : s.workers i = .checkingPaused → s.paused = false → WorkerStep s i pick (s.worker i .taking)
  | hold : s.workers i = .checkingPaused → s.paused = true → WorkerStep s i pick (s.worker i .leaving)
  | crash : s.workers i = .taking → s.tasks = [] → WorkerStep s i pick { s with crashed := true }
  | take (t : Task σ ε) (tasks : List (Task σ ε)) : s.workers i = .taking → s.tasks = t :: tasks →
    WorkerStep s i pick ({ s with tasks := tasks, tasksMutex := none }.worker i (.working t))
  | execute (t : Task σ ε) (f : σ → Except ε σ) (rest : List (σ → Except ε σ)) (m : σ) :
    s.workers i = .working t → t.body = f :: rest → f (s.memory t.call) = .ok m →
    WorkerStep s i pick ({ s with
      memory := Function.update s.memory t.call m }.worker i (.working ⟨t.call, t.index, rest⟩))
  | settle (t : Task σ ε) (r : Except ε Unit) : s.workers i = .working t → EndsWith s t r →
    WorkerStep s i pick ({ s with promises := Function.update s.promises t.id (some r) }.worker i .finished)
  | relock : s.workers i = .finished → s.tasksMutex = none →
    WorkerStep s i pick ({ s with tasksMutex := some (.worker i) }.worker i .counting)
  | count : s.workers i = .counting →
    WorkerStep s i pick ({ s with tasksTotal := s.tasksTotal - 1 }.worker i .counted)
  | awaited : s.workers i = .counted → s.waiting = true → WorkerStep s i pick (s.worker i .notifying)
  | unawaited : s.workers i = .counted → s.waiting = false → WorkerStep s i pick (s.worker i .leaving)
  | notify : s.workers i = .notifying →
    WorkerStep s i pick ({ s with taskDoneCv := notifyOne s.taskDoneCv pick }.worker i .leaving)
  | leave : s.workers i = .leaving →
    WorkerStep s i pick ({ s with tasksMutex := none }.worker i .top)

theorem workerStep_of_stepWorker {s s' : Pool σ ε} {i pick : ℕ} (h : stepWorker s i pick = some s') :
    WorkerStep s i pick s' := by
  unfold stepWorker at h
  cases hpc : s.workers i with
  | top =>
    simp only [hpc, Option.some.injEq] at h
    cases hrun : s.running with
    | true => exact h ▸ by rw [hrun]; exact .enter hpc hrun
    | false => exact h ▸ by rw [hrun]; exact .exit hpc hrun
  | locking =>
    simp only [hpc] at h
    split at h
    · rename_i hfree
      exact Option.some.inj h ▸ .lock hpc hfree
    · cases h
  | testing =>
    simp only [hpc, Option.some.injEq] at h
    split at h
    · rename_i hpred
      refine h ▸ .pass hpc ?_
      simpa using hpred
    · rename_i hpred
      simp only [Bool.or_eq_true, Bool.not_eq_true', not_or, Bool.not_eq_false, List.isEmpty_iff] at hpred
      exact h ▸ .fail hpc hpred.1 hpred.2
  | parking =>
    simp only [hpc, Option.some.injEq] at h
    exact h ▸ .park hpc
  | blocked =>
    simp only [hpc] at h
    split at h
    · rename_i hwake
      exact Option.some.inj h ▸ .wake hpc hwake.1 hwake.2
    · cases h
  | checking =>
    simp only [hpc, Option.some.injEq] at h
    cases hrun : s.running with
    | true => exact h ▸ by rw [hrun]; exact .goOn hpc hrun
    | false => exact h ▸ by rw [hrun]; exact .stop hpc hrun
  | checkingPaused =>
    simp only [hpc, Option.some.injEq] at h
    cases hp : s.paused with
    | true => exact h ▸ by rw [hp]; exact .hold hpc hp
    | false => exact h ▸ by rw [hp]; exact .start hpc hp
  | taking =>
    simp only [hpc] at h
    split at h
    · rename_i hnil
      exact Option.some.inj h ▸ .crash hpc hnil
    · rename_i t tasks hcons
      exact Option.some.inj h ▸ .take t tasks hpc hcons
  | working t =>
    simp only [hpc] at h
    split at h
    · rename_i hnil
      exact Option.some.inj h ▸ .settle t (.ok ()) hpc hnil
    · rename_i f rest hcons
      split at h
      · rename_i m hm
        exact Option.some.inj h ▸ .execute t f rest m hpc hcons hm
      · rename_i e he
        have hends : EndsWith s t (.error e) := ⟨f, rest, hcons, he⟩
        exact Option.some.inj h ▸ .settle t (.error e) hpc hends
  | finished =>
    simp only [hpc] at h
    split at h
    · rename_i hfree
      exact Option.some.inj h ▸ .relock hpc hfree
    · cases h
  | counting =>
    simp only [hpc, Option.some.injEq] at h
    exact h ▸ .count hpc
  | counted =>
    simp only [hpc, Option.some.injEq] at h
    cases hw : s.waiting with
    | true => exact h ▸ by rw [hw]; exact .awaited hpc hw
    | false => exact h ▸ by rw [hw]; exact .unawaited hpc hw
  | notifying =>
    simp only [hpc, Option.some.injEq] at h
    exact h ▸ .notify hpc
  | leaving =>
    simp only [hpc, Option.some.injEq] at h
    exact h ▸ .leave hpc
  | exited =>
    simp only [hpc] at h
    cases h

/-- The statements of `submit`, `get`, `wait_for_tasks` and the destructor, one by one. -/
inductive ClientStep (n : ℕ) (s : Pool σ ε) (c pick : ℕ) : Pool σ ε → Prop
  | push (b : Batch σ ε) (k : ℕ) (body : List (σ → Except ε σ)) : s.clients c = .submitting b k →
    b.bodies[k]? = some body → s.tasksMutex = none →
    ClientStep n s c pick ({ s with tasks := s.tasks ++ [Task.mk c k body] }.client c (.pushed b k))
  | submitted (b : Batch σ ε) (k : ℕ) : s.clients c = .submitting b k → b.bodies[k]? = none →
    ClientStep n s c pick (s.client c (.getting b 0))
  | count (b : Batch σ ε) (k : ℕ) : s.clients c = .pushed b k →
    ClientStep n s c pick ({ s with tasksTotal := s.tasksTotal + 1 }.client c (.announcing b k))
  | announce (b : Batch σ ε) (k : ℕ) : s.clients c = .announcing b k →
    ClientStep n s c pick ({ s with
      taskAvailableCv := notifyOne s.taskAvailableCv pick }.client c (.submitting b (k + 1)))
  | get (b : Batch σ ε) (k : ℕ) : s.clients c = .getting b k → k < b.bodies.length →
    s.promises (c, k) = some (.ok ()) → ClientStep n s c pick (s.client c (.getting b (k + 1)))
  | rethrow (b : Batch σ ε) (k : ℕ) (e : ε) : s.clients c = .getting b k → k < b.bodies.length →
    s.promises (c, k) = some (.error e) → ClientStep n s c pick (s.client c (.returned b (.error e)))
  | gotAll (b : Batch σ ε) (k : ℕ) : s.clients c = .getting b k → b.bodies.length ≤ k →
    ClientStep n s c pick (s.client c (.returned b (.ok ())))
  | setWaiting (d : Bool) : s.clients c = .waitEntered d →
    ClientStep n s c pick ({ s with waiting := true }.client c (.waitLocking d))
  | waitLock (d : Bool) : s.clients c = .waitLocking d → s.tasksMutex = none →
    ClientStep n s c pick ({ s with tasksMutex := some (.client c) }.client c (.waitTesting d))
  | waitPass (d : Bool) : s.clients c = .waitTesting d →
    s.tasksTotal = (if s.paused then BitVec.ofNat 64 s.tasks.length else 0) →
    ClientStep n s c pick (s.client c (.waitOver d))
  | waitFail (d : Bool) : s.clients c = .waitTesting d →
    s.tasksTotal ≠ (if s.paused then BitVec.ofNat 64 s.tasks.length else 0) →
    ClientStep n s c pick (s.client c (.waitParking d))
  | waitPark (d : Bool) : s.clients c = .waitParking d → ClientStep n s c pick ({ s with
      tasksMutex := none, taskDoneCv := c :: s.taskDoneCv }.client c (.waitBlocked d))
  | waitWake (d : Bool) : s.clients c = .waitBlocked d → c ∉ s.taskDoneCv → s.tasksMutex = none →
    ClientStep n s c pick ({ s with tasksMutex := some (.client c) }.client c (.waitTesting d))
  | unsetWaiting (d : Bool) : s.clients c = .waitOver d →
    ClientStep n s c pick ({ s with waiting := false }.client c (.waitLeaving d))
  | waitLeave (d : Bool) : s.clients c = .waitLeaving d → ClientStep n s c pick
      ({ s with tasksMutex := none }.client c (if d then .stopping else .waited))
  | stop : s.clients c = .stopping →
    ClientStep n s c pick ({ s with running := false }.client c .stopped)
  | notifyAll : s.clients c = .stopped →
    ClientStep n s c pick ({ s with taskAvailableCv := [] }.client c (.joining 0))
  | join (k : ℕ) : s.clients c = .joining k → k < n → s.workers k = .exited →
    ClientStep n s c pick (s.client c (.joining (k + 1)))
  | joined (k : ℕ) : s.clients c = .joining k → n ≤ k → ClientStep n s c pick (s.client c .destroyed)

theorem clientStep_of_stepClient {n : ℕ} {s s' : Pool σ ε} {c pick : ℕ}
    (h : stepClient n s c pick = some s') : ClientStep n s c pick s' := by
  unfold stepClient at h
  cases hpc : s.clients c with
  | submitting b k =>
    simp only [hpc] at h
    split at h
    · rename_i hnone
      exact Option.some.inj h ▸ .submitted b k hpc hnone
    · rename_i body hbody
      split at h
      · rename_i hfree
        exact Option.some.inj h ▸ .push b k body hpc hbody hfree
      · cases h
  | pushed b k =>
    simp only [hpc, Option.some.injEq] at h
    exact h ▸ .count b k hpc
  | announcing b k =>
    simp only [hpc, Option.some.injEq] at h
    exact h ▸ .announce b k hpc
  | getting b k =>
    simp only [hpc] at h
    split at h
    · rename_i hlt
      split at h
      · cases h
      · rename_i hok
        exact Option.some.inj h ▸ .get b k hpc hlt hok
      · rename_i e herr
        exact Option.some.inj h ▸ .rethrow b k e hpc hlt herr
    · rename_i hge
      exact Option.some.inj h ▸ .gotAll b k hpc (Nat.not_lt.mp hge)
  | waitEntered d =>
    simp only [hpc, Option.some.injEq] at h
    exact h ▸ .setWaiting d hpc
  | waitLocking d =>
    simp only [hpc] at h
    split at h
    · rename_i hfree
      exact Option.some.inj h ▸ .waitLock d hpc hfree
    · cases h
  | waitTesting d =>
    simp only [hpc, Option.some.injEq] at h
    subst h
    by_cases htest : s.tasksTotal = if s.paused then BitVec.ofNat 64 s.tasks.length else 0
    · rw [if_pos htest]
      exact .waitPass d hpc htest
    · rw [if_neg htest]
      exact .waitFail d hpc htest
  | waitParking d =>
    simp only [hpc, Option.some.injEq] at h
    exact h ▸ .waitPark d hpc
  | waitBlocked d =>
    simp only [hpc] at h
    split at h
    · rename_i hwake
      exact Option.some.inj h ▸ .waitWake d hpc hwake.1 hwake.2
    · cases h
  | waitOver d =>
    simp only [hpc, Option.some.injEq] at h
    exact h ▸ .unsetWaiting d hpc
  | waitLeaving d =>
    simp only [hpc, Option.some.injEq] at h
    exact h ▸ .waitLeave d hpc
  | stopping =>
    simp only [hpc, Option.some.injEq] at h
    exact h ▸ .stop hpc
  | stopped =>
    simp only [hpc, Option.some.injEq] at h
    exact h ▸ .notifyAll hpc
  | joining k =>
    simp only [hpc] at h
    split at h
    · rename_i hlt
      split at h
      · rename_i hexited
        exact Option.some.inj h ▸ .join k hpc hlt hexited
      · cases h
    · rename_i hge
      exact Option.some.inj h ▸ .joined k hpc (Nat.not_lt.mp hge)
  | idle => simp only [hpc] at h; cases h
  | returned b r => simp only [hpc] at h; cases h
  | waited => simp only [hpc] at h; cases h
  | destroyed => simp only [hpc] at h; cases h

/-- The steps of the system, action by action. -/
inductive NextStep (n : ℕ) (s : Pool σ ε) : Act σ ε → Pool σ ε → Prop
  | batch (c : ℕ) (b : Batch σ ε) : s.clients c = .idle → NextStep n s (.batch c b)
      ({ s with memory := Function.update s.memory c b.init }.client c (.submitting b 0))
  | waitForTasks (c : ℕ) : s.clients c = .idle →
    NextStep n s (.waitForTasks c) (s.client c (.waitEntered false))
  | destroy (c : ℕ) : s.clients c = .idle → NextStep n s (.destroy c) (s.client c (.waitEntered true))
  | pause : NextStep n s .pause { s with paused := true }
  | unpause : NextStep n s .unpause { s with paused := false }
  | client (c pick : ℕ) (s' : Pool σ ε) : ClientStep n s c pick s' → NextStep n s (.client c pick) s'
  | worker (i pick : ℕ) (s' : Pool σ ε) : i < n → WorkerStep s i pick s' → NextStep n s (.worker i pick) s'
  | spuriousWorker (pick : ℕ) : NextStep n s (.spuriousWorker pick)
      { s with taskAvailableCv := s.taskAvailableCv.eraseIdx pick }
  | spuriousClient (pick : ℕ) : NextStep n s (.spuriousClient pick)
      { s with taskDoneCv := s.taskDoneCv.eraseIdx pick }

theorem nextStep_of_next {n : ℕ} {s s' : Pool σ ε} {a : Act σ ε} (h : next n s a = some s') :
    NextStep n s a s' := by
  cases a with
  | batch c b =>
    simp only [next] at h
    split at h
    · rename_i hidle
      exact Option.some.inj h ▸ .batch c b hidle
    · cases h
  | waitForTasks c =>
    simp only [next] at h
    split at h
    · rename_i hidle
      exact Option.some.inj h ▸ .waitForTasks c hidle
    · cases h
  | destroy c =>
    simp only [next] at h
    split at h
    · rename_i hidle
      exact Option.some.inj h ▸ .destroy c hidle
    · cases h
  | pause => exact Option.some.inj h ▸ .pause
  | unpause => exact Option.some.inj h ▸ .unpause
  | client c pick => exact .client c pick s' (clientStep_of_stepClient h)
  | worker i pick =>
    simp only [next] at h
    split at h
    · rename_i hi
      exact .worker i pick s' hi (workerStep_of_stepWorker h)
    · cases h
  | spuriousWorker pick => exact Option.some.inj h ▸ .spuriousWorker pick
  | spuriousClient pick => exact Option.some.inj h ▸ .spuriousClient pick

/-! ### The mutex -/

def Pool.holding (s : Pool σ ε) : Thread → Bool
  | .worker i => (s.workers i).holds
  | .client c => (s.clients c).holds

/-- The owner of `tasks_mutex` is the thread that is in a critical section. -/
def Held (s : Pool σ ε) : Prop := ∀ t, s.holding t = true ↔ s.tasksMutex = some t

theorem holding_worker (s : Pool σ ε) (i : ℕ) (pc : Worker σ ε) :
    (s.worker i pc).holding = Function.update s.holding (.worker i) pc.holds := by
  funext t
  cases t with
  | worker j =>
    by_cases hj : j = i
    · subst hj
      simp [Pool.holding]
    · rw [Function.update_of_ne fun h => hj (Thread.worker.inj h)]
      simp [Pool.holding, worker_ne s i pc hj]
  | client c =>
    rw [Function.update_of_ne fun h => Thread.noConfusion h]
    rfl

theorem holding_client (s : Pool σ ε) (c : ℕ) (pc : Client σ ε) :
    (s.client c pc).holding = Function.update s.holding (.client c) pc.holds := by
  funext t
  cases t with
  | worker i =>
    rw [Function.update_of_ne fun h => Thread.noConfusion h]
    rfl
  | client d =>
    by_cases hd : d = c
    · subst hd
      simp [Pool.holding]
    · rw [Function.update_of_ne fun h => hd (Thread.client.inj h)]
      simp [Pool.holding, client_ne s c pc hd]

section Mutex

variable {s s' : Pool σ ε} {t : Thread} {b : Bool}

/-- A thread moves within its critical section, or outside of one. -/
theorem Held.keep (hH : Held s) (hs : s'.holding = Function.update s.holding t b)
    (hm : s'.tasksMutex = s.tasksMutex) (hb : b = s.holding t) : Held s' := by
  intro u
  rw [hs, hm, hb, Function.update_eq_self]
  exact hH u

/-- A thread locks the mutex. -/
theorem Held.acquire (hH : Held s) (hs : s'.holding = Function.update s.holding t true)
    (hfree : s.tasksMutex = none) (hm : s'.tasksMutex = some t) : Held s' := by
  intro u
  rw [hs, hm]
  by_cases hu : u = t
  · subst hu
    simp
  · have hnot := hH u
    rw [hfree] at hnot
    rw [Function.update_of_ne hu, hnot]
    simp [Ne.symm hu]

/-- A thread unlocks the mutex. -/
theorem Held.release (hH : Held s) (hs : s'.holding = Function.update s.holding t false)
    (hheld : s.holding t = true) (hm : s'.tasksMutex = none) : Held s' := by
  intro u
  rw [hs, hm]
  by_cases hu : u = t
  · subst hu
    simp
  · have howner := (hH t).mp hheld
    have hnot := hH u
    rw [howner] at hnot
    rw [Function.update_of_ne hu, hnot]
    simp [Ne.symm hu]

/-- Two threads are not in critical sections at once. -/
theorem Held.unique (hH : Held s) {t u : Thread} (ht : s.holding t = true) (hu : s.holding u = true) :
    t = u := by
  have h := ((hH t).mp ht).symm.trans ((hH u).mp hu)
  exact Option.some.inj h

theorem Held.free (hH : Held s) (h : s.tasksMutex = none) (t : Thread) : s.holding t = false := by
  have := hH t
  rw [h] at this
  simpa using this

end Mutex

theorem held_workerStep {s s' : Pool σ ε} {i pick : ℕ} (hH : Held s) (h : WorkerStep s i pick s') : Held s' := by
  have hin : ∀ pc, s.workers i = pc → s.holding (.worker i) = pc.holds := fun pc h => congrArg Worker.holds h
  cases h with
  | enter hpc => exact hH.keep (holding_worker _ _ _) rfl (hin _ hpc).symm
  | exit hpc => exact hH.keep (holding_worker _ _ _) rfl (hin _ hpc).symm
  | lock hpc hfree => exact hH.acquire (holding_worker _ _ _) hfree rfl
  | pass hpc => exact hH.keep (holding_worker _ _ _) rfl (hin _ hpc).symm
  | fail hpc => exact hH.keep (holding_worker _ _ _) rfl (hin _ hpc).symm
  | park hpc => exact hH.release (holding_worker _ _ _) (hin _ hpc) rfl
  | wake hpc _ hfree => exact hH.acquire (holding_worker _ _ _) hfree rfl
  | goOn hpc => exact hH.keep (holding_worker _ _ _) rfl (hin _ hpc).symm
  | stop hpc => exact hH.keep (holding_worker _ _ _) rfl (hin _ hpc).symm
  | start hpc => exact hH.keep (holding_worker _ _ _) rfl (hin _ hpc).symm
  | hold hpc => exact hH.keep (holding_worker _ _ _) rfl (hin _ hpc).symm
  | crash => exact hH
  | take t tasks hpc => exact hH.release (holding_worker _ _ _) (hin _ hpc) rfl
  | execute t f rest m hpc => exact hH.keep (holding_worker _ _ _) rfl (hin _ hpc).symm
  | settle t r hpc => exact hH.keep (holding_worker _ _ _) rfl (hin _ hpc).symm
  | relock hpc hfree => exact hH.acquire (holding_worker _ _ _) hfree rfl
  | count hpc => exact hH.keep (holding_worker _ _ _) rfl (hin _ hpc).symm
  | awaited hpc => exact hH.keep (holding_worker _ _ _) rfl (hin _ hpc).symm
  | unawaited hpc => exact hH.keep (holding_worker _ _ _) rfl (hin _ hpc).symm
  | notify hpc => exact hH.keep (holding_worker _ _ _) rfl (hin _ hpc).symm
  | leave hpc => exact hH.release (holding_worker _ _ _) (hin _ hpc) rfl

theorem held_clientStep {n : ℕ} {s s' : Pool σ ε} {c pick : ℕ} (hH : Held s)
    (h : ClientStep n s c pick s') : Held s' := by
  have hin : ∀ pc, s.clients c = pc → s.holding (.client c) = pc.holds := fun pc h => congrArg Client.holds h
  cases h with
  | push b k body hpc => exact hH.keep (holding_client _ _ _) rfl (hin _ hpc).symm
  | submitted b k hpc => exact hH.keep (holding_client _ _ _) rfl (hin _ hpc).symm
  | count b k hpc => exact hH.keep (holding_client _ _ _) rfl (hin _ hpc).symm
  | announce b k hpc => exact hH.keep (holding_client _ _ _) rfl (hin _ hpc).symm
  | get b k hpc => exact hH.keep (holding_client _ _ _) rfl (hin _ hpc).symm
  | rethrow b k e hpc => exact hH.keep (holding_client _ _ _) rfl (hin _ hpc).symm
  | gotAll b k hpc => exact hH.keep (holding_client _ _ _) rfl (hin _ hpc).symm
  | setWaiting d hpc => exact hH.keep (holding_client _ _ _) rfl (hin _ hpc).symm
  | waitLock d hpc hfree => exact hH.acquire (holding_client _ _ _) hfree rfl
  | waitPass d hpc => exact hH.keep (holding_client _ _ _) rfl (hin _ hpc).symm
  | waitFail d hpc => exact hH.keep (holding_client _ _ _) rfl (hin _ hpc).symm
  | waitPark d hpc => exact hH.release (holding_client _ _ _) (hin _ hpc) rfl
  | waitWake d hpc _ hfree => exact hH.acquire (holding_client _ _ _) hfree rfl
  | unsetWaiting d hpc => exact hH.keep (holding_client _ _ _) rfl (hin _ hpc).symm
  | waitLeave d hpc =>
    refine hH.release (t := .client c) ?_ (hin _ hpc) rfl
    cases d <;> exact holding_client _ _ _
  | stop hpc => exact hH.keep (holding_client _ _ _) rfl (hin _ hpc).symm
  | notifyAll hpc => exact hH.keep (holding_client _ _ _) rfl (hin _ hpc).symm
  | join k hpc => exact hH.keep (holding_client _ _ _) rfl (hin _ hpc).symm
  | joined k hpc => exact hH.keep (holding_client _ _ _) rfl (hin _ hpc).symm

theorem held_next {n : ℕ} {s s' : Pool σ ε} {a : Act σ ε} (hH : Held s) (h : next n s a = some s') :
    Held s' := by
  have hin : ∀ c, s.clients c = .idle → s.holding (.client c) = false := fun c h => congrArg Client.holds h
  cases nextStep_of_next h with
  | batch c b hidle => exact hH.keep (holding_client _ _ _) rfl (hin c hidle).symm
  | waitForTasks c hidle => exact hH.keep (holding_client _ _ _) rfl (hin c hidle).symm
  | destroy c hidle => exact hH.keep (holding_client _ _ _) rfl (hin c hidle).symm
  | pause => exact hH
  | unpause => exact hH
  | client c pick _ hstep => exact held_clientStep hH hstep
  | worker i pick _ _ hstep => exact held_workerStep hH hstep
  | spuriousWorker pick => exact hH
  | spuriousClient pick => exact hH

theorem held_run {n : ℕ} {memory : ℕ → σ} {acts : List (Act σ ε)} {s : Pool σ ε}
    (h : run (next n) (initial memory) acts = some s) : Held s := by
  refine run_keeps (next n) Held ?_ (fun s a s' hH ha => held_next hH ha) h
  rintro (i | c) <;> simp [Pool.holding, initial, Worker.holds, Client.holds]

/-! ### The pool is a work queue -/

def Worker.task : Worker σ ε → Option (Task σ ε)
  | .working t => some t
  | _ => none

/-- The bodies of a call that are in the queue or beyond. -/
def Client.submitted (pc : Client σ ε) : List (List (σ → Except ε σ)) :=
  match pc.batch with
  | some (b, k) => b.bodies.take k
  | none => []

/-- The memory that the call has set up. -/
def Client.init (pc : Client σ ε) : Option σ := pc.batch.map fun x => x.1.init

def toWorkQueue (s : Pool σ ε) : WorkQueue σ ε where
  queue := s.tasks
  working := fun i => (s.workers i).task
  outcome := s.promises
  start := fun c => (s.clients c).init.getD (s.memory c)
  memory := s.memory
  submitted := fun c => (s.clients c).submitted

/-- What a step is for the work queue. -/
def queueActs (s : Pool σ ε) : Act σ ε → List (WorkQueue.Act σ ε)
  | .batch c b => [.begin c b.init]
  | .client c _ =>
    match s.clients c with
    | .submitting b k => (b.bodies[k]?.map (WorkQueue.Act.push c)).toList
    | _ => []
  | .worker i _ =>
    match s.workers i with
    | .taking => if s.tasks.isEmpty then [] else [.take i]
    | .working _ => [.step i]
    | _ => []
  | _ => []

section Refinement

variable {s s' : Pool σ ε}

/-- What a worker does is to the queue what it does with its task. -/
theorem toWorkQueue_moved (i : ℕ) (pc : Worker σ ε) : toWorkQueue (s.worker i pc) =
    { toWorkQueue s with working := Function.update (toWorkQueue s).working i pc.task } := by
  have hw : (fun j => ((s.worker i pc).workers j).task) =
      Function.update (fun j => (s.workers j).task) i pc.task := by
    funext j
    by_cases hj : j = i
    · subst hj
      simp
    · rw [Function.update_of_ne hj, worker_ne s i pc hj]
  show WorkQueue.mk _ (fun j => ((s.worker i pc).workers j).task) _ _ _ _ = _
  rw [hw]
  rfl

/-- A worker moves outside of `task()`. -/
theorem toWorkQueue_worker {i : ℕ} {pc : Worker σ ε} (h : pc.task = (s.workers i).task) :
    toWorkQueue (s.worker i pc) = toWorkQueue s := by
  rw [toWorkQueue_moved, h, show (s.workers i).task = (toWorkQueue s).working i from rfl,
    Function.update_eq_self]

/-- A function of what each thread does, when one of them has moved. -/
theorem clients_update {τ : Type} (f : Client σ ε → τ) (c : ℕ) (pc : Client σ ε) :
    (fun d => f ((s.client c pc).clients d)) = Function.update (fun d => f (s.clients d)) c (f pc) := by
  funext d
  by_cases hd : d = c
  · subst hd
    simp
  · rw [Function.update_of_ne hd, client_ne s c pc hd]

/-- What a call does is to the queue what it submits. -/
theorem toWorkQueue_submits {c : ℕ} {pc : Client σ ε} (hi : pc.init = (s.clients c).init) :
    toWorkQueue (s.client c pc) = { toWorkQueue s with
      submitted := Function.update (toWorkQueue s).submitted c pc.submitted } := by
  have hinit : (fun d => ((s.client c pc).clients d).init) = fun d => (s.clients d).init := by
    rw [clients_update Client.init, hi]
    exact Function.update_eq_self _ _
  show WorkQueue.mk _ _ _ (fun d => ((fun d => ((s.client c pc).clients d).init) d).getD (s.memory d)) _
    (fun d => ((s.client c pc).clients d).submitted) = _
  rw [clients_update Client.submitted, hinit]
  rfl

/-- A thread moves without submitting anything. -/
theorem toWorkQueue_client {c : ℕ} {pc : Client σ ε} (hs : pc.submitted = (s.clients c).submitted)
    (hi : pc.init = (s.clients c).init) : toWorkQueue (s.client c pc) = toWorkQueue s := by
  rw [toWorkQueue_submits hi, hs, show (s.clients c).submitted = (toWorkQueue s).submitted c from rfl,
    Function.update_eq_self]

/-- The call of a task that is being worked on has set up its memory. -/
theorem init_ne_none (hP : (toWorkQueue s).Placed) {i : ℕ} {t : Task σ ε} (h : s.workers i = .working t) :
    (s.clients t.call).init ≠ none := by
  intro hnone
  have hworking : (toWorkQueue s).working i = some t := congrArg Worker.task h
  have hlt : t.index < (s.clients t.call).submitted.length := hP.workingIndex i t hworking
  rw [Client.init, Option.map_eq_none_iff] at hnone
  rw [Client.submitted, hnone] at hlt
  exact Nat.not_lt_zero _ hlt

/-- A statement of a task is one on the memory of the queue. -/
theorem toWorkQueue_memory {c : ℕ} (h : (s.clients c).init ≠ none) (m : σ) :
    toWorkQueue { s with memory := Function.update s.memory c m } =
      { toWorkQueue s with memory := Function.update s.memory c m } := by
  have hstart : (fun d => (s.clients d).init.getD (Function.update s.memory c m d)) =
      fun d => (s.clients d).init.getD (s.memory d) := by
    funext d
    by_cases hd : d = c
    · subst hd
      obtain ⟨v, hv⟩ := Option.ne_none_iff_exists'.mp h
      rw [hv]
      rfl
    · rw [Function.update_of_ne hd]
  show WorkQueue.mk _ _ _ (fun d => (s.clients d).init.getD (Function.update s.memory c m d)) _ _ = _
  rw [hstart]
  rfl

/-- A step of a worker, seen from the work queue. -/
theorem run_workerStep {i pick : ℕ} (hP : (toWorkQueue s).Placed) (h : WorkerStep s i pick s') :
    run WorkQueue.next (toWorkQueue s) (queueActs s (.worker i pick)) = some (toWorkQueue s') := by
  -- a step outside of `task()` is no step of the queue
  have hquiet : ∀ pc, s.workers i = pc → pc.task = none → pc ≠ .taking → toWorkQueue s' = toWorkQueue s →
      run WorkQueue.next (toWorkQueue s) (queueActs s (.worker i pick)) = some (toWorkQueue s') := by
    intro pc hpc hnone hne hsame
    have hacts : queueActs s (.worker i pick) = [] := by
      subst hpc
      cases hw : s.workers i <;> simp only [queueActs, hw]
      · exact absurd hw hne
      · rw [hw] at hnone
        cases hnone
    rw [hacts, hsame]
    rfl
  have hone : ∀ a, queueActs s (.worker i pick) = [a] →
      WorkQueue.next (toWorkQueue s) a = some (toWorkQueue s') →
      run WorkQueue.next (toWorkQueue s) (queueActs s (.worker i pick)) = some (toWorkQueue s') := by
    intro a ha hnext
    rw [ha, run_cons, hnext]
    rfl
  cases h with
  | enter hpc => exact hquiet _ hpc rfl (by simp) (toWorkQueue_worker (by rw [hpc]; rfl))
  | exit hpc => exact hquiet _ hpc rfl (by simp) (toWorkQueue_worker (by rw [hpc]; rfl))
  | lock hpc => exact hquiet _ hpc rfl (by simp) (toWorkQueue_worker (by rw [hpc]; rfl))
  | pass hpc => exact hquiet _ hpc rfl (by simp) (toWorkQueue_worker (by rw [hpc]; rfl))
  | fail hpc => exact hquiet _ hpc rfl (by simp) (toWorkQueue_worker (by rw [hpc]; rfl))
  | park hpc => exact hquiet _ hpc rfl (by simp) (toWorkQueue_worker (by rw [hpc]; rfl))
  | wake hpc => exact hquiet _ hpc rfl (by simp) (toWorkQueue_worker (by rw [hpc]; rfl))
  | goOn hpc => exact hquiet _ hpc rfl (by simp) (toWorkQueue_worker (by rw [hpc]; rfl))
  | stop hpc => exact hquiet _ hpc rfl (by simp) (toWorkQueue_worker (by rw [hpc]; rfl))
  | start hpc => exact hquiet _ hpc rfl (by simp) (toWorkQueue_worker (by rw [hpc]; rfl))
  | hold hpc => exact hquiet _ hpc rfl (by simp) (toWorkQueue_worker (by rw [hpc]; rfl))
  | relock hpc => exact hquiet _ hpc rfl (by simp) (toWorkQueue_worker (by rw [hpc]; rfl))
  | count hpc => exact hquiet _ hpc rfl (by simp) (toWorkQueue_worker (by rw [hpc]; rfl))
  | awaited hpc => exact hquiet _ hpc rfl (by simp) (toWorkQueue_worker (by rw [hpc]; rfl))
  | unawaited hpc => exact hquiet _ hpc rfl (by simp) (toWorkQueue_worker (by rw [hpc]; rfl))
  | notify hpc => exact hquiet _ hpc rfl (by simp) (toWorkQueue_worker (by rw [hpc]; rfl))
  | leave hpc => exact hquiet _ hpc rfl (by simp) (toWorkQueue_worker (by rw [hpc]; rfl))
  | crash hpc hnil =>
    have hacts : queueActs s (.worker i pick) = [] := by simp [queueActs, hpc, hnil]
    rw [hacts]
    rfl
  | take t tasks hpc hcons =>
    have hidle : (toWorkQueue s).working i = none := congrArg Worker.task hpc
    have hqueue : (toWorkQueue s).queue = t :: tasks := hcons
    refine hone (.take i) (by simp [queueActs, hpc, hcons]) ?_
    rw [toWorkQueue_moved]
    simp only [WorkQueue.next, hidle, hqueue]
    rfl
  | execute t f rest m hpc hbody hf =>
    have hworking : (toWorkQueue s).working i = some t := congrArg Worker.task hpc
    refine hone (.step i) (by simp [queueActs, hpc]) ?_
    rw [toWorkQueue_moved, toWorkQueue_memory (init_ne_none hP hpc)]
    simp only [WorkQueue.next, hworking, Option.map_some, WorkQueue.execute, hbody,
      show (toWorkQueue s).memory t.call = s.memory t.call from rfl, hf]
    rfl
  | settle t r hpc hends =>
    have hworking : (toWorkQueue s).working i = some t := congrArg Worker.task hpc
    refine hone (.step i) (by simp [queueActs, hpc]) ?_
    rw [toWorkQueue_moved]
    cases r with
    | ok u =>
      have hbody : t.body = [] := hends
      simp only [WorkQueue.next, hworking, Option.map_some, WorkQueue.execute, hbody]
      rfl
    | error e =>
      obtain ⟨f, rest, hbody, hf⟩ := hends
      simp only [WorkQueue.next, hworking, Option.map_some, WorkQueue.execute, hbody,
        show (toWorkQueue s).memory t.call = s.memory t.call from rfl, hf]
      rfl

/-- A step of another thread. -/
theorem run_clientStep {n c pick : ℕ} (h : ClientStep n s c pick s') :
    run WorkQueue.next (toWorkQueue s) (queueActs s (.client c pick)) = some (toWorkQueue s') := by
  have hquiet : (∀ b k, s.clients c ≠ .submitting b k) → toWorkQueue s' = toWorkQueue s →
      run WorkQueue.next (toWorkQueue s) (queueActs s (.client c pick)) = some (toWorkQueue s') := by
    intro hne hsame
    have hacts : queueActs s (.client c pick) = [] := by
      cases hw : s.clients c <;> simp only [queueActs, hw]
      exact absurd hw (hne _ _)
    rw [hacts, hsame]
    rfl
  cases h with
  | push b k body hpc hbody hfree =>
    have hlt : k < b.bodies.length := (List.getElem?_eq_some_iff.mp hbody).1
    have hsub : (toWorkQueue s).submitted c = b.bodies.take k := congrArg Client.submitted hpc
    have hacts : queueActs s (.client c pick) = [.push c body] := by simp [queueActs, hpc, hbody]
    have htake : (Client.pushed b k : Client σ ε).submitted = b.bodies.take k ++ [body] := by
      show b.bodies.take (k + 1) = _
      rw [List.take_add_one, hbody]
      rfl
    rw [hacts, run_cons, toWorkQueue_submits (by rw [hpc]; rfl), htake]
    simp only [WorkQueue.next, hsub, List.length_take, Nat.min_eq_left hlt.le]
    rfl
  | submitted b k hpc hbody =>
    have hle : b.bodies.length ≤ k := List.getElem?_eq_none_iff.mp hbody
    have hacts : queueActs s (.client c pick) = [] := by simp [queueActs, hpc, hbody]
    have hsame : (Client.getting b 0 : Client σ ε).submitted = (s.clients c).submitted := by
      rw [hpc]
      show b.bodies.take b.bodies.length = b.bodies.take k
      rw [List.take_length, List.take_of_length_le hle]
    rw [hacts, toWorkQueue_client hsame (by rw [hpc]; rfl)]
    rfl
  | count b k hpc => exact hquiet (by simp [hpc]) (toWorkQueue_client (by rw [hpc]; rfl) (by rw [hpc]; rfl))
  | announce b k hpc => exact hquiet (by simp [hpc]) (toWorkQueue_client (by rw [hpc]; rfl) (by rw [hpc]; rfl))
  | get b k hpc => exact hquiet (by simp [hpc]) (toWorkQueue_client (by rw [hpc]; rfl) (by rw [hpc]; rfl))
  | rethrow b k e hpc => exact hquiet (by simp [hpc]) (toWorkQueue_client (by rw [hpc]; rfl) (by rw [hpc]; rfl))
  | gotAll b k hpc => exact hquiet (by simp [hpc]) (toWorkQueue_client (by rw [hpc]; rfl) (by rw [hpc]; rfl))
  | setWaiting d hpc => exact hquiet (by simp [hpc]) (toWorkQueue_client (by rw [hpc]; rfl) (by rw [hpc]; rfl))
  | waitLock d hpc => exact hquiet (by simp [hpc]) (toWorkQueue_client (by rw [hpc]; rfl) (by rw [hpc]; rfl))
  | waitPass d hpc => exact hquiet (by simp [hpc]) (toWorkQueue_client (by rw [hpc]; rfl) (by rw [hpc]; rfl))
  | waitFail d hpc => exact hquiet (by simp [hpc]) (toWorkQueue_client (by rw [hpc]; rfl) (by rw [hpc]; rfl))
  | waitPark d hpc => exact hquiet (by simp [hpc]) (toWorkQueue_client (by rw [hpc]; rfl) (by rw [hpc]; rfl))
  | waitWake d hpc => exact hquiet (by simp [hpc]) (toWorkQueue_client (by rw [hpc]; rfl) (by rw [hpc]; rfl))
  | unsetWaiting d hpc => exact hquiet (by simp [hpc]) (toWorkQueue_client (by rw [hpc]; rfl) (by rw [hpc]; rfl))
  | waitLeave d hpc =>
    exact hquiet (by simp [hpc]) (toWorkQueue_client (by rw [hpc]; cases d <;> rfl) (by rw [hpc]; cases d <;> rfl))
  | stop hpc => exact hquiet (by simp [hpc]) (toWorkQueue_client (by rw [hpc]; rfl) (by rw [hpc]; rfl))
  | notifyAll hpc => exact hquiet (by simp [hpc]) (toWorkQueue_client (by rw [hpc]; rfl) (by rw [hpc]; rfl))
  | join k hpc => exact hquiet (by simp [hpc]) (toWorkQueue_client (by rw [hpc]; rfl) (by rw [hpc]; rfl))
  | joined k hpc => exact hquiet (by simp [hpc]) (toWorkQueue_client (by rw [hpc]; rfl) (by rw [hpc]; rfl))

/-- A call sets up its memory. -/
theorem run_batch {c : ℕ} {b : Batch σ ε} (hidle : s.clients c = .idle) :
    run WorkQueue.next (toWorkQueue s) (queueActs s (.batch c b)) =
      some (toWorkQueue ({ s with memory := Function.update s.memory c b.init }.client c (.submitting b 0))) := by
  have hsub : (toWorkQueue s).submitted c = [] := congrArg Client.submitted hidle
  rw [queueActs, run_cons, WorkQueue.next, hsub]
  refine congrArg some (WorkQueue.ext rfl rfl rfl (funext fun d => ?_) rfl (funext fun d => ?_))
  · show Function.update (toWorkQueue s).start c b.init d = Option.getD (Client.init (Function.update s.clients c
      (.submitting b 0) d)) (Function.update s.memory c b.init d)
    by_cases hd : d = c
    · subst hd
      simp only [Function.update_self]
      rfl
    · simp only [Function.update_of_ne hd]
      rfl
  · show (s.clients d).submitted = Client.submitted (Function.update s.clients c (.submitting b 0) d)
    by_cases hd : d = c
    · subst hd
      rw [Function.update_self]
      exact hsub
    · rw [Function.update_of_ne hd]

theorem run_next {n : ℕ} {a : Act σ ε} (hP : (toWorkQueue s).Placed) (h : next n s a = some s') :
    run WorkQueue.next (toWorkQueue s) (queueActs s a) = some (toWorkQueue s') := by
  cases nextStep_of_next h with
  | batch c b hidle => exact run_batch hidle
  | waitForTasks c hidle =>
    rw [toWorkQueue_client (by rw [hidle]; rfl) (by rw [hidle]; rfl)]
    rfl
  | destroy c hidle =>
    rw [toWorkQueue_client (by rw [hidle]; rfl) (by rw [hidle]; rfl)]
    rfl
  | pause => rfl
  | unpause => rfl
  | client c pick _ hstep => exact run_clientStep hstep
  | worker i pick _ _ hstep => exact run_workerStep hP hstep
  | spuriousWorker pick => rfl
  | spuriousClient pick => rfl

/-- The same, with what it leaves. -/
theorem run_next_placed {n : ℕ} {a : Act σ ε} (hP : (toWorkQueue s).Placed) (h : next n s a = some s') :
    run WorkQueue.next (toWorkQueue s) (queueActs s a) = some (toWorkQueue s') ∧ (toWorkQueue s').Placed := by
  have hrun := run_next hP h
  exact ⟨hrun, run_keeps WorkQueue.next WorkQueue.Placed hP
    (fun _ _ _ hP ha => WorkQueue.placed_next hP ha) hrun⟩

end Refinement

theorem toWorkQueue_initial (memory : ℕ → σ) :
    toWorkQueue (initial memory : Pool σ ε) = WorkQueue.initial memory := rfl

/-- The steps of the work queue in a run of the pool. -/
def queueRun (n : ℕ) (memory : ℕ → σ) (acts : List (Act σ ε)) : List (WorkQueue.Act σ ε) :=
  collect (next n) queueActs (initial memory) acts

/-- A run of the pool is a run of the work queue. -/
theorem run_toWorkQueue {n : ℕ} {memory : ℕ → σ} {acts : List (Act σ ε)} {s : Pool σ ε}
    (h : run (next n) (initial memory) acts = some s) :
    run WorkQueue.next (WorkQueue.initial memory) (queueRun n memory acts) = some (toWorkQueue s) := by
  have hP0 : (toWorkQueue (initial memory : Pool σ ε)).Placed := WorkQueue.placed_initial memory
  rw [queueRun, ← toWorkQueue_initial]
  exact run_simulates (next n) (fun s => (toWorkQueue s).Placed) (fun _ _ _ hP ha => run_next_placed hP ha) hP0 h

end ThreadPool
end Lbl
end Ortoa
