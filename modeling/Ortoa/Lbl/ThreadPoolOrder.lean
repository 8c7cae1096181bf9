/-
# What the pool's queue and its counter say

The tasks are started in the order in which they were submitted, each once,
and no worker takes one from an empty queue (`started_in_order`).

`tasks_total` is incremented after the push, outside of the critical section.
It counts the tasks that are queued or running but for those whose call is
between the two, so it is short by as many as there are such calls, and it
wraps if such a task has already ended (`tasksTotal_eq`). `get_tasks_total`
and `get_tasks_running` are right, and `wait_for_tasks` waits for all tasks,
exactly when there is none (`counters_right_iff`, `wait_returns_iff`).

Key definitions: `submittedTasks`, `startedTasks`, `Ready`, `Counts`.
Key theorems: `started_in_order`, `counts_run`, `counters_right_iff`, `wait_returns_iff`.
-/
import Ortoa.Lbl.ThreadPool
import Mathlib.Data.Finset.Card
import Mathlib.Tactic.Ring

namespace Ortoa
namespace Lbl
namespace ThreadPool

variable {σ ε : Type} {n : ℕ} {memory : ℕ → σ} {acts : List (Act σ ε)} {s s' : Pool σ ε}

/-! ### Exactly once and in order -/

/-- The task that a step pushes. -/
def submittedTasks (s : Pool σ ε) : Act σ ε → List (Task σ ε)
  | .client c _ =>
    match s.clients c with
    | .submitting b k => (b.bodies[k]?.map (Task.mk c k)).toList
    | _ => []
  | _ => []

/-- The task that a step takes out of the queue. -/
def startedTasks (s : Pool σ ε) : Act σ ε → List (Task σ ε)
  | .worker i _ =>
    match s.workers i with
    | .taking => s.tasks.take 1
    | _ => []
  | _ => []

/-- What the pool shows of a step is what the queue shows of it. -/
theorem collect_queueActs (s : Pool σ ε) (a : Act σ ε) :
    collect WorkQueue.next WorkQueue.pushed (toWorkQueue s) (queueActs s a) = submittedTasks s a ∧
      collect WorkQueue.next WorkQueue.taken (toWorkQueue s) (queueActs s a) = startedTasks s a := by
  cases a with
  | batch c b =>
    simp only [queueActs, collect, submittedTasks, startedTasks]
    split <;> exact ⟨rfl, rfl⟩
  | client c pick =>
    cases hpc : s.clients c with
    | submitting b k =>
      cases hbody : b.bodies[k]? with
      | none => simp [queueActs, submittedTasks, startedTasks, hpc, hbody, collect]
      | some body =>
        have hlt : k < b.bodies.length := (List.getElem?_eq_some_iff.mp hbody).1
        have hsub : (toWorkQueue s).submitted c = b.bodies.take k := congrArg Client.submitted hpc
        have hlen : ((toWorkQueue s).submitted c).length = k := by
          rw [hsub, List.length_take, Nat.min_eq_left hlt.le]
        simp [queueActs, submittedTasks, startedTasks, hpc, hbody, collect, WorkQueue.next,
          WorkQueue.pushed, WorkQueue.taken, hlen]
    | _ => simp [queueActs, submittedTasks, startedTasks, hpc, collect]
  | worker i pick =>
    cases hpc : s.workers i with
    | taking =>
      cases htasks : s.tasks with
      | nil => simp [queueActs, submittedTasks, startedTasks, hpc, htasks, collect]
      | cons t tasks =>
        have hidle : (toWorkQueue s).working i = none := congrArg Worker.task hpc
        have hqueue : (toWorkQueue s).queue = t :: tasks := htasks
        simp [queueActs, submittedTasks, startedTasks, hpc, htasks, collect, WorkQueue.next,
          WorkQueue.pushed, WorkQueue.taken, hidle, hqueue]
    | working t =>
      simp only [queueActs, submittedTasks, startedTasks, hpc, collect]
      split <;> exact ⟨rfl, rfl⟩
    | _ => simp [queueActs, submittedTasks, startedTasks, hpc, collect]
  | _ => exact ⟨rfl, rfl⟩

/-- What the queue shows of a run of the pool. -/
theorem collect_queueRun (h : run (next n) (initial memory) acts = some s) :
    collect WorkQueue.next WorkQueue.pushed (WorkQueue.initial memory) (queueRun n memory acts) =
        collect (next n) submittedTasks (initial memory) acts ∧
      collect WorkQueue.next WorkQueue.taken (WorkQueue.initial memory) (queueRun n memory acts) =
        collect (next n) startedTasks (initial memory) acts := by
  have hP0 : (toWorkQueue (initial memory : Pool σ ε)).Placed := WorkQueue.placed_initial memory
  rw [queueRun, ← toWorkQueue_initial]
  constructor
  · refine collect_simulates (next n) (g := submittedTasks) (fun s => (toWorkQueue s).Placed) ?_ hP0 h
    intro s a s' hP ha
    exact ⟨(run_next_placed hP ha).1, (collect_queueActs s a).1, (run_next_placed hP ha).2⟩
  · refine collect_simulates (next n) (g := startedTasks) (fun s => (toWorkQueue s).Placed) ?_ hP0 h
    intro s a s' hP ha
    exact ⟨(run_next_placed hP ha).1, (collect_queueActs s a).2, (run_next_placed hP ha).2⟩

/-- What a worker in its critical section knows of the queue. -/
def Fits (tasks : List (Task σ ε)) (running : Bool) : Worker σ ε → Prop
  | .parking => tasks = []
  | .checking => tasks ≠ [] ∨ running = false
  | .checkingPaused => tasks ≠ []
  | .taking => tasks ≠ []
  | _ => True

def Ready (s : Pool σ ε) : Prop := (∀ i, Fits s.tasks s.running (s.workers i)) ∧ s.crashed = false

theorem fits_outside {tasks : List (Task σ ε)} {running : Bool} {pc : Worker σ ε} (h : pc.holds = false) :
    Fits tasks running pc := by
  cases pc <;> first | cases h; done | trivial

theorem fits_stopped {tasks : List (Task σ ε)} {running : Bool} {pc : Worker σ ε} (h : Fits tasks running pc) :
    Fits tasks false pc := by
  cases pc <;> first | exact h | exact Or.inr rfl

theorem fits_worker {i : ℕ} {pc : Worker σ ε} {tasks : List (Task σ ε)} {running : Bool}
    (hR : ∀ j, j ≠ i → Fits tasks running (s.workers j)) (h : Fits tasks running pc) (j : ℕ) :
    Fits tasks running ((s.worker i pc).workers j) := by
  by_cases hj : j = i
  · subst hj
    rw [worker_self]
    exact h
  · rw [worker_ne s i pc hj]
    exact hR j hj

theorem ready_workerStep {i pick : ℕ} (hH : Held s) (hR : Ready s) (h : WorkerStep s i pick s') : Ready s' := by
  obtain ⟨hfits, hcrashed⟩ := hR
  have hi := hfits i
  cases h with
  | enter hpc => exact ⟨fits_worker (fun j _ => hfits j) trivial, hcrashed⟩
  | exit hpc => exact ⟨fits_worker (fun j _ => hfits j) trivial, hcrashed⟩
  | lock hpc => exact ⟨fits_worker (fun j _ => hfits j) trivial, hcrashed⟩
  | pass hpc hpred => exact ⟨fits_worker (fun j _ => hfits j) hpred, hcrashed⟩
  | fail hpc hnil => exact ⟨fits_worker (fun j _ => hfits j) hnil, hcrashed⟩
  | park hpc => exact ⟨fits_worker (fun j _ => hfits j) trivial, hcrashed⟩
  | wake hpc => exact ⟨fits_worker (fun j _ => hfits j) trivial, hcrashed⟩
  | goOn hpc hrun =>
    rw [hpc] at hi
    have hne : s.tasks ≠ [] := hi.resolve_right (by rw [hrun]; decide)
    exact ⟨fits_worker (fun j _ => hfits j) hne, hcrashed⟩
  | stop hpc => exact ⟨fits_worker (fun j _ => hfits j) trivial, hcrashed⟩
  | start hpc =>
    rw [hpc] at hi
    exact ⟨fits_worker (fun j _ => hfits j) hi, hcrashed⟩
  | hold hpc => exact ⟨fits_worker (fun j _ => hfits j) trivial, hcrashed⟩
  | crash hpc hnil =>
    rw [hpc] at hi
    exact absurd hnil hi
  | take t tasks hpc =>
    -- the others are outside of their critical sections
    have hme : s.holding (.worker i) = true := congrArg Worker.holds hpc
    refine ⟨fits_worker (fun j hj => fits_outside ?_) trivial, hcrashed⟩
    by_contra hheld
    have hyou : s.holding (.worker j) = true := Bool.eq_true_of_not_eq_false hheld
    exact hj (Thread.worker.inj (hH.unique hyou hme))
  | execute => exact ⟨fits_worker (fun j _ => hfits j) trivial, hcrashed⟩
  | settle => exact ⟨fits_worker (fun j _ => hfits j) trivial, hcrashed⟩
  | relock => exact ⟨fits_worker (fun j _ => hfits j) trivial, hcrashed⟩
  | count => exact ⟨fits_worker (fun j _ => hfits j) trivial, hcrashed⟩
  | awaited => exact ⟨fits_worker (fun j _ => hfits j) trivial, hcrashed⟩
  | unawaited => exact ⟨fits_worker (fun j _ => hfits j) trivial, hcrashed⟩
  | notify => exact ⟨fits_worker (fun j _ => hfits j) trivial, hcrashed⟩
  | leave => exact ⟨fits_worker (fun j _ => hfits j) trivial, hcrashed⟩

theorem ready_clientStep {c pick : ℕ} (hH : Held s) (hR : Ready s) (h : ClientStep n s c pick s') : Ready s' := by
  cases h with
  | push b k body hpc hbody hfree => exact ⟨fun i => fits_outside (hH.free hfree (.worker i)), hR.2⟩
  | stop => exact ⟨fun i => fits_stopped (hR.1 i), hR.2⟩
  | _ => exact hR

theorem ready_run (h : run (next n) (initial memory) acts = some s) : Ready s := by
  suffices hI : Held s ∧ Ready s from hI.2
  refine run_keeps (next n) (fun s => Held s ∧ Ready s)
    ⟨held_run (show run (next n) (initial memory) [] = some _ from rfl), fun i => trivial, rfl⟩ ?_ h
  rintro s a s' ⟨hH, hR⟩ ha
  refine ⟨held_next hH ha, ?_⟩
  cases nextStep_of_next ha with
  | client c pick _ hstep => exact ready_clientStep hH hR hstep
  | worker i pick _ _ hstep => exact ready_workerStep hH hR hstep
  | _ => exact hR

/-- Tasks are started in the order in which they were submitted, each at most
once, and a worker finds a task whenever it takes one. -/
theorem started_in_order (h : run (next n) (initial memory) acts = some s) :
    collect (next n) submittedTasks (initial memory) acts =
        collect (next n) startedTasks (initial memory) acts ++ s.tasks ∧
      ((collect (next n) startedTasks (initial memory) acts).map Task.id).Nodup ∧ s.crashed = false := by
  have hrun := run_toWorkQueue h
  obtain ⟨hsubmitted, hstarted⟩ := collect_queueRun h
  have heq := WorkQueue.pushed_eq hrun
  have hnodup := WorkQueue.pushed_nodup hrun
  rw [hsubmitted, hstarted] at heq
  rw [hsubmitted, heq, List.map_append] at hnodup
  exact ⟨heq, (List.nodup_append.mp hnodup).1, (ready_run h).2⟩

/-- Call 0 has submitted two tasks, and a worker has taken the first. -/
def twoTasks : List (Act ℕ Unit) :=
  [.batch 0 ⟨0, [[fun m => .ok (m + 1)], []]⟩, .client 0 0, .client 0 0, .client 0 0, .client 0 0,
    .worker 0 0, .worker 0 0, .worker 0 0, .worker 0 0, .worker 0 0, .worker 0 0]

theorem started_in_order_twoTasks : ∃ s, run (next 1) (initial fun _ => 0) twoTasks = some s ∧
    s.tasks.map Task.id = [(0, 1)] ∧ collect (next 1) submittedTasks (initial fun _ => 0) twoTasks =
      collect (next 1) startedTasks (initial fun _ => 0) twoTasks ++ s.tasks :=
  ⟨_, rfl, rfl, (started_in_order (n := 1) (s := _) rfl).1⟩

/-! ### The counter -/

/-- Between the push of a task and its `++tasks_total`. -/
def Client.uncounted : Client σ ε → Bool
  | .pushed _ _ => true
  | _ => false

/-- Between taking a task and its `--tasks_total`. -/
def Worker.busy : Worker σ ε → Bool
  | .working _ | .finished | .counting => true
  | _ => false

/-- `gap` are the calls whose last task is not counted yet, `busy` the workers
whose task still is. -/
structure Counting (total : BitVec 64) (queued : ℕ) (workers : ℕ → Worker σ ε) (clients : ℕ → Client σ ε)
    (gap busy : Finset ℕ) : Prop where
  mem_gap : ∀ c, c ∈ gap ↔ (clients c).uncounted = true
  mem_busy : ∀ i, i ∈ busy ↔ (workers i).busy = true
  total : (total.toNat + gap.card) % 2 ^ 64 = (queued + busy.card) % 2 ^ 64

def Counts (s : Pool σ ε) (gap busy : Finset ℕ) : Prop :=
  Counting s.tasksTotal s.tasks.length s.workers s.clients gap busy

section Counter

variable {gap busy : Finset ℕ}

theorem mem_update {τ : Type} {f : ℕ → τ} {P : τ → Bool} {A B : Finset ℕ} (hA : ∀ j, j ∈ A ↔ P (f j) = true)
    {i : ℕ} {x : τ} (hi : i ∈ B ↔ P x = true) (hother : ∀ j, j ≠ i → (j ∈ B ↔ j ∈ A)) (j : ℕ) :
    j ∈ B ↔ P (Function.update f i x j) = true := by
  by_cases hj : j = i
  · subst hj
    rw [Function.update_self]
    exact hi
  · rw [Function.update_of_ne hj, hother j hj]
    exact hA j

/-- A worker moves, but neither takes a task nor counts one. -/
theorem Counts.worker (hC : Counts s gap busy) {i : ℕ} {pc pc' : Worker σ ε} (hpc : s.workers i = pc)
    (h : pc'.busy = pc.busy) : Counts (s.worker i pc') gap busy where
  mem_gap := hC.mem_gap
  mem_busy := mem_update hC.mem_busy (by rw [h, ← hpc]; exact hC.mem_busy i) fun _ _ => Iff.rfl
  total := hC.total

/-- Another thread moves, but neither pushes a task nor counts one. -/
theorem Counts.client (hC : Counts s gap busy) {c : ℕ} {pc pc' : Client σ ε} (hpc : s.clients c = pc)
    (h : pc'.uncounted = pc.uncounted) : Counts (s.client c pc') gap busy where
  mem_gap := mem_update hC.mem_gap (by rw [h, ← hpc]; exact hC.mem_gap c) fun _ _ => Iff.rfl
  mem_busy := hC.mem_busy
  total := hC.total

theorem counts_workerStep {i pick : ℕ} (hC : Counts s gap busy) (h : WorkerStep s i pick s') :
    ∃ busy', Counts s' gap busy' ∧ s'.tasks.length + busy'.card ≤ s.tasks.length + busy.card := by
  cases h with
  | enter hpc => exact ⟨busy, hC.worker hpc rfl, le_rfl⟩
  | exit hpc => exact ⟨busy, hC.worker hpc rfl, le_rfl⟩
  | lock hpc => exact ⟨busy, hC.worker hpc rfl, le_rfl⟩
  | pass hpc => exact ⟨busy, hC.worker hpc rfl, le_rfl⟩
  | fail hpc => exact ⟨busy, hC.worker hpc rfl, le_rfl⟩
  | park hpc => exact ⟨busy, hC.worker hpc rfl, le_rfl⟩
  | wake hpc => exact ⟨busy, hC.worker hpc rfl, le_rfl⟩
  | goOn hpc => exact ⟨busy, hC.worker hpc rfl, le_rfl⟩
  | stop hpc => exact ⟨busy, hC.worker hpc rfl, le_rfl⟩
  | start hpc => exact ⟨busy, hC.worker hpc rfl, le_rfl⟩
  | hold hpc => exact ⟨busy, hC.worker hpc rfl, le_rfl⟩
  | crash => exact ⟨busy, hC, le_rfl⟩
  | take t tasks hpc hcons =>
    have hnot : i ∉ busy := fun hmem => by
      have hbusy := (hC.mem_busy i).mp hmem
      rw [hpc] at hbusy
      cases hbusy
    have hcard := Finset.card_insert_of_notMem hnot
    have hlen : s.tasks.length = tasks.length + 1 := by rw [hcons, List.length_cons]
    have htotal := hC.total
    refine ⟨insert i busy, ⟨hC.mem_gap, ?_, ?_⟩, ?_⟩
    · exact mem_update hC.mem_busy (by simp [Worker.busy]) fun j hj => by simp [hj]
    · show (s.tasksTotal.toNat + gap.card) % 2 ^ 64 = (tasks.length + (insert i busy).card) % 2 ^ 64
      rw [hcard]
      omega
    · show tasks.length + (insert i busy).card ≤ _
      omega
  | execute t f rest m hpc => exact ⟨busy, hC.worker hpc rfl, le_rfl⟩
  | settle t r hpc => exact ⟨busy, hC.worker hpc rfl, le_rfl⟩
  | relock hpc => exact ⟨busy, hC.worker hpc rfl, le_rfl⟩
  | count hpc =>
    have hmem : i ∈ busy := (hC.mem_busy i).mpr (by rw [hpc]; rfl)
    have hcard := Finset.card_erase_add_one hmem
    have htotal := hC.total
    refine ⟨busy.erase i, ⟨hC.mem_gap, ?_, ?_⟩, ?_⟩
    · exact mem_update hC.mem_busy (by simp [Worker.busy]) fun j hj => by simp [hj]
    · show ((s.tasksTotal - 1).toNat + gap.card) % 2 ^ 64 = (s.tasks.length + (busy.erase i).card) % 2 ^ 64
      rw [BitVec.toNat_sub, show (1 : BitVec 64).toNat = 1 from rfl]
      omega
    · show s.tasks.length + (busy.erase i).card ≤ _
      omega
  | awaited hpc => exact ⟨busy, hC.worker hpc rfl, le_rfl⟩
  | unawaited hpc => exact ⟨busy, hC.worker hpc rfl, le_rfl⟩
  | notify hpc => exact ⟨busy, hC.worker hpc rfl, le_rfl⟩
  | leave hpc => exact ⟨busy, hC.worker hpc rfl, le_rfl⟩

theorem counts_clientStep {c pick : ℕ} (hC : Counts s gap busy) (h : ClientStep n s c pick s') :
    ∃ gap', Counts s' gap' busy ∧ gap'.card ≤ gap.card + 1 ∧ s'.tasks.length ≤ s.tasks.length + 1 := by
  cases h with
  | push b k body hpc =>
    have hnot : c ∉ gap := fun hmem => by
      have hun := (hC.mem_gap c).mp hmem
      rw [hpc] at hun
      cases hun
    have hcard := Finset.card_insert_of_notMem hnot
    have htotal := hC.total
    have hlen : (s.tasks ++ [Task.mk c k body]).length = s.tasks.length + 1 := List.length_append
    refine ⟨insert c gap, ⟨?_, hC.mem_busy, ?_⟩, hcard.le, hlen.le⟩
    · exact mem_update hC.mem_gap (by simp [Client.uncounted]) fun d hd => by simp [hd]
    · show (s.tasksTotal.toNat + (insert c gap).card) % 2 ^ 64 =
        ((s.tasks ++ [Task.mk c k body]).length + busy.card) % 2 ^ 64
      rw [hcard, hlen]
      omega
  | submitted b k hpc => exact ⟨gap, hC.client hpc rfl, Nat.le_succ _, Nat.le_succ _⟩
  | count b k hpc =>
    have hmem : c ∈ gap := (hC.mem_gap c).mpr (by rw [hpc]; rfl)
    have hcard := Finset.card_erase_add_one hmem
    have htotal := hC.total
    refine ⟨gap.erase c, ⟨?_, hC.mem_busy, ?_⟩, by omega, Nat.le_succ _⟩
    · exact mem_update hC.mem_gap (by simp [Client.uncounted]) fun d hd => by simp [hd]
    · show ((s.tasksTotal + 1).toNat + (gap.erase c).card) % 2 ^ 64 = (s.tasks.length + busy.card) % 2 ^ 64
      rw [BitVec.toNat_add, show (1 : BitVec 64).toNat = 1 from rfl]
      omega
  | announce b k hpc => exact ⟨gap, hC.client hpc rfl, Nat.le_succ _, Nat.le_succ _⟩
  | get b k hpc => exact ⟨gap, hC.client hpc rfl, Nat.le_succ _, Nat.le_succ _⟩
  | rethrow b k e hpc => exact ⟨gap, hC.client hpc rfl, Nat.le_succ _, Nat.le_succ _⟩
  | gotAll b k hpc => exact ⟨gap, hC.client hpc rfl, Nat.le_succ _, Nat.le_succ _⟩
  | setWaiting d hpc => exact ⟨gap, hC.client hpc rfl, Nat.le_succ _, Nat.le_succ _⟩
  | waitLock d hpc => exact ⟨gap, hC.client hpc rfl, Nat.le_succ _, Nat.le_succ _⟩
  | waitPass d hpc => exact ⟨gap, hC.client hpc rfl, Nat.le_succ _, Nat.le_succ _⟩
  | waitFail d hpc => exact ⟨gap, hC.client hpc rfl, Nat.le_succ _, Nat.le_succ _⟩
  | waitPark d hpc => exact ⟨gap, hC.client hpc rfl, Nat.le_succ _, Nat.le_succ _⟩
  | waitWake d hpc => exact ⟨gap, hC.client hpc rfl, Nat.le_succ _, Nat.le_succ _⟩
  | unsetWaiting d hpc => exact ⟨gap, hC.client hpc rfl, Nat.le_succ _, Nat.le_succ _⟩
  | waitLeave d hpc =>
    refine ⟨gap, hC.client hpc ?_, Nat.le_succ _, Nat.le_succ _⟩
    cases d <;> rfl
  | stop hpc => exact ⟨gap, hC.client hpc rfl, Nat.le_succ _, Nat.le_succ _⟩
  | notifyAll hpc => exact ⟨gap, hC.client hpc rfl, Nat.le_succ _, Nat.le_succ _⟩
  | join k hpc => exact ⟨gap, hC.client hpc rfl, Nat.le_succ _, Nat.le_succ _⟩
  | joined k hpc => exact ⟨gap, hC.client hpc rfl, Nat.le_succ _, Nat.le_succ _⟩

/-- After every run the counter is right but for the calls that have not
counted their task yet; a run of `k` steps has at most `k` tasks. -/
theorem counts_run (h : run (next n) (initial memory) acts = some s) : ∃ gap busy, Counts s gap busy ∧
    gap.card ≤ acts.length ∧ s.tasks.length + busy.card ≤ acts.length := by
  refine run_inv (next n) (C := fun _ _ => True) (fun as s => ∃ gap busy, Counts s gap busy ∧
    gap.card ≤ as.length ∧ s.tasks.length + busy.card ≤ as.length) ?_ ?_
    (along_of_forall (next n) _ fun _ _ => trivial) h
  · refine ⟨∅, ∅, ⟨fun c => ?_, fun i => ?_, rfl⟩, le_rfl, le_rfl⟩
    · simp [initial, Client.uncounted]
    · simp [initial, Worker.busy]
  rintro as s a s' - ⟨gap, busy, hC, hgap, hbusy⟩ - ha
  rw [List.length_append, List.length_singleton]
  cases nextStep_of_next ha with
  | batch c b hidle => exact ⟨gap, busy, hC.client hidle rfl, by omega, hbusy.trans (Nat.le_succ _)⟩
  | waitForTasks c hidle => exact ⟨gap, busy, hC.client hidle rfl, by omega, hbusy.trans (Nat.le_succ _)⟩
  | destroy c hidle => exact ⟨gap, busy, hC.client hidle rfl, by omega, hbusy.trans (Nat.le_succ _)⟩
  | pause => exact ⟨gap, busy, hC, by omega, hbusy.trans (Nat.le_succ _)⟩
  | unpause => exact ⟨gap, busy, hC, by omega, hbusy.trans (Nat.le_succ _)⟩
  | client c pick _ hstep =>
    obtain ⟨gap', hC', hgap', htasks⟩ := counts_clientStep hC hstep
    exact ⟨gap', busy, hC', by omega, by omega⟩
  | worker i pick _ _ hstep =>
    obtain ⟨busy', hC', hbusy'⟩ := counts_workerStep hC hstep
    exact ⟨gap, busy', hC', by omega, by omega⟩
  | spuriousWorker pick => exact ⟨gap, busy, hC, by omega, hbusy.trans (Nat.le_succ _)⟩
  | spuriousClient pick => exact ⟨gap, busy, hC, by omega, hbusy.trans (Nat.le_succ _)⟩

/-- `get_tasks_total` gives the tasks that are queued or running, and
`get_tasks_running` those that are running, exactly when no call is between
its push and its `++tasks_total`. -/
theorem counters_right_iff (h : run (next n) (initial memory) acts = some s) (hlen : acts.length < 2 ^ 64) :
    ∃ gap busy, Counts s gap busy ∧
      (s.tasksTotal.toNat = s.tasks.length + busy.card ↔ gap = ∅) ∧
      ((getTasksRunning s).toNat = busy.card ↔ gap = ∅) := by
  obtain ⟨gap, busy, hC, hgap, hbusy⟩ := counts_run h
  have htotal := hC.total
  have hlt := s.tasksTotal.isLt
  refine ⟨gap, busy, hC, ?_, ?_⟩
  · rw [← Finset.card_eq_zero]
    omega
  · rw [← Finset.card_eq_zero, getTasksRunning, BitVec.toNat_sub, BitVec.toNat_ofNat]
    omega

/-- The second task is queued and not counted yet. -/
theorem counters_right_twoTasks : ∃ s, run (next 1) (initial fun _ => 0) twoTasks = some s ∧
    ∃ gap busy, Counts s gap busy ∧ (s.tasksTotal.toNat = s.tasks.length + busy.card ↔ gap = ∅) ∧
      ((getTasksRunning s).toNat = busy.card ↔ gap = ∅) :=
  ⟨_, rfl, counters_right_iff (show run (next 1) (initial fun _ => 0) twoTasks = some _ from rfl) (by decide)⟩

/-- Every task that was handed in has ended. -/
def AllEnded (s : Pool σ ε) : Prop :=
  ∀ c k, k < (s.clients c).submitted.length → ∃ r, s.promises (c, k) = some r

theorem allEnded_of_unoccupied (h : run (next n) (initial memory) acts = some s) (hC : Counts s gap busy)
    (h0 : s.tasks.length + busy.card = 0) : AllEnded s := by
  have htasks : s.tasks = [] := List.length_eq_zero_iff.mp (by omega)
  have hbusy : busy = ∅ := Finset.card_eq_zero.mp (by omega)
  intro c k hk
  obtain ⟨hP, -⟩ := WorkQueue.inv_run (run_toWorkQueue h)
  rcases hP.somewhere c k hk with hq | ⟨i, t, ht, -⟩ | hr
  · have hnil : (toWorkQueue s).queue = [] := htasks
    rw [hnil] at hq
    cases hq
  · have hmem : i ∈ busy := (hC.mem_busy i).mpr (by
      change (s.workers i).task = some t at ht
      cases hpc : s.workers i <;> rw [hpc] at ht <;> first | rfl | cases ht)
    rw [hbusy] at hmem
    cases hmem
  · exact Option.ne_none_iff_exists'.mp hr

/-- On a pool that is not paused the test of `wait_for_tasks` succeeds exactly
when as many tasks are queued or running as calls have not counted theirs. If
there is no such call, every task handed in has then ended. -/
theorem wait_returns_iff (h : run (next n) (initial memory) acts = some s) (hlen : acts.length < 2 ^ 64)
    {c pick : ℕ} {d : Bool} (hpc : s.clients c = .waitTesting d) (hp : s.paused = false)
    (ha : next n s (.client c pick) = some s') : ∃ gap busy, Counts s gap busy ∧
      (s'.clients c = .waitOver d ↔ s.tasks.length + busy.card = gap.card) ∧
      (gap = ∅ → s'.clients c = .waitOver d → AllEnded s) := by
  obtain ⟨gap, busy, hC, hgap, hbusy⟩ := counts_run h
  have htotal := hC.total
  have hlt := s.tasksTotal.isLt
  have hiff : s'.clients c = .waitOver d ↔ s.tasks.length + busy.card = gap.card := by
    have hs' : s' = s.client c (if s.tasksTotal = 0 then .waitOver d else .waitParking d) := by
      simpa [next, stepClient, hpc, hp] using ha.symm
    have hzero : s.tasksTotal = 0 ↔ s.tasksTotal.toNat = 0 := BitVec.toNat_eq
    rw [hs', client_self]
    by_cases h0 : s.tasksTotal = 0
    · have hnat := hzero.mp h0
      rw [if_pos h0]
      simp only [true_iff]
      omega
    · have hnat := mt hzero.mpr h0
      rw [if_neg h0]
      simp only [reduceCtorEq, false_iff]
      omega
  refine ⟨gap, busy, hC, hiff, fun hempty hover => ?_⟩
  have heq := hiff.mp hover
  rw [hempty, Finset.card_empty] at heq
  exact allEnded_of_unoccupied h hC heq

/-- `wait_for_tasks` on a pool without tasks. -/
theorem wait_returns_idle : ∃ s s', run (next 1) (initial fun _ => 0 : Pool ℕ Unit)
      [.waitForTasks 0, .client 0 0, .client 0 0] = some s ∧ next 1 s (.client 0 0) = some s' ∧
    ∃ gap busy, Counts s gap busy ∧
      (s'.clients 0 = .waitOver false ↔ s.tasks.length + busy.card = gap.card) ∧
      (gap = ∅ → s'.clients 0 = .waitOver false → AllEnded s) :=
  ⟨_, _, rfl, rfl, wait_returns_iff (show run (next 1) _ [.waitForTasks 0, .client 0 0, .client 0 0] = some _ from rfl)
    (by decide) rfl rfl (show next 1 _ (.client 0 0) = some _ from rfl)⟩

end Counter

end ThreadPool
end Lbl
end Ortoa
