/-
# The pool finishes what it is given

No wake-up for a task is lost: while the queue is not empty, a worker is awake
or a call has yet to notify one (`Attended.wake`). Every statement of a thread
lowers `measure`, so the threads cannot go on for ever without new calls, and
when none of them can go on every task has ended and every call of `submit`
and `get` has returned (`calls_return`).

Key definitions: `Alive`, `measure`, `Internal`, `Stuck`, `Waits`.
Key theorems: `alive_run`, `going_next`, `stuck_cases`, `calls_return`.
-/
import Ortoa.Lbl.ThreadPoolOrder
import Ortoa.Progress
import Mathlib.Algebra.Order.BigOperators.Group.Finset
import Mathlib.Data.Int.ConditionallyCompleteOrder

namespace Ortoa
namespace Lbl
namespace ThreadPool

variable {σ ε : Type} {n : ℕ} {memory : ℕ → σ} {acts : List (Act σ ε)} {s s' : Pool σ ε}

/-! ### Wake-ups -/

/-- The worker will look at the queue before it blocks. -/
def Worker.awake : Worker σ ε → Bool
  | .parking | .blocked | .exited => false
  | _ => true

/-- A call that has pushed a task and has yet to notify a worker. -/
def Client.notifies : Client σ ε → Bool
  | .pushed _ _ | .announcing _ _ => true
  | _ => false

/-- Who sleeps, and that someone is awake for the queue. -/
structure Attended (n : ℕ) (cv done : List ℕ) (tasks : List (Task σ ε)) (running : Bool)
    (workers : ℕ → Worker σ ε) (clients : ℕ → Client σ ε) : Prop where
  cvNodup : cv.Nodup
  cvBlocked : ∀ i ∈ cv, i < n ∧ workers i = .blocked
  doneNodup : done.Nodup
  doneBlocked : ∀ c ∈ done, ∃ d, clients c = .waitBlocked d
  notExited : running = true → ∀ i, workers i ≠ .exited
  wake : running = true → tasks ≠ [] →
    (∃ i < n, (workers i).awake = true ∨ (workers i = .blocked ∧ i ∉ cv)) ∨ ∃ c, (clients c).notifies = true

def Alive (n : ℕ) (s : Pool σ ε) : Prop :=
  Attended n s.taskAvailableCv s.taskDoneCv s.tasks s.running s.workers s.clients

/-- One thread is woken if any is blocked. -/
theorem exists_woken {l : List ℕ} (hl : l.Nodup) (hne : l ≠ []) (pick : ℕ) :
    ∃ i ∈ l, i ∉ notifyOne l pick := by
  have hlt : pick % l.length < l.length := Nat.mod_lt _ (List.length_pos_of_ne_nil hne)
  refine ⟨l[pick % l.length], List.getElem_mem hlt, fun hmem => ?_⟩
  rw [notifyOne, List.mem_eraseIdx_iff_getElem] at hmem
  obtain ⟨j, hj, hne', heq⟩ := hmem
  exact hne' ((List.Nodup.getElem_inj_iff hl).mp heq)

section Steps

variable {cv cv' done done' : List ℕ} {tasks tasks' : List (Task σ ε)} {running : Bool}
  {workers : ℕ → Worker σ ε} {clients : ℕ → Client σ ε}

/-- A worker that is not blocked, or no longer, moves. -/
theorem Attended.worker (hA : Attended n cv done tasks running workers clients) {i : ℕ} {pc : Worker σ ε}
    (hi : i < n) (hcv : i ∉ cv) (hexit : running = true → pc ≠ .exited)
    (hwake : running = true → tasks' ≠ [] → pc.awake = true) :
    Attended n cv done tasks' running (Function.update workers i pc) clients := by
  refine ⟨hA.cvNodup, fun j hj => ?_, hA.doneNodup, hA.doneBlocked, fun hrun j => ?_, fun hrun hne => ?_⟩
  · have hji : j ≠ i := fun h => hcv (h ▸ hj)
    rw [Function.update_of_ne hji]
    exact hA.cvBlocked j hj
  · by_cases hji : j = i
    · subst hji
      rw [Function.update_self]
      exact hexit hrun
    · rw [Function.update_of_ne hji]
      exact hA.notExited hrun j
  · refine Or.inl ⟨i, hi, Or.inl ?_⟩
    rw [Function.update_self]
    exact hwake hrun hne

/-- A worker blocks; the queue is empty. -/
theorem Attended.park (hA : Attended n cv done [] running workers clients) {i : ℕ} (hi : i < n) (hcv : i ∉ cv) :
    Attended n (i :: cv) done [] running (Function.update workers i .blocked) clients := by
  refine ⟨List.nodup_cons.mpr ⟨hcv, hA.cvNodup⟩, fun j hj => ?_, hA.doneNodup, hA.doneBlocked,
    fun hrun j => ?_, fun _ hne => absurd rfl hne⟩
  · by_cases hji : j = i
    · subst hji
      exact ⟨hi, Function.update_self _ _ _⟩
    · rw [Function.update_of_ne hji]
      exact hA.cvBlocked j ((List.mem_cons.mp hj).resolve_left hji)
  · by_cases hji : j = i
    · subst hji
      rw [Function.update_self]
      exact fun h => by cases h
    · rw [Function.update_of_ne hji]
      exact hA.notExited hrun j

/-- Waiters are woken. -/
theorem Attended.shrinkDone (hA : Attended n cv done tasks running workers clients) (h : done'.Sublist done) :
    Attended n cv done' tasks running workers clients :=
  ⟨hA.cvNodup, hA.cvBlocked, hA.doneNodup.sublist h, fun c hc => hA.doneBlocked c (h.subset hc), hA.notExited,
    hA.wake⟩

/-- Workers are woken. -/
theorem Attended.shrinkCv (hA : Attended n cv done tasks running workers clients) (h : cv'.Sublist cv) :
    Attended n cv' done tasks running workers clients := by
  refine ⟨hA.cvNodup.sublist h, fun i hi => hA.cvBlocked i (h.subset hi), hA.doneNodup, hA.doneBlocked,
    hA.notExited, fun hrun hne => ?_⟩
  rcases hA.wake hrun hne with ⟨i, hi, hw | ⟨hb, hcv⟩⟩ | hc
  · exact Or.inl ⟨i, hi, Or.inl hw⟩
  · exact Or.inl ⟨i, hi, Or.inr ⟨hb, fun hmem => hcv (h.subset hmem)⟩⟩
  · exact Or.inr hc

/-- Another thread that is not blocked, or no longer, moves. -/
theorem Attended.client (hA : Attended n cv done tasks running workers clients) {c : ℕ} {pc : Client σ ε}
    (hdone : c ∉ done) (hwake : pc.notifies = true ∨ ((clients c).notifies = false ∧ tasks' = tasks)) :
    Attended n cv done tasks' running workers (Function.update clients c pc) := by
  refine ⟨hA.cvNodup, hA.cvBlocked, hA.doneNodup, fun d hd => ?_, hA.notExited, fun hrun hne => ?_⟩
  · have hdc : d ≠ c := fun h => hdone (h ▸ hd)
    rw [Function.update_of_ne hdc]
    exact hA.doneBlocked d hd
  · rcases hwake with hpc | ⟨hnot, rfl⟩
    · refine Or.inr ⟨c, ?_⟩
      rw [Function.update_self]
      exact hpc
    · rcases hA.wake hrun hne with hw | ⟨d, hd⟩
      · exact Or.inl hw
      · have hdc : d ≠ c := by
          rintro rfl
          rw [hnot] at hd
          cases hd
        refine Or.inr ⟨d, ?_⟩
        rw [Function.update_of_ne hdc]
        exact hd

/-- A call notifies a worker: one is awake now. -/
theorem Attended.announce (hA : Attended n cv done tasks running workers clients) {c : ℕ} {pc : Client σ ε}
    (hn : 0 < n) (hdone : c ∉ done) (pick : ℕ) (hpark : tasks ≠ [] → ∀ i, workers i ≠ .parking) :
    Attended n (notifyOne cv pick) done tasks running workers (Function.update clients c pc) := by
  have hsub : (notifyOne cv pick).Sublist cv := List.eraseIdx_sublist _ _
  refine ⟨hA.cvNodup.sublist hsub, fun i hi => hA.cvBlocked i (hsub.subset hi), hA.doneNodup, fun d hd => ?_,
    hA.notExited, fun hrun hne => Or.inl ?_⟩
  · have hdc : d ≠ c := fun h => hdone (h ▸ hd)
    rw [Function.update_of_ne hdc]
    exact hA.doneBlocked d hd
  · by_cases hcv : cv = []
    · subst hcv
      -- nobody was blocked, and nobody is about to block
      refine ⟨0, hn, ?_⟩
      cases hpc : workers 0 with
      | parking => exact absurd hpc (hpark hne 0)
      | exited => exact absurd hpc (hA.notExited hrun 0)
      | blocked => exact Or.inr ⟨rfl, fun h => by cases hsub.subset h⟩
      | _ => exact Or.inl rfl
    · obtain ⟨i, hi, hnot⟩ := exists_woken hA.cvNodup hcv pick
      obtain ⟨hin, hb⟩ := hA.cvBlocked i hi
      exact ⟨i, hin, Or.inr ⟨hb, hnot⟩⟩

end Steps

theorem alive_workerStep {i pick : ℕ} (hR : Ready s) (hA : Alive n s) (hi : i < n) (h : WorkerStep s i pick s') :
    Alive n s' := by
  have hout : ∀ pc, s.workers i = pc → pc ≠ .blocked → i ∉ s.taskAvailableCv :=
    fun pc hpc hne hmem => hne (hpc ▸ (hA.cvBlocked i hmem).2)
  have hgo : ∀ {pc : Worker σ ε}, pc.awake = true → pc ≠ .exited := by
    rintro pc h rfl
    cases h
  cases h with
  | enter hpc => exact hA.worker hi (hout _ hpc (by simp)) (fun _ => hgo rfl) fun _ _ => rfl
  | exit hpc hrun =>
    refine hA.worker hi (hout _ hpc (by simp)) (fun h => ?_) fun h => ?_ <;> rw [hrun] at h <;> cases h
  | lock hpc => exact hA.worker hi (hout _ hpc (by simp)) (fun _ => hgo rfl) fun _ _ => rfl
  | pass hpc => exact hA.worker hi (hout _ hpc (by simp)) (fun _ => hgo rfl) fun _ _ => rfl
  | fail hpc hnil =>
    exact hA.worker hi (hout _ hpc (by simp)) (fun _ h => by cases h) fun _ hne => absurd hnil hne
  | park hpc =>
    have hnil : s.tasks = [] := by
      have hfit := hR.1 i
      rw [hpc] at hfit
      exact hfit
    have hA' := hA
    rw [Alive, hnil] at hA'
    have hpark := hA'.park hi (hout _ hpc (by simp))
    rw [← hnil] at hpark
    exact hpark
  | wake hpc hcv => exact hA.worker hi hcv (fun _ => hgo rfl) fun _ _ => rfl
  | goOn hpc => exact hA.worker hi (hout _ hpc (by simp)) (fun _ => hgo rfl) fun _ _ => rfl
  | stop hpc => exact hA.worker hi (hout _ hpc (by simp)) (fun _ => hgo rfl) fun _ _ => rfl
  | start hpc => exact hA.worker hi (hout _ hpc (by simp)) (fun _ => hgo rfl) fun _ _ => rfl
  | hold hpc => exact hA.worker hi (hout _ hpc (by simp)) (fun _ => hgo rfl) fun _ _ => rfl
  | crash => exact hA
  | take t tasks hpc => exact hA.worker hi (hout _ hpc (by simp)) (fun _ => hgo rfl) fun _ _ => rfl
  | execute t f rest m hpc => exact hA.worker hi (hout _ hpc (by simp)) (fun _ => hgo rfl) fun _ _ => rfl
  | settle t r hpc => exact hA.worker hi (hout _ hpc (by simp)) (fun _ => hgo rfl) fun _ _ => rfl
  | relock hpc => exact hA.worker hi (hout _ hpc (by simp)) (fun _ => hgo rfl) fun _ _ => rfl
  | count hpc => exact hA.worker hi (hout _ hpc (by simp)) (fun _ => hgo rfl) fun _ _ => rfl
  | awaited hpc => exact hA.worker hi (hout _ hpc (by simp)) (fun _ => hgo rfl) fun _ _ => rfl
  | unawaited hpc => exact hA.worker hi (hout _ hpc (by simp)) (fun _ => hgo rfl) fun _ _ => rfl
  | notify hpc =>
    exact (hA.shrinkDone (List.eraseIdx_sublist _ _)).worker hi (hout _ hpc (by simp)) (fun _ => hgo rfl)
      fun _ _ => rfl
  | leave hpc => exact hA.worker hi (hout _ hpc (by simp)) (fun _ => hgo rfl) fun _ _ => rfl

theorem alive_clientStep {c pick : ℕ} (hn : 0 < n) (hR : Ready s) (hA : Alive n s)
    (h : ClientStep n s c pick s') : Alive n s' := by
  have hout : ∀ pc, s.clients c = pc → (∀ d, pc ≠ .waitBlocked d) → c ∉ s.taskDoneCv := by
    intro pc hpc hne hmem
    obtain ⟨d, hd⟩ := hA.doneBlocked c hmem
    exact hne d (hpc ▸ hd)
  have hquiet : ∀ pc, s.clients c = pc → pc.notifies = false → ∀ pc' : Client σ ε,
      pc'.notifies = true ∨ ((s.clients c).notifies = false ∧ s.tasks = s.tasks) :=
    fun pc hpc h _ => Or.inr ⟨by rw [hpc]; exact h, rfl⟩
  have hpark : s.tasks ≠ [] → ∀ i, s.workers i ≠ .parking := by
    intro hne i hpc
    have hfit := hR.1 i
    rw [hpc] at hfit
    exact hne hfit
  cases h with
  | push b k body hpc => exact hA.client (hout _ hpc (by simp)) (Or.inl rfl)
  | submitted b k hpc => exact hA.client (hout _ hpc (by simp)) (hquiet _ hpc rfl _)
  | count b k hpc => exact hA.client (hout _ hpc (by simp)) (Or.inl rfl)
  | announce b k hpc => exact hA.announce hn (hout _ hpc (by simp)) pick hpark
  | get b k hpc => exact hA.client (hout _ hpc (by simp)) (hquiet _ hpc rfl _)
  | rethrow b k e hpc => exact hA.client (hout _ hpc (by simp)) (hquiet _ hpc rfl _)
  | gotAll b k hpc => exact hA.client (hout _ hpc (by simp)) (hquiet _ hpc rfl _)
  | setWaiting d hpc => exact hA.client (hout _ hpc (by simp)) (hquiet _ hpc rfl _)
  | waitLock d hpc => exact hA.client (hout _ hpc (by simp)) (hquiet _ hpc rfl _)
  | waitPass d hpc => exact hA.client (hout _ hpc (by simp)) (hquiet _ hpc rfl _)
  | waitFail d hpc => exact hA.client (hout _ hpc (by simp)) (hquiet _ hpc rfl _)
  | waitPark d hpc =>
    have hnot := hout _ hpc (by simp)
    have hmove : Attended n s.taskAvailableCv s.taskDoneCv s.tasks s.running s.workers
        (Function.update s.clients c (.waitBlocked d)) := hA.client hnot (hquiet _ hpc rfl _)
    refine ⟨hmove.cvNodup, hmove.cvBlocked, List.nodup_cons.mpr ⟨hnot, hmove.doneNodup⟩, fun e he => ?_,
      hmove.notExited, hmove.wake⟩
    rcases List.mem_cons.mp he with rfl | he
    · exact ⟨d, client_self _ _ _⟩
    · exact hmove.doneBlocked e he
  | waitWake d hpc hnot => exact hA.client hnot (hquiet _ hpc rfl _)
  | unsetWaiting d hpc => exact hA.client (hout _ hpc (by simp)) (hquiet _ hpc rfl _)
  | waitLeave d hpc => exact hA.client (hout _ hpc (by simp)) (hquiet _ hpc rfl _)
  | stop hpc =>
    have hmove : Attended n s.taskAvailableCv s.taskDoneCv s.tasks s.running s.workers
        (Function.update s.clients c .stopped) := hA.client (hout _ hpc (by simp)) (hquiet _ hpc rfl _)
    exact {
      cvNodup := hmove.cvNodup
      cvBlocked := hmove.cvBlocked
      doneNodup := hmove.doneNodup
      doneBlocked := hmove.doneBlocked
      notExited := fun h => by cases h
      wake := fun h => by cases h }
  | notifyAll hpc =>
    exact (hA.shrinkCv (List.nil_sublist _)).client (hout _ hpc (by simp)) (hquiet _ hpc rfl _)
  | join k hpc => exact hA.client (hout _ hpc (by simp)) (hquiet _ hpc rfl _)
  | joined k hpc => exact hA.client (hout _ hpc (by simp)) (hquiet _ hpc rfl _)

theorem alive_initial (n : ℕ) (memory : ℕ → σ) : Alive n (initial memory : Pool σ ε) where
  cvNodup := List.nodup_nil
  cvBlocked := fun i hi => by cases hi
  doneNodup := List.nodup_nil
  doneBlocked := fun c hc => by cases hc
  notExited := fun _ i h => by cases h
  wake := fun _ h => absurd rfl h

theorem alive_next {a : Act σ ε} (hn : 0 < n) (hR : Ready s) (hA : Alive n s) (ha : next n s a = some s') :
    Alive n s' := by
  have hidle : ∀ c, s.clients c = .idle → c ∉ s.taskDoneCv := by
    intro c hpc hmem
    obtain ⟨d, hd⟩ := hA.doneBlocked c hmem
    rw [hpc] at hd
    cases hd
  cases nextStep_of_next ha with
  | batch c b hpc => exact hA.client (hidle c hpc) (Or.inr ⟨by rw [hpc]; rfl, rfl⟩)
  | waitForTasks c hpc => exact hA.client (hidle c hpc) (Or.inr ⟨by rw [hpc]; rfl, rfl⟩)
  | destroy c hpc => exact hA.client (hidle c hpc) (Or.inr ⟨by rw [hpc]; rfl, rfl⟩)
  | pause => exact hA
  | unpause => exact hA
  | client c pick _ hstep => exact alive_clientStep hn hR hA hstep
  | worker i pick _ hi hstep => exact alive_workerStep hR hA hi hstep
  | spuriousWorker pick => exact hA.shrinkCv (List.eraseIdx_sublist _ _)
  | spuriousClient pick => exact hA.shrinkDone (List.eraseIdx_sublist _ _)

theorem alive_run (hn : 0 < n) (h : run (next n) (initial memory) acts = some s) : Alive n s := by
  refine run_inv (next n) (C := fun _ _ => True) (fun _ s => Alive n s) (alive_initial n memory) ?_
    (along_of_forall (next n) _ fun _ _ => trivial) h
  intro as s a s' hrun hA _ ha
  exact alive_next hn (ready_run hrun) hA ha

/-! ### The measure -/

/-- How many statements a worker may execute before it blocks or takes a task. -/
def Worker.rank (running : Bool) : Worker σ ε → ℕ
  | .exited => 0
  | .top => if running then 7 else 1
  | .taking => 2
  | .checkingPaused => 3
  | .checking => 4
  | .parking => 4
  | .testing => 5
  | .locking => 6
  | .blocked => 6
  | .leaving => if running then 8 else 2
  | .notifying => 12
  | .counted => 13
  | .counting => 14
  | .finished => 15
  | .working t => 16 + t.body.length

/-- What a queued task will cost its worker. -/
def taskCost (body : List (σ → Except ε σ)) : ℕ := body.length + 15

/-- The same for the other threads; a notification pays for the thread that it wakes. -/
def Client.rank (n : ℕ) : Client σ ε → ℕ
  | .idle | .returned _ _ | .waited | .destroyed => 0
  | .submitting b k => ((b.bodies.drop k).map fun body => taskCost body + 6).sum + b.bodies.length + 2
  | .pushed b k => ((b.bodies.drop (k + 1)).map fun body => taskCost body + 6).sum + b.bodies.length + 7
  | .announcing b k => ((b.bodies.drop (k + 1)).map fun body => taskCost body + 6).sum + b.bodies.length + 6
  | .getting b k => b.bodies.length - k + 1
  | .joining k => n - k + 1
  | .stopped => 4 * n + 2
  | .stopping => 4 * n + 3
  | .waitLeaving _ => 4 * n + 4
  | .waitOver _ => 4 * n + 5
  | .waitParking _ => 4 * n + 6
  | .waitTesting _ => 4 * n + 7
  | .waitBlocked _ => 4 * n + 8
  | .waitLocking _ => 4 * n + 8
  | .waitEntered _ => 4 * n + 9

/-- What the threads that are not blocked may do, and the queue. -/
def pending (n : ℕ) (F : Finset ℕ) (cv done : List ℕ) (tasks : List (Task σ ε)) : ℕ :=
  3 * (n - cv.length) + 3 * (F.card - done.length) + (tasks.map fun t => taskCost t.body).sum

/-- What all threads may still do; `F` are the threads that are in a call. -/
def measure (n : ℕ) (F : Finset ℕ) (s : Pool σ ε) : ℕ :=
  ∑ i ∈ Finset.range n, (s.workers i).rank s.running + ∑ c ∈ F, (s.clients c).rank n +
    pending n F s.taskAvailableCv s.taskDoneCv s.tasks

section Measure

variable {F : Finset ℕ}

theorem measure_lt_worker {i : ℕ} {pc pc' : Worker σ ε} (hi : i < n) (hpc : s.workers i = pc)
    (hw : s'.workers = Function.update s.workers i pc') (hrun : s'.running = s.running)
    (hc : s'.clients = s.clients)
    (h : pc'.rank s.running + pending n F s'.taskAvailableCv s'.taskDoneCv s'.tasks <
      pc.rank s.running + pending n F s.taskAvailableCv s.taskDoneCv s.tasks) :
    measure n F s' < measure n F s := by
  have hsum := sum_update (Worker.rank s.running) s.workers (Finset.mem_range.mpr hi) pc'
  rw [hpc] at hsum
  unfold measure
  rw [hw, hrun, hc]
  omega

theorem measure_lt_client {c : ℕ} {pc pc' : Client σ ε} (hcF : c ∈ F) (hpc : s.clients c = pc)
    (hc : s'.clients = Function.update s.clients c pc') (hrun : s'.running = s.running)
    (hw : s'.workers = s.workers)
    (h : pc'.rank n + pending n F s'.taskAvailableCv s'.taskDoneCv s'.tasks <
      pc.rank n + pending n F s.taskAvailableCv s.taskDoneCv s.tasks) : measure n F s' < measure n F s := by
  have hsum := sum_update (Client.rank n) s.clients hcF pc'
  rw [hpc] at hsum
  unfold measure
  rw [hc, hrun, hw]
  omega

/-- Blocked workers are workers. -/
theorem cv_length_le (hA : Alive n s) : s.taskAvailableCv.length ≤ n := by
  have hsub : s.taskAvailableCv.toFinset ⊆ Finset.range n := fun i hi =>
    Finset.mem_range.mpr (hA.cvBlocked i (List.mem_toFinset.mp hi)).1
  have hcard := Finset.card_le_card hsub
  rwa [List.toFinset_card_of_nodup hA.cvNodup, Finset.card_range] at hcard

/-- Blocked waiters are in a call. -/
theorem done_length_le (hA : Alive n s) (hF : ∀ c, c ∉ F → s.clients c = .idle) :
    s.taskDoneCv.length ≤ F.card := by
  have hsub : s.taskDoneCv.toFinset ⊆ F := by
    intro c hc
    obtain ⟨d, hd⟩ := hA.doneBlocked c (List.mem_toFinset.mp hc)
    by_contra hnot
    rw [hF c hnot] at hd
    cases hd
  have hcard := Finset.card_le_card hsub
  rwa [List.toFinset_card_of_nodup hA.doneNodup] at hcard

theorem notifyOne_length (l : List ℕ) (pick : ℕ) : l.length ≤ (notifyOne l pick).length + 1 := by
  unfold notifyOne
  rw [List.length_eraseIdx]
  split <;> omega

theorem measure_workerStep {i pick : ℕ} (hi : i < n) (hR : Ready s) (hA : Alive n s) (hA' : Alive n s')
    (hp : s.running = true → s.paused = false) (h : WorkerStep s i pick s') : measure n F s' < measure n F s := by
  have hlen := cv_length_le hA
  have hlen' := cv_length_le hA'
  cases h with
  | enter hpc hrun =>
    exact measure_lt_worker hi hpc rfl rfl rfl (Nat.add_lt_add_right (by simp [Worker.rank, hrun]) _)
  | exit hpc hrun =>
    exact measure_lt_worker hi hpc rfl rfl rfl (Nat.add_lt_add_right (by simp [Worker.rank, hrun]) _)
  | lock hpc => exact measure_lt_worker hi hpc rfl rfl rfl (Nat.add_lt_add_right (by simp [Worker.rank]) _)
  | pass hpc => exact measure_lt_worker hi hpc rfl rfl rfl (Nat.add_lt_add_right (by simp [Worker.rank]) _)
  | fail hpc => exact measure_lt_worker hi hpc rfl rfl rfl (Nat.add_lt_add_right (by simp [Worker.rank]) _)
  | park hpc =>
    have hcons : (i :: s.taskAvailableCv).length ≤ n := hlen'
    refine measure_lt_worker hi hpc rfl rfl rfl ?_
    change 6 + pending n F (i :: s.taskAvailableCv) s.taskDoneCv s.tasks < 4 + _
    simp only [pending, List.length_cons] at hcons ⊢
    omega
  | wake hpc => exact measure_lt_worker hi hpc rfl rfl rfl (Nat.add_lt_add_right (by simp [Worker.rank]) _)
  | goOn hpc => exact measure_lt_worker hi hpc rfl rfl rfl (Nat.add_lt_add_right (by simp [Worker.rank]) _)
  | stop hpc hrun =>
    exact measure_lt_worker hi hpc rfl rfl rfl (Nat.add_lt_add_right (by simp [Worker.rank, hrun]) _)
  | start hpc => exact measure_lt_worker hi hpc rfl rfl rfl (Nat.add_lt_add_right (by simp [Worker.rank]) _)
  | hold hpc hpaused =>
    have hrun : s.running = false := by
      by_contra hrun
      rw [hp (by simpa using hrun)] at hpaused
      cases hpaused
    exact measure_lt_worker hi hpc rfl rfl rfl (Nat.add_lt_add_right (by simp [Worker.rank, hrun]) _)
  | crash hpc hnil =>
    have hfit := hR.1 i
    rw [hpc] at hfit
    exact absurd hnil hfit
  | take t tasks hpc hcons =>
    have hcost : taskCost t.body = t.body.length + 15 := rfl
    refine measure_lt_worker hi hpc rfl rfl rfl ?_
    change 16 + t.body.length + pending n F s.taskAvailableCv s.taskDoneCv tasks < 2 + _
    simp only [pending, hcons, List.map_cons, List.sum_cons]
    omega
  | execute t f rest m hpc hbody =>
    refine measure_lt_worker hi hpc rfl rfl rfl (Nat.add_lt_add_right ?_ _)
    simp [Worker.rank, hbody]
  | settle t r hpc => exact measure_lt_worker hi hpc rfl rfl rfl (Nat.add_lt_add_right (by simp [Worker.rank]; omega) _)
  | relock hpc => exact measure_lt_worker hi hpc rfl rfl rfl (Nat.add_lt_add_right (by simp [Worker.rank]) _)
  | count hpc => exact measure_lt_worker hi hpc rfl rfl rfl (Nat.add_lt_add_right (by simp [Worker.rank]) _)
  | awaited hpc => exact measure_lt_worker hi hpc rfl rfl rfl (Nat.add_lt_add_right (by simp [Worker.rank]) _)
  | unawaited hpc =>
    refine measure_lt_worker hi hpc rfl rfl rfl (Nat.add_lt_add_right ?_ _)
    simp only [Worker.rank]
    split <;> decide
  | notify hpc =>
    have hone := notifyOne_length s.taskDoneCv pick
    have hrank : (Worker.leaving : Worker σ ε).rank s.running ≤ 8 := by
      simp only [Worker.rank]
      split <;> decide
    refine measure_lt_worker hi hpc rfl rfl rfl ?_
    change Worker.rank _ _ + pending n F s.taskAvailableCv (notifyOne s.taskDoneCv pick) s.tasks < 12 + _
    simp only [pending]
    omega
  | leave hpc =>
    refine measure_lt_worker hi hpc rfl rfl rfl (Nat.add_lt_add_right ?_ _)
    simp only [Worker.rank]
    split <;> decide

/-- A worker may do less once the pool is stopped. -/
theorem rank_stopped_le (running : Bool) (pc : Worker σ ε) : pc.rank false ≤ pc.rank running := by
  cases pc <;> cases running <;> simp [Worker.rank]

theorem rest_cost {b : Batch σ ε} {k : ℕ} {body : List (σ → Except ε σ)} (h : b.bodies[k]? = some body) :
    ((b.bodies.drop k).map fun body => taskCost body + 6).sum =
      taskCost body + 6 + ((b.bodies.drop (k + 1)).map fun body => taskCost body + 6).sum := by
  obtain ⟨hlt, rfl⟩ := List.getElem?_eq_some_iff.mp h
  rw [List.drop_eq_getElem_cons hlt]
  rfl

theorem measure_clientStep {c pick : ℕ} (hA : Alive n s) (hA' : Alive n s')
    (hF : ∀ d, d ∉ F → s.clients d = .idle) (hF' : ∀ d, d ∉ F → s'.clients d = .idle)
    (h : ClientStep n s c pick s') : measure n F s' < measure n F s := by
  have hlen := cv_length_le hA
  have hdone := done_length_le hA hF
  have hdone' := done_length_le hA' hF'
  have hin : ∀ pc, s.clients c = pc → pc ≠ .idle → c ∈ F := by
    intro pc hpc hne
    by_contra hnot
    exact hne (hpc ▸ hF c hnot)
  cases h with
  | push b k body hpc hbody =>
    have hrest := rest_cost hbody
    refine measure_lt_client (hin _ hpc (by simp)) hpc rfl rfl rfl ?_
    change _ + pending n F s.taskAvailableCv s.taskDoneCv (s.tasks ++ [Task.mk c k body]) < _
    simp only [Client.rank, pending, List.map_append, List.sum_append, List.map_singleton, List.sum_singleton]
    omega
  | submitted b k hpc hnone =>
    refine measure_lt_client (hin _ hpc (by simp)) hpc rfl rfl rfl (Nat.add_lt_add_right ?_ _)
    simp only [Client.rank]
    omega
  | count b k hpc =>
    exact measure_lt_client (hin _ hpc (by simp)) hpc rfl rfl rfl (Nat.add_lt_add_right (by simp [Client.rank]) _)
  | announce b k hpc =>
    have hone := notifyOne_length s.taskAvailableCv pick
    refine measure_lt_client (hin _ hpc (by simp)) hpc rfl rfl rfl ?_
    change _ + pending n F (notifyOne s.taskAvailableCv pick) s.taskDoneCv s.tasks < _
    simp only [Client.rank, pending]
    omega
  | get b k hpc hlt =>
    refine measure_lt_client (hin _ hpc (by simp)) hpc rfl rfl rfl (Nat.add_lt_add_right ?_ _)
    simp only [Client.rank]
    omega
  | rethrow b k e hpc =>
    exact measure_lt_client (hin _ hpc (by simp)) hpc rfl rfl rfl (Nat.add_lt_add_right (by simp [Client.rank]) _)
  | gotAll b k hpc =>
    exact measure_lt_client (hin _ hpc (by simp)) hpc rfl rfl rfl (Nat.add_lt_add_right (by simp [Client.rank]) _)
  | setWaiting d hpc =>
    exact measure_lt_client (hin _ hpc (by simp)) hpc rfl rfl rfl (Nat.add_lt_add_right (by simp [Client.rank]) _)
  | waitLock d hpc =>
    exact measure_lt_client (hin _ hpc (by simp)) hpc rfl rfl rfl (Nat.add_lt_add_right (by simp [Client.rank]) _)
  | waitPass d hpc =>
    exact measure_lt_client (hin _ hpc (by simp)) hpc rfl rfl rfl (Nat.add_lt_add_right (by simp [Client.rank]) _)
  | waitFail d hpc =>
    exact measure_lt_client (hin _ hpc (by simp)) hpc rfl rfl rfl (Nat.add_lt_add_right (by simp [Client.rank]) _)
  | waitPark d hpc =>
    have hcons : (c :: s.taskDoneCv).length ≤ F.card := hdone'
    refine measure_lt_client (hin _ hpc (by simp)) hpc rfl rfl rfl ?_
    change _ + pending n F s.taskAvailableCv (c :: s.taskDoneCv) s.tasks < _
    simp only [Client.rank, pending, List.length_cons] at hcons ⊢
    omega
  | waitWake d hpc =>
    exact measure_lt_client (hin _ hpc (by simp)) hpc rfl rfl rfl (Nat.add_lt_add_right (by simp [Client.rank]) _)
  | unsetWaiting d hpc =>
    exact measure_lt_client (hin _ hpc (by simp)) hpc rfl rfl rfl (Nat.add_lt_add_right (by simp [Client.rank]) _)
  | waitLeave d hpc =>
    refine measure_lt_client (hin _ hpc (by simp)) hpc rfl rfl rfl (Nat.add_lt_add_right ?_ _)
    cases d <;> simp [Client.rank]
  | stop hpc =>
    have hlt : measure n F (s.client c .stopped) < measure n F s :=
      measure_lt_client (hin _ hpc (by simp)) hpc rfl rfl rfl (Nat.add_lt_add_right (by simp [Client.rank]) _)
    have hle : ∑ i ∈ Finset.range n, (s.workers i).rank false ≤
        ∑ i ∈ Finset.range n, (s.workers i).rank s.running :=
      Finset.sum_le_sum fun i _ => rank_stopped_le s.running (s.workers i)
    refine lt_of_le_of_lt ?_ hlt
    exact Nat.add_le_add_right (Nat.add_le_add_right hle _) _
  | notifyAll hpc =>
    refine measure_lt_client (hin _ hpc (by simp)) hpc rfl rfl rfl ?_
    change _ + pending n F [] s.taskDoneCv s.tasks < _
    simp only [Client.rank, pending, List.length_nil]
    omega
  | join k hpc hlt =>
    refine measure_lt_client (hin _ hpc (by simp)) hpc rfl rfl rfl (Nat.add_lt_add_right ?_ _)
    simp only [Client.rank]
    omega
  | joined k hpc =>
    exact measure_lt_client (hin _ hpc (by simp)) hpc rfl rfl rfl (Nat.add_lt_add_right (by simp [Client.rank]) _)

end Measure

/-! ### Runs without new calls -/

/-- A step of a thread that is in the pool's code. -/
def Internal : Act σ ε → Bool
  | .client _ _ | .worker _ _ => true
  | _ => false

/-- No thread can execute its next statement. -/
def Stuck (n : ℕ) (s : Pool σ ε) : Prop := ∀ a, Internal a = true → next n s a = none

theorem workers_of_workerStep {i pick : ℕ} (h : WorkerStep s i pick s') :
    s'.clients = s.clients ∧ s'.paused = s.paused ∧ s'.running = s.running ∧
      ∀ j, j ≠ i → s'.workers j = s.workers j := by
  cases h with
  | crash => exact ⟨rfl, rfl, rfl, fun _ _ => rfl⟩
  | _ => exact ⟨rfl, rfl, rfl, fun j hj => worker_ne _ _ _ hj⟩

theorem clients_of_clientStep {c pick : ℕ} (h : ClientStep n s c pick s') :
    s'.workers = s.workers ∧ s'.paused = s.paused ∧ (s'.running = true → s.running = true) ∧
      (∀ d, d ≠ c → s'.clients d = s.clients d) ∧ s.clients c ≠ .idle := by
  cases h with
  | stop hpc =>
    refine ⟨rfl, rfl, fun h => ?_, fun d hd => client_ne _ _ _ hd, by simp [hpc]⟩
    cases h
  | _ => exact ⟨rfl, rfl, id, fun d hd => client_ne _ _ _ hd, by simp [*]⟩

/-- What holds along a run without new calls; `F` are the threads that are in one. -/
structure Going (n : ℕ) (F : Finset ℕ) (s : Pool σ ε) : Prop where
  held : Held s
  ready : Ready s
  alive : Alive n s
  calls : ∀ c, c ∉ F → s.clients c = .idle
  unused : ∀ i, n ≤ i → s.workers i = .top
  unpaused : s.running = true → s.paused = false

theorem going_run (hn : 0 < n) (h : run (next n) (initial memory) acts = some s)
    (hp : s.running = true → s.paused = false) : ∃ F, Going n F s := by
  have hboth : (∃ F : Finset ℕ, ∀ c, c ∉ F → s.clients c = .idle) ∧ ∀ i, n ≤ i → s.workers i = .top := by
    refine run_keeps (next n) (fun s => (∃ F : Finset ℕ, ∀ c, c ∉ F → s.clients c = .idle) ∧
      ∀ i, n ≤ i → s.workers i = .top) ⟨⟨∅, fun _ _ => rfl⟩, fun _ _ => rfl⟩ ?_ h
    rintro s a s' ⟨⟨F, hF⟩, hun⟩ ha
    have hnew : ∀ c pc, (∀ d, d ∉ insert c F → (s.client c pc).clients d = .idle) := by
      intro c pc d hd
      rw [Finset.mem_insert, not_or] at hd
      rw [client_ne _ _ _ hd.1]
      exact hF d hd.2
    cases nextStep_of_next ha with
    | batch c b => exact ⟨⟨insert c F, hnew c _⟩, hun⟩
    | waitForTasks c => exact ⟨⟨insert c F, hnew c _⟩, hun⟩
    | destroy c => exact ⟨⟨insert c F, hnew c _⟩, hun⟩
    | client c pick _ hstep =>
      obtain ⟨hw, -, -, hother, -⟩ := clients_of_clientStep hstep
      refine ⟨⟨insert c F, fun d hd => ?_⟩, fun i hi => by rw [hw]; exact hun i hi⟩
      rw [Finset.mem_insert, not_or] at hd
      rw [hother d hd.1]
      exact hF d hd.2
    | worker i pick _ hi hstep =>
      obtain ⟨hc, -, -, hother⟩ := workers_of_workerStep hstep
      refine ⟨⟨F, fun d hd => by rw [hc]; exact hF d hd⟩, fun j hj => ?_⟩
      rw [hother j (by omega)]
      exact hun j hj
    | _ => exact ⟨⟨F, hF⟩, hun⟩
  obtain ⟨⟨F, hF⟩, hun⟩ := hboth
  exact ⟨F, held_run h, ready_run h, alive_run hn h, hF, hun, hp⟩

theorem ready_next {a : Act σ ε} (hH : Held s) (hR : Ready s) (ha : next n s a = some s') : Ready s' := by
  cases nextStep_of_next ha with
  | client c pick _ hstep => exact ready_clientStep hH hR hstep
  | worker i pick _ _ hstep => exact ready_workerStep hH hR hstep
  | _ => exact hR

/-- A statement of a thread keeps this, and lowers the measure. -/
theorem going_next {F : Finset ℕ} {a : Act σ ε} (hn : 0 < n) (hG : Going n F s) (hI : Internal a = true)
    (ha : next n s a = some s') : Going n F s' ∧ measure n F s' < measure n F s := by
  have hA' := alive_next hn hG.ready hG.alive ha
  have hH' := held_next hG.held ha
  have hR' := ready_next hG.held hG.ready ha
  cases nextStep_of_next ha with
  | client c pick _ hstep =>
    obtain ⟨hw, hpaused, hrun, hother, hidle⟩ := clients_of_clientStep hstep
    have hcF : c ∈ F := by
      by_contra hnot
      exact hidle (hG.calls c hnot)
    have hcalls : ∀ d, d ∉ F → s'.clients d = .idle := by
      intro d hd
      rw [hother d fun h => hd (h ▸ hcF)]
      exact hG.calls d hd
    refine ⟨⟨hH', hR', hA', hcalls, fun i hi => by rw [hw]; exact hG.unused i hi, fun h => ?_⟩,
      measure_clientStep hG.alive hA' hG.calls hcalls hstep⟩
    rw [hpaused]
    exact hG.unpaused (hrun h)
  | worker i pick _ hi hstep =>
    obtain ⟨hc, hpaused, hrun, hother⟩ := workers_of_workerStep hstep
    refine ⟨⟨hH', hR', hA', fun d hd => by rw [hc]; exact hG.calls d hd, fun j hj => ?_, fun h => ?_⟩,
      measure_workerStep hi hG.ready hG.alive hA' hG.unpaused hstep⟩
    · rw [hother j (by omega)]
      exact hG.unused j hj
    · rw [hpaused]
      exact hG.unpaused (hrun ▸ h)
  | _ => cases hI

/-- The threads run out of statements. -/
theorem run_length_le {F : Finset ℕ} (hn : 0 < n) {as : List (Act σ ε)} (hG : Going n F s)
    (hI : ∀ a ∈ as, Internal a = true) (h : run (next n) s as = some s') :
    Going n F s' ∧ as.length + measure n F s' ≤ measure n F s :=
  length_le_measure (next n) (fun _ _ _ hG hI ha => going_next hn hG hI ha) hG hI h

/-- Some run ends with nothing that can go on. -/
theorem exists_stuck {F : Finset ℕ} (hn : 0 < n) (hG : Going n F s) :
    ∃ as s', (∀ a ∈ as, Internal a = true) ∧ run (next n) s as = some s' ∧ Stuck n s' :=
  exists_halted (next n) (D := fun a => Internal a = true)
    (fun _ _ _ hG hI ha => going_next hn hG hI ha) hG

/-! ### When nothing can go on -/

/-- A thread in a critical section can go on. -/
theorem stepWorker_of_holds {i pick : ℕ} (h : (s.workers i).holds = true) : stepWorker s i pick ≠ none := by
  unfold stepWorker
  cases hpc : s.workers i <;> rw [hpc] at h <;> first | cases h; done | simp
  split <;> simp

theorem stepClient_of_holds {c pick : ℕ} (h : (s.clients c).holds = true) : stepClient n s c pick ≠ none := by
  unfold stepClient
  cases hpc : s.clients c <;> rw [hpc] at h <;> first | cases h; done | simp

/-- With the mutex free, a worker that cannot go on has exited or sleeps. -/
theorem worker_of_stuck {i pick : ℕ} (hfree : s.tasksMutex = none) (h : stepWorker s i pick = none) :
    s.workers i = .exited ∨ (s.workers i = .blocked ∧ i ∈ s.taskAvailableCv) := by
  unfold stepWorker at h
  cases hpc : s.workers i with
  | exited => exact Or.inl rfl
  | blocked => exact Or.inr ⟨rfl, by simpa [hpc, hfree] using h⟩
  | taking =>
    simp only [hpc] at h
    split at h <;> cases h
  | working t =>
    simp only [hpc] at h
    split at h
    · cases h
    · split at h <;> cases h
  | _ => simp [hpc, hfree] at h

/-- The call of the thread is over, or it has made none. -/
def Client.atRest : Client σ ε → Bool
  | .idle | .returned _ _ | .waited | .destroyed => true
  | _ => false

/-- What a thread waits for that cannot go on though the mutex is free. -/
inductive Waits (n : ℕ) (s : Pool σ ε) (c : ℕ) : Prop
  | nothing : (s.clients c).atRest = true → Waits n s c
  | future (b : Batch σ ε) (k : ℕ) : s.clients c = .getting b k → k < b.bodies.length →
    s.promises (c, k) = none → Waits n s c
  | done (d : Bool) : s.clients c = .waitBlocked d → c ∈ s.taskDoneCv → Waits n s c
  | exit (k : ℕ) : s.clients c = .joining k → k < n → s.workers k ≠ .exited → Waits n s c

theorem client_of_stuck {c pick : ℕ} (hfree : s.tasksMutex = none) (h : stepClient n s c pick = none) :
    Waits n s c := by
  unfold stepClient at h
  cases hpc : s.clients c with
  | submitting b k =>
    simp only [hpc, hfree] at h
    split at h <;> cases h
  | getting b k =>
    simp only [hpc] at h
    split at h
    · rename_i hlt
      split at h
      · rename_i hnone
        exact .future b k hpc hlt hnone
      · cases h
      · cases h
    · cases h
  | waitBlocked d => exact .done d hpc (by simpa [hpc, hfree] using h)
  | joining k =>
    simp only [hpc] at h
    split at h
    · rename_i hlt
      split at h
      · cases h
      · rename_i hne
        exact .exit k hpc hlt hne
    · cases h
  | idle => exact .nothing (by rw [hpc]; rfl)
  | returned b r => exact .nothing (by rw [hpc]; rfl)
  | waited => exact .nothing (by rw [hpc]; rfl)
  | destroyed => exact .nothing (by rw [hpc]; rfl)
  | _ => simp [hpc, hfree] at h

/-- The owner of the mutex can always go on. -/
theorem free_of_stuck {F : Finset ℕ} (hG : Going n F s) (hS : Stuck n s) : s.tasksMutex = none := by
  cases howner : s.tasksMutex with
  | none => rfl
  | some t =>
    have hholds := (hG.held t).mpr howner
    cases t with
    | worker i =>
      have hi : i < n := by
        by_contra hge
        have hheld : (s.workers i).holds = true := hholds
        rw [hG.unused i (by omega)] at hheld
        cases hheld
      have hnone := hS (.worker i 0) rfl
      rw [next, if_pos hi] at hnone
      exact absurd hnone (stepWorker_of_holds hholds)
    | client c => exact absurd (hS (.client c 0) rfl) (stepClient_of_holds hholds)

/-- What is left when nothing can go on. -/
theorem stuck_cases {F : Finset ℕ} (hG : Going n F s) (hS : Stuck n s) :
    (∀ i < n, s.workers i = .exited ∨ (s.workers i = .blocked ∧ i ∈ s.taskAvailableCv)) ∧ ∀ c, Waits n s c := by
  have hfree := free_of_stuck hG hS
  refine ⟨fun i hi => ?_, fun c => client_of_stuck hfree (hS (.client c 0) rfl)⟩
  have hnone := hS (.worker i 0) rfl
  rw [next, if_pos hi] at hnone
  exact worker_of_stuck hfree hnone

/-- The destructor has set `running = false`. -/
def Client.stops : Client σ ε → Bool
  | .stopped | .joining _ | .destroyed => true
  | _ => false

theorem stops_of_clientStep {c pick : ℕ} (h : ClientStep n s c pick s') :
    (s'.running = s.running ∧ (s'.clients c).stops = (s.clients c).stops) ∨
      (s'.running = false ∧ (s'.clients c).stops = true) := by
  cases h with
  | stop hpc => exact Or.inr ⟨rfl, congrArg Client.stops (client_self _ _ _)⟩
  | waitLeave d hpc => cases d <;> exact Or.inl ⟨rfl, by simp [Client.stops, hpc]⟩
  | _ => exact Or.inl ⟨rfl, by simp [Client.stops, *]⟩

/-- Whether the destructor has got as far as `running = false`. -/
theorem running_run (h : run (next n) (initial memory) acts = some s) :
    s.running = false ↔ ∃ c, (s.clients c).stops = true := by
  refine run_keeps (next n) (fun s => s.running = false ↔ ∃ c, (s.clients c).stops = true) ?_ ?_ h
  · simp [initial, Client.stops]
  intro s a s' hS ha
  have hidle : ∀ c pc, s.clients c = .idle → pc.stops = false →
      ((s.client c pc).running = false ↔ ∃ d, ((s.client c pc).clients d).stops = true) := by
    intro c pc hpc hnot
    refine hS.trans ⟨?_, ?_⟩ <;> rintro ⟨d, hd⟩ <;> refine ⟨d, ?_⟩ <;> by_cases hdc : d = c
    · subst hdc
      rw [hpc] at hd
      cases hd
    · rw [client_ne _ _ _ hdc]
      exact hd
    · subst hdc
      rw [client_self, hnot] at hd
      cases hd
    · rw [client_ne _ _ _ hdc] at hd
      exact hd
  cases nextStep_of_next ha with
  | batch c b hpc => exact hidle c _ hpc rfl
  | waitForTasks c hpc => exact hidle c _ hpc rfl
  | destroy c hpc => exact hidle c _ hpc rfl
  | client c pick _ hstep =>
    obtain ⟨-, -, -, hother, -⟩ := clients_of_clientStep hstep
    rcases stops_of_clientStep hstep with ⟨hrun, hsame⟩ | ⟨hrun, hstops⟩
    · rw [hrun, hS]
      refine exists_congr fun d => ?_
      by_cases hdc : d = c
      · subst hdc
        rw [hsame]
      · rw [hother d hdc]
    · exact ⟨fun _ => ⟨c, hstops⟩, fun _ => hrun⟩
  | worker i pick _ _ hstep =>
    obtain ⟨hc, -, hrun, -⟩ := workers_of_workerStep hstep
    rw [hrun, hc]
    exact hS
  | _ => exact hS

/-- While the pool runs, the threads stop only with an empty queue. -/
theorem tasks_of_stuck {F : Finset ℕ} (hG : Going n F s) (hS : Stuck n s) (hrun : s.running = true) :
    s.tasks = [] := by
  obtain ⟨hworkers, hclients⟩ := stuck_cases hG hS
  by_contra hne
  rcases hG.alive.wake hrun hne with ⟨i, hi, hup⟩ | ⟨c, hc⟩
  · rcases hworkers i hi with hpc | ⟨hpc, hcv⟩ <;> rw [hpc] at hup <;> rcases hup with hawake | ⟨hb, hnot⟩
    · cases hawake
    · cases hb
    · cases hawake
    · exact hnot hcv
  · cases hclients c with
    | nothing hrest => cases hpc : s.clients c <;> rw [hpc] at hc hrest <;> first | cases hc; done | cases hrest
    | future b k hpc => rw [hpc] at hc; cases hc
    | done d hpc => rw [hpc] at hc; cases hc
    | exit k hpc => rw [hpc] at hc; cases hc

/-- Then every task has ended. -/
theorem allEnded_of_stuck {F : Finset ℕ} (h : run (next n) (initial memory) acts = some s) (hG : Going n F s)
    (hS : Stuck n s) (htasks : s.tasks = []) : AllEnded s := by
  obtain ⟨hworkers, -⟩ := stuck_cases hG hS
  obtain ⟨hP, -⟩ := WorkQueue.inv_run (run_toWorkQueue h)
  intro c k hk
  rcases hP.somewhere c k hk with hq | ⟨i, t, ht, -⟩ | hr
  · have hnil : (toWorkQueue s).queue = [] := htasks
    rw [hnil] at hq
    cases hq
  · exfalso
    have htask : (s.workers i).task = some t := ht
    by_cases hi : i < n
    · rcases hworkers i hi with hpc | ⟨hpc, -⟩ <;> rw [hpc] at htask <;> cases htask
    · rw [hG.unused i (by omega)] at htask
      cases htask
  · exact Option.ne_none_iff_exists'.mp hr

/-- What the statements of the threads keep. -/
theorem internal_keeps {I : Pool σ ε → Prop} (h0 : I s)
    (hstep : ∀ s a s', I s → Internal a = true → next n s a = some s' → I s') {as : List (Act σ ε)}
    (hI : ∀ a ∈ as, Internal a = true) (h : run (next n) s as = some s') : I s' :=
  run_inv (next n) (C := fun _ a => Internal a = true) (fun _ s => I s) h0
    (fun _ s a s' _ hs ha hnext => hstep s a s' hs ha hnext) (along_of_forall (next n) s hI) h

/-- The thread is in the destructor. -/
def Client.destroys : Client σ ε → Bool
  | .waitEntered d | .waitLocking d | .waitTesting d | .waitParking d | .waitBlocked d => d
  | .waitOver d | .waitLeaving d => d
  | .stopping | .stopped | .joining _ | .destroyed => true
  | _ => false

/-- A statement does not leave the call that it is in. -/
theorem call_of_clientStep {c pick : ℕ} (h : ClientStep n s c pick s') :
    (s'.clients c).destroys = (s.clients c).destroys ∧
      (s'.clients c).batch.map Prod.fst = (s.clients c).batch.map Prod.fst := by
  cases h with
  | waitLeave d hpc => cases d <;> simp [Client.destroys, Client.batch, hpc]
  | _ => simp [Client.destroys, Client.batch, *]

theorem call_of_internal {a : Act σ ε} (hI : Internal a = true) (ha : next n s a = some s') (c : ℕ) :
    (s'.clients c).destroys = (s.clients c).destroys ∧
      (s'.clients c).batch.map Prod.fst = (s.clients c).batch.map Prod.fst := by
  cases nextStep_of_next ha with
  | client d pick _ hstep =>
    by_cases hcd : c = d
    · subst hcd
      exact call_of_clientStep hstep
    · rw [(clients_of_clientStep hstep).2.2.2.1 c hcd]
      exact ⟨rfl, rfl⟩
  | worker i pick _ _ hstep =>
    rw [(workers_of_workerStep hstep).1]
    exact ⟨rfl, rfl⟩
  | _ => cases hI

/-- The threads run out of statements, and then no call waits for a future. -/
theorem ended_of_stuck (hpos : 0 < n) (h : run (next n) (initial memory) acts = some s)
    (hd : ∀ c, (s.clients c).destroys = false) (hp : s.paused = false) :
    ∃ N, ∀ as s', (∀ a ∈ as, Internal a = true) → run (next n) s as = some s' →
      as.length ≤ N ∧ (Stuck n s' → s'.tasks = [] ∧ AllEnded s' ∧
        ∀ c b k, (s.clients c).batch = some (b, k) → ∃ r, s'.clients c = .returned b r) := by
  obtain ⟨F, hG⟩ := going_run hpos h fun _ => hp
  refine ⟨measure n F s, fun as s' hI hrun => ?_⟩
  obtain ⟨hG', hle⟩ := run_length_le hpos hG hI hrun
  refine ⟨by omega, fun hS => ?_⟩
  have hfrom : run (next n) (initial memory) (acts ++ as) = some s' := by
    rw [run_append, h]
    exact hrun
  have hcall : ∀ c, (s'.clients c).destroys = (s.clients c).destroys ∧
      (s'.clients c).batch.map Prod.fst = (s.clients c).batch.map Prod.fst := by
    intro c
    refine internal_keeps (I := fun t => (t.clients c).destroys = (s.clients c).destroys ∧
      (t.clients c).batch.map Prod.fst = (s.clients c).batch.map Prod.fst) ⟨rfl, rfl⟩ ?_ hI hrun
    rintro t a t' ⟨h1, h2⟩ ha hnext
    obtain ⟨h3, h4⟩ := call_of_internal ha hnext c
    exact ⟨h3.trans h1, h4.trans h2⟩
  have hrunning : s'.running = true := by
    by_contra hnot
    obtain ⟨c, hc⟩ := (running_run hfrom).mp (by simpa using hnot)
    have hnone := (hcall c).1.trans (hd c)
    cases hpc : s'.clients c <;> rw [hpc] at hc hnone <;> first | cases hc; done | cases hnone
  have htasks := tasks_of_stuck hG' hS hrunning
  have hended := allEnded_of_stuck hfrom hG' hS htasks
  refine ⟨htasks, hended, fun c b k hb => ?_⟩
  have hbatch : (s'.clients c).batch.map Prod.fst = some b := by
    rw [(hcall c).2, hb]
    rfl
  cases (stuck_cases hG' hS).2 c with
  | nothing hrest =>
    cases hpc : s'.clients c with
    | returned b' r =>
      rw [hpc] at hbatch
      exact ⟨r, by rw [show b' = b from Option.some.inj hbatch]⟩
    | _ => rw [hpc] at hrest hbatch; first | cases hrest; done | cases hbatch
  | future b' j hpc hj hnone =>
    have hsub : (s'.clients c).submitted = b'.bodies.take b'.bodies.length := congrArg Client.submitted hpc
    obtain ⟨r, hr⟩ := hended c j (by rw [hsub, List.take_length]; exact hj)
    rw [hnone] at hr
    cases hr
  | done d hpc => rw [hpc] at hbatch; cases hbatch
  | exit j hpc => rw [hpc] at hbatch; cases hbatch

/-- On a pool that is not paused and not being destroyed the threads run out of
statements, whatever the scheduler does, and then every task has ended and
every call has its results. -/
theorem calls_return {threadCount hardwareConcurrency : ℕ}
    (hn : n = determineThreadCount threadCount hardwareConcurrency)
    (h : run (next n) (initial memory) acts = some s) (hd : ∀ c, (s.clients c).destroys = false)
    (hp : s.paused = false) :
    (∃ N, ∀ as s', (∀ a ∈ as, Internal a = true) → run (next n) s as = some s' → as.length ≤ N ∧
      (Stuck n s' → s'.tasks = [] ∧ AllEnded s' ∧
        ∀ c b k, (s.clients c).batch = some (b, k) → ∃ r, s'.clients c = .returned b r)) ∧
      ∃ as s', (∀ a ∈ as, Internal a = true) ∧ run (next n) s as = some s' ∧ Stuck n s' := by
  have hpos : 0 < n := hn ▸ determineThreadCount_pos threadCount hardwareConcurrency
  obtain ⟨F, hG⟩ := going_run hpos h fun _ => hp
  exact ⟨ended_of_stuck hpos h hd hp, exists_stuck hpos hG⟩

theorem calls_return_twoTasks : ∃ s N, run (next 1) (initial fun _ => 0) twoTasks = some s ∧
    ∀ as s', (∀ a ∈ as, Internal a = true) → run (next 1) s as = some s' →
      as.length ≤ N ∧ (Stuck 1 s' → s'.tasks = [] ∧ AllEnded s' ∧
        ∀ c b k, (s.clients c).batch = some (b, k) → ∃ r, s'.clients c = .returned b r) := by
  obtain ⟨⟨N, hN⟩, -⟩ := calls_return (show 1 = determineThreadCount 1 0 from rfl)
    (show run (next 1) (initial fun _ => 0) twoTasks = some _ from rfl) (fun c => by cases c <;> rfl) rfl
  exact ⟨_, N, rfl, hN⟩

end ThreadPool
end Lbl
end Ortoa
