/-
# The destructor of the pool

`~thread_pool` waits for all tasks, sets `running = false`, notifies all
workers and joins them. The flag is set and the workers are notified outside
of the critical section, so a worker that has found the queue empty and
`running` set, and is about to block, sleeps through both, and `join` waits for
it for ever. When no other call is in progress this is the only way to hang:
the wait always ends (`destructor_waits`), and then the destructor returns
exactly when no worker is about to block at `notify_all`
(`destructor_returns_iff`).

Key definitions: `Ending`, `Phase`.
Key theorems: `ending_internal`, `destructor_returns_iff`, `destroying_internal`, `not_asleep_of_stuck`,
`destructor_waits`.
-/
import Ortoa.Lbl.ThreadPoolProgress

namespace Ortoa
namespace Lbl
namespace ThreadPool

variable {σ ε : Type} {n : ℕ} {memory : ℕ → σ} {acts : List (Act σ ε)} {s s' : Pool σ ε}

/-- A thread whose call is over executes nothing. -/
theorem not_atRest_of_clientStep {c pick : ℕ} (h : ClientStep n s c pick s') : (s.clients c).atRest = false := by
  cases h <;> simp [Client.atRest, *]

/-! ### After `notify_all` -/

/-- The pool after the `notify_all` of the destructor that `c` runs; `asleep`
are the workers that were about to block then. -/
structure Ending (n : ℕ) (asleep : ℕ → Prop) (c : ℕ) (s : Pool σ ε) : Prop where
  stopped : s.running = false
  alone : ∀ d, d ≠ c → (s.clients d).atRest = true
  sleepers : ∀ i, (s.workers i = .parking ∨ i ∈ s.taskAvailableCv) ↔ asleep i
  joins : (∃ k, s.clients c = .joining k ∧ ∀ i < k, s.workers i = .exited) ∨
    (s.clients c = .destroyed ∧ ∀ i < n, s.workers i = .exited)

section Ending

variable {asleep : ℕ → Prop} {c : ℕ}

/-- A worker moves, but neither to where it is about to block nor from there. -/
theorem Ending.worker (hE : Ending n asleep c s) {i : ℕ} {pc : Worker σ ε} (hne : s.workers i ≠ .parking)
    (hne' : pc ≠ .parking) (hexit : s.workers i ≠ .exited)
    (hw : s'.workers = Function.update s.workers i pc) (hcv : s'.taskAvailableCv = s.taskAvailableCv)
    (hrun : s'.running = s.running) (hc : s'.clients = s.clients) : Ending n asleep c s' := by
  have hother : ∀ j, s.workers j = .exited → s'.workers j = .exited := by
    intro j hj
    have hji : j ≠ i := by
      rintro rfl
      exact hexit hj
    rw [hw, Function.update_of_ne hji]
    exact hj
  refine ⟨hrun.trans hE.stopped, fun d hd => by rw [hc]; exact hE.alone d hd, fun j => ?_, ?_⟩
  · rw [← hE.sleepers j, hcv, hw]
    by_cases hji : j = i
    · subst hji
      rw [Function.update_self]
      simp [hne, hne']
    · rw [Function.update_of_ne hji]
  · rw [hc]
    rcases hE.joins with ⟨k, hk, hall⟩ | ⟨hd, hall⟩
    · exact Or.inl ⟨k, hk, fun j hj => hother j (hall j hj)⟩
    · exact Or.inr ⟨hd, fun j hj => hother j (hall j hj)⟩

/-- A worker blocks that was about to. -/
theorem Ending.park (hE : Ending n asleep c s) {i : ℕ} (hpc : s.workers i = .parking) :
    Ending n asleep c ({ s with
      tasksMutex := none, taskAvailableCv := i :: s.taskAvailableCv }.worker i .blocked) := by
  have hother : ∀ j, s.workers j = .exited → Function.update s.workers i .blocked j = .exited := by
    intro j hj
    have hji : j ≠ i := by
      rintro rfl
      rw [hpc] at hj
      cases hj
    rw [Function.update_of_ne hji]
    exact hj
  refine ⟨hE.stopped, hE.alone, fun j => ?_, ?_⟩
  · rw [← hE.sleepers j]
    show (Function.update s.workers i .blocked j = .parking ∨ j ∈ i :: s.taskAvailableCv) ↔ _
    by_cases hji : j = i
    · subst hji
      simp [hpc]
    · rw [Function.update_of_ne hji, List.mem_cons, or_iff_right hji]
  · rcases hE.joins with ⟨k, hk, hall⟩ | ⟨hd, hall⟩
    · exact Or.inl ⟨k, hk, fun j hj => hother j (hall j hj)⟩
    · exact Or.inr ⟨hd, fun j hj => hother j (hall j hj)⟩

theorem ending_workerStep {i pick : ℕ} (hE : Ending n asleep c s) (h : WorkerStep s i pick s') :
    Ending n asleep c s' := by
  cases h with
  | enter hpc hrun => rw [hE.stopped] at hrun; cases hrun
  | fail hpc _ hrun => rw [hE.stopped] at hrun; cases hrun
  | park hpc => exact hE.park hpc
  | crash => exact ⟨hE.stopped, hE.alone, hE.sleepers, hE.joins⟩
  | _ => exact hE.worker (by simp [*]) (by simp) (by simp [*]) rfl rfl rfl rfl

theorem ending_clientStep {d pick : ℕ} (hE : Ending n asleep c s) (h : ClientStep n s d pick s') :
    Ending n asleep c s' := by
  have hdc : d = c := by
    by_contra hne
    have hrest := hE.alone d hne
    rw [not_atRest_of_clientStep h] at hrest
    cases hrest
  subst hdc
  have halone : ∀ pc, ∀ e, e ≠ d → ((s.client d pc).clients e).atRest = true := by
    intro pc e he
    rw [client_ne _ _ _ he]
    exact hE.alone e he
  rcases hE.joins with ⟨k, hk, hall⟩ | ⟨hdone, -⟩
  · cases h with
    | join j hpc hlt hexited =>
      rw [hk] at hpc
      obtain rfl : k = j := Client.joining.inj hpc
      refine ⟨hE.stopped, halone _, hE.sleepers, Or.inl ⟨k + 1, client_self _ _ _, fun i hi => ?_⟩⟩
      rcases Nat.lt_succ_iff_lt_or_eq.mp hi with hlt' | rfl
      · exact hall i hlt'
      · exact hexited
    | joined j hpc hle =>
      rw [hk] at hpc
      obtain rfl : k = j := Client.joining.inj hpc
      exact ⟨hE.stopped, halone _, hE.sleepers, Or.inr ⟨client_self _ _ _, fun i hi => hall i (by omega)⟩⟩
    | _ => simp_all
  · have hrest := not_atRest_of_clientStep h
    rw [hdone] at hrest
    cases hrest

end Ending

theorem ending_internal {asleep : ℕ → Prop} {c : ℕ} {a : Act σ ε} (hE : Ending n asleep c s)
    (hI : Internal a = true) (ha : next n s a = some s') : Ending n asleep c s' := by
  cases nextStep_of_next ha with
  | client d pick _ hstep => exact ending_clientStep hE hstep
  | worker i pick _ _ hstep => exact ending_workerStep hE hstep
  | _ => cases hI

/-- The destructor has the pool to itself and notifies all workers. It returns
exactly when no worker was about to block. -/
theorem destructor_returns_iff {threadCount hardwareConcurrency : ℕ}
    (hn : n = determineThreadCount threadCount hardwareConcurrency)
    (h : run (next n) (initial memory) acts = some s) {c pick : ℕ} (hc : s.clients c = .stopped)
    (halone : ∀ d, d ≠ c → (s.clients d).atRest = true) (ha : next n s (.client c pick) = some s') :
    ∃ N, ∀ as t, (∀ a ∈ as, Internal a = true) → run (next n) s' as = some t → as.length ≤ N ∧
      (Stuck n t → (t.clients c = .destroyed ↔ ∀ i < n, s.workers i ≠ .parking)) := by
  have hpos : 0 < n := hn ▸ determineThreadCount_pos threadCount hardwareConcurrency
  have hstopped : s.running = false := (running_run h).mpr ⟨c, by rw [hc]; rfl⟩
  have hs' : s' = { s with taskAvailableCv := [] }.client c (.joining 0) := by
    simpa [next, stepClient, hc] using ha.symm
  have hE : Ending n (fun i => s.workers i = .parking) c s' := by
    subst hs'
    refine ⟨hstopped, fun d hd => ?_, fun i => ?_, Or.inl ⟨0, client_self _ _ _, fun i hi => absurd hi (by omega)⟩⟩
    · rw [client_ne _ _ _ hd]
      exact halone d hd
    · exact or_iff_left List.not_mem_nil
  have hfrom : run (next n) (initial memory) (acts ++ [.client c pick]) = some s' :=
    (run_concat (next n)).mpr ⟨s, h, ha⟩
  obtain ⟨F, hG⟩ := going_run hpos hfrom fun hrun => by rw [hE.stopped] at hrun; cases hrun
  refine ⟨measure n F s', fun as t hI hrun => ?_⟩
  obtain ⟨hG', hle⟩ := run_length_le hpos hG hI hrun
  refine ⟨by omega, fun hS => ?_⟩
  have hE' : Ending n (fun i => s.workers i = .parking) c t :=
    internal_keeps hE (fun _ _ _ hE hI ha => ending_internal hE hI ha) hI hrun
  obtain ⟨hworkers, hclients⟩ := stuck_cases hG' hS
  constructor
  · intro hd i hi hpark
    have hexited : t.workers i = .exited := by
      rcases hE'.joins with ⟨k, hk, -⟩ | ⟨-, hall⟩
      · rw [hk] at hd
        cases hd
      · exact hall i hi
    rcases (hE'.sleepers i).mpr hpark with hparking | hcv
    · rw [hexited] at hparking
      cases hparking
    · have hblocked := (hG'.alive.cvBlocked i hcv).2
      rw [hexited] at hblocked
      cases hblocked
  · intro hnone
    have hexited : ∀ i < n, t.workers i = .exited := fun i hi =>
      (hworkers i hi).resolve_right fun hb => hnone i hi ((hE'.sleepers i).mp (Or.inr hb.2))
    rcases hE'.joins with ⟨k, hk, -⟩ | ⟨hd, -⟩
    · cases hclients c with
      | exit j hpc hlt hne => exact absurd (hexited j hlt) hne
      | nothing hrest => rw [hk] at hrest; cases hrest
      | future b j hpc => rw [hk] at hpc; cases hpc
      | done d hpc => rw [hk] at hpc; cases hpc
    · exact hd

/-- The worker is about to block when the destructor has set `running = false`. -/
def lateWorker : List (Act ℕ Unit) :=
  [.destroy 0, .client 0 0, .client 0 0, .client 0 0, .client 0 0, .client 0 0, .worker 0 0, .worker 0 0,
    .worker 0 0, .client 0 0]

/-- `join` never returns. -/
theorem destructor_hangs : ∃ s s', run (next 1) (initial fun _ => 0) lateWorker = some s ∧
    next 1 s (.client 0 0) = some s' ∧ s.workers 0 = .parking ∧
    ∀ as t, (∀ a ∈ as, Internal a = true) → run (next 1) s' as = some t → Stuck 1 t →
      t.clients 0 ≠ .destroyed := by
  refine ⟨_, _, rfl, rfl, rfl, fun as t hI hrun hS hd => ?_⟩
  obtain ⟨N, hN⟩ := destructor_returns_iff (show 1 = determineThreadCount 1 0 from rfl)
    (show run (next 1) (initial fun _ => 0) lateWorker = some _ from rfl) (c := 0) rfl
    (fun d hd => by cases d with
      | zero => exact absurd rfl hd
      | succ d => rfl) (show next 1 _ (.client 0 0) = some _ from rfl)
  exact ((hN as t hI hrun).2 hS).mp hd 0 Nat.one_pos rfl

/-! ### The wait of the destructor -/

/-- A worker has counted its task and has yet to notify the waiting thread. -/
def Signals (workers : ℕ → Worker σ ε) : Prop := ∃ i, workers i = .counted ∨ workers i = .notifying

/-- What holds while the destructor of thread `c` is at `pc`, if no other call
is in progress. -/
def Phase (c : ℕ) (waiting : Bool) (total : BitVec 64) (done : List ℕ) (workers : ℕ → Worker σ ε) :
    Client σ ε → Prop
  | .waitEntered _ => True
  | .waitLocking _ | .waitTesting _ => waiting = true
  | .waitParking _ => waiting = true ∧ total ≠ 0
  | .waitBlocked _ => waiting = true ∧ (c ∈ done → total ≠ 0 ∨ Signals workers)
  | .waitOver _ | .waitLeaving _ | .stopping | .stopped | .joining _ | .destroyed => total = 0
  | _ => False

/-- The destructor of thread `c` has the pool to itself, with `M` tasks at most. -/
structure Destroying (c M : ℕ) (s : Pool σ ε) : Prop where
  alone : ∀ d, d ≠ c → (s.clients d).atRest = true ∧ (s.clients d).stops = false
  mine : (s.clients c).destroys = true
  unpaused : s.paused = false
  few : ∃ busy, Counts s ∅ busy ∧ s.tasks.length + busy.card ≤ M
  phase : Phase c s.waiting s.tasksTotal s.taskDoneCv s.workers (s.clients c)

section Destroying

variable {c M : ℕ} {waiting : Bool} {total : BitVec 64} {done : List ℕ} {workers workers' : ℕ → Worker σ ε}

theorem Phase.signals {pc : Client σ ε} (hP : Phase c waiting total done workers pc)
    (h : Signals workers → Signals workers') : Phase c waiting total done workers' pc := by
  cases pc <;> first | exact hP | exact ⟨hP.1, fun hc => (hP.2 hc).imp_right h⟩

/-- A worker moves that has nothing to signal. -/
theorem Phase.worker {pc : Client σ ε} (hP : Phase c waiting total done workers pc) {i : ℕ} {pc' : Worker σ ε}
    (h : workers i ≠ .counted) (h' : workers i ≠ .notifying) :
    Phase c waiting total done (Function.update workers i pc') pc := by
  refine hP.signals ?_
  rintro ⟨j, hj⟩
  have hji : j ≠ i := by
    rintro rfl
    exact hj.elim h h'
  refine ⟨j, ?_⟩
  rw [Function.update_of_ne hji]
  exact hj

/-- A worker moves that still has to signal. -/
theorem Phase.signalling {pc : Client σ ε} (hP : Phase c waiting total done workers pc) {i : ℕ}
    {pc' : Worker σ ε} (h : pc' = .counted ∨ pc' = .notifying) :
    Phase c waiting total done (Function.update workers i pc') pc :=
  hP.signals fun _ => ⟨i, by rwa [Function.update_self]⟩

/-- The counter is zero only if no task is left. -/
theorem total_eq_zero {busy : Finset ℕ} (hC : Counts s ∅ busy) (hlt : s.tasks.length + busy.card < 2 ^ 64) :
    s.tasksTotal = 0 ↔ s.tasks.length + busy.card = 0 := by
  have htotal := hC.total
  have hnat : s.tasksTotal = 0 ↔ s.tasksTotal.toNat = 0 := BitVec.toNat_eq
  have hbound := s.tasksTotal.isLt
  rw [hnat]
  rw [Finset.card_empty] at htotal
  omega

/-- The one thread that waits is woken. -/
theorem not_mem_notifyOne {pick : ℕ} (hnodup : done.Nodup) (hdone : ∀ d ∈ done, d = c) :
    c ∉ notifyOne done pick := by
  intro hmem
  obtain ⟨d, hd, hnot⟩ := exists_woken hnodup (List.ne_nil_of_mem ((List.eraseIdx_sublist _ _).subset hmem)) pick
  exact hnot (hdone d hd ▸ hmem)

theorem phase_workerStep {i pick : ℕ} (hH : Held s) (hnodup : s.taskDoneCv.Nodup)
    (hdone : ∀ d ∈ s.taskDoneCv, d = c) {busy : Finset ℕ} (hC : Counts s ∅ busy)
    (hlt : s.tasks.length + busy.card < 2 ^ 64)
    (hP : Phase c s.waiting s.tasksTotal s.taskDoneCv s.workers (s.clients c)) (h : WorkerStep s i pick s') :
    Phase c s'.waiting s'.tasksTotal s'.taskDoneCv s'.workers (s.clients c) := by
  cases h with
  | crash => exact hP
  | count hpc =>
    -- the worker holds the mutex, and its task is still counted
    have hheld : s.holding (.worker i) = true := congrArg Worker.holds hpc
    have hnot : ∀ pc, s.clients c = pc → pc.holds = false := by
      intro pc hpc'
      by_contra hyou
      have hyou' : s.holding (.client c) = true := by
        show (s.clients c).holds = true
        rw [hpc']
        exact Bool.eq_true_of_not_eq_false hyou
      have := hH.unique hheld hyou'
      cases this
    have hbusy : s.tasksTotal ≠ 0 := by
      rw [Ne, total_eq_zero hC hlt]
      have hmem : i ∈ busy := (hC.mem_busy i).mpr (by rw [hpc]; rfl)
      have := Finset.card_pos.mpr ⟨i, hmem⟩
      omega
    have hsignals : Signals (Function.update s.workers i .counted) := ⟨i, Or.inl (Function.update_self _ _ _)⟩
    cases hpc' : s.clients c <;> rw [hpc'] at hP <;>
      first
        | exact hP
        | exact ⟨hP.1, fun _ => Or.inr hsignals⟩
        | exact absurd hP hbusy
        | cases hnot _ hpc'
  | awaited hpc => exact hP.signalling (Or.inr rfl)
  | unawaited hpc hwaiting =>
    rw [hwaiting] at hP
    cases hpc' : s.clients c <;> rw [hpc'] at hP <;>
      first
        | exact hP
        | cases hP; done
        | cases hP.1
  | notify hpc =>
    have hwoken : c ∉ notifyOne s.taskDoneCv pick := not_mem_notifyOne hnodup hdone
    cases hpc' : s.clients c <;> rw [hpc'] at hP <;>
      first
        | exact hP
        | exact ⟨hP.1, fun hc => absurd hc hwoken⟩
  | _ => exact hP.worker (by simp [*]) (by simp [*])

theorem phase_clientStep {pick : ℕ} (hp : s.paused = false) (hmine : (s.clients c).destroys = true)
    (hP : Phase c s.waiting s.tasksTotal s.taskDoneCv s.workers (s.clients c)) (h : ClientStep n s c pick s') :
    Phase c s'.waiting s'.tasksTotal s'.taskDoneCv s'.workers (s'.clients c) := by
  cases h with
  | setWaiting d hpc =>
    rw [client_self]
    rfl
  | waitLock d hpc =>
    rw [hpc] at hP
    rw [client_self]
    exact hP
  | waitPass d hpc htest =>
    rw [hp] at htest
    rw [client_self]
    exact htest
  | waitFail d hpc htest =>
    rw [hp] at htest
    rw [hpc] at hP
    rw [client_self]
    exact ⟨hP, htest⟩
  | waitPark d hpc =>
    rw [hpc] at hP
    rw [client_self]
    exact ⟨hP.1, fun _ => Or.inl hP.2⟩
  | waitWake d hpc =>
    rw [hpc] at hP
    rw [client_self]
    exact hP.1
  | unsetWaiting d hpc =>
    rw [hpc] at hP
    rw [client_self]
    exact hP
  | waitLeave d hpc =>
    rw [hpc] at hP hmine
    obtain rfl : d = true := hmine
    rw [client_self]
    exact hP
  | stop hpc => rw [hpc] at hP; rw [client_self]; exact hP
  | notifyAll hpc => rw [hpc] at hP; rw [client_self]; exact hP
  | join k hpc => rw [hpc] at hP; rw [client_self]; exact hP
  | joined k hpc => rw [hpc] at hP; rw [client_self]; exact hP
  | _ => exfalso; simp_all [Phase]

/-- The destructor submits nothing. -/
theorem tasks_of_destroys {pick : ℕ} (hmine : (s.clients c).destroys = true) (h : ClientStep n s c pick s') :
    s'.tasks = s.tasks := by
  cases h with
  | push b k body hpc =>
    rw [hpc] at hmine
    cases hmine
  | _ => rfl

/-- A call that rests or destroys leaves no task uncounted. -/
theorem gap_eq_empty {gap busy : Finset ℕ} (hC : Counts s gap busy)
    (hquiet : ∀ d, (s.clients d).atRest = true ∨ (s.clients d).destroys = true) : gap = ∅ := by
  apply Finset.eq_empty_of_forall_notMem
  intro d hd
  have hun := (hC.mem_gap d).mp hd
  rcases hquiet d with hq | hq <;> cases hpc : s.clients d <;> rw [hpc] at hun hq <;>
    first | cases hun; done | cases hq

theorem destroying_internal {F : Finset ℕ} {a : Act σ ε} (hM : M < 2 ^ 64) (hG : Going n F s)
    (hD : Destroying c M s) (hI : Internal a = true) (ha : next n s a = some s') : Destroying c M s' := by
  obtain ⟨busy, hC, hle⟩ := hD.few
  cases nextStep_of_next ha with
  | client d pick _ hstep =>
    have hdc : d = c := by
      by_contra hne
      have hrest := (hD.alone d hne).1
      rw [not_atRest_of_clientStep hstep] at hrest
      cases hrest
    subst hdc
    obtain ⟨-, hpaused, -, hother, -⟩ := clients_of_clientStep hstep
    have halone : ∀ e, e ≠ d → (s'.clients e).atRest = true ∧ (s'.clients e).stops = false := by
      intro e he
      rw [hother e he]
      exact hD.alone e he
    have hmine : (s'.clients d).destroys = true := (call_of_clientStep hstep).1.trans hD.mine
    obtain ⟨gap, hC', -, -⟩ := counts_clientStep hC hstep
    obtain rfl : gap = ∅ := gap_eq_empty hC' fun e => by
      by_cases he : e = d
      · exact Or.inr (he ▸ hmine)
      · exact Or.inl (halone e he).1
    exact ⟨halone, hmine, hpaused.trans hD.unpaused, ⟨busy, hC', by rwa [tasks_of_destroys hD.mine hstep]⟩,
      phase_clientStep hD.unpaused hD.mine hD.phase hstep⟩
  | worker i pick _ _ hstep =>
    obtain ⟨hc, hpaused, -, -⟩ := workers_of_workerStep hstep
    obtain ⟨busy', hC', hle'⟩ := counts_workerStep hC hstep
    have hdone : ∀ d ∈ s.taskDoneCv, d = c := by
      intro d hd
      by_contra hne
      obtain ⟨e, he⟩ := hG.alive.doneBlocked d hd
      have hrest := (hD.alone d hne).1
      rw [he] at hrest
      cases hrest
    have hphase := phase_workerStep hG.held hG.alive.doneNodup hdone hC (hle.trans_lt hM) hD.phase hstep
    rw [← hc] at hphase
    exact ⟨by rw [hc]; exact hD.alone, by rw [hc]; exact hD.mine, hpaused.trans hD.unpaused,
      ⟨busy', hC', hle'.trans hle⟩, hphase⟩
  | _ => cases hI

/-- When nothing can go on the destructor is not asleep: no task is left, and
no worker is about to notify. -/
theorem not_asleep_of_stuck {F : Finset ℕ} {d : Bool} (hM : M < 2 ^ 64) (hG : Going n F s)
    (hD : Destroying c M s) (hS : Stuck n s) (hrun : s.running = true) (hpc : s.clients c = .waitBlocked d) :
    c ∉ s.taskDoneCv := by
  intro hasleep
  obtain ⟨hworkers, -⟩ := stuck_cases hG hS
  obtain ⟨busy, hC, hfew⟩ := hD.few
  have hidle : ∀ i, s.workers i = .exited ∨ s.workers i = .blocked ∨ s.workers i = .top := by
    intro i
    by_cases hi : i < n
    · exact (hworkers i hi).imp_right fun hb => Or.inl hb.1
    · exact Or.inr (Or.inr (hG.unused i (by omega)))
  have hempty : busy = ∅ := by
    refine Finset.eq_empty_of_forall_notMem fun i hi => ?_
    have hbusy := (hC.mem_busy i).mp hi
    rcases hidle i with hw | hw | hw <;> rw [hw] at hbusy <;> cases hbusy
  have hzero := (total_eq_zero hC (hfew.trans_lt hM)).mpr (by rw [tasks_of_stuck hG hS hrun, hempty]; rfl)
  have hphase := hD.phase
  rw [hpc] at hphase
  rcases hphase.2 hasleep with hne | ⟨i, hi⟩
  · exact hne hzero
  · rcases hidle i with hw | hw | hw <;> rw [hw] at hi <;> rcases hi with hi | hi <;> cases hi

end Destroying

/-- The destructor is called when no other call is in progress and the pool is
not paused. Its wait ends with every task, and it returns, or waits in `join`
for ever for a worker that is blocked. -/
theorem destructor_waits {threadCount hardwareConcurrency : ℕ}
    (hn : n = determineThreadCount threadCount hardwareConcurrency)
    (h : run (next n) (initial memory) acts = some s) (hlen : acts.length < 2 ^ 64) {c : ℕ}
    (hc : s.clients c = .waitEntered true) (halone : ∀ d, d ≠ c → (s.clients d).atRest = true)
    (hrunning : s.running = true) (hp : s.paused = false) : ∃ N, ∀ as t, (∀ a ∈ as, Internal a = true) →
      run (next n) s as = some t → as.length ≤ N ∧ (Stuck n t → AllEnded t ∧ (t.clients c = .destroyed ∨
        ∃ k, t.clients c = .joining k ∧ t.workers k = .blocked ∧ k ∈ t.taskAvailableCv)) := by
  have hpos : 0 < n := hn ▸ determineThreadCount_pos threadCount hardwareConcurrency
  have hnone : ∀ d, (s.clients d).stops = false := by
    intro d
    by_contra hd
    have hstopped := (running_run h).mpr ⟨d, Bool.eq_true_of_not_eq_false hd⟩
    rw [hrunning] at hstopped
    cases hstopped
  obtain ⟨F, hG⟩ := going_run hpos h fun _ => hp
  obtain ⟨gap, busy, hC, -, hle⟩ := counts_run h
  obtain rfl : gap = ∅ := gap_eq_empty hC fun d => by
    by_cases hd : d = c
    · rw [hd, hc]
      exact Or.inr rfl
    · exact Or.inl (halone d hd)
  have hD : Destroying c acts.length s :=
    ⟨fun d hd => ⟨halone d hd, hnone d⟩, by rw [hc]; rfl, hp, ⟨busy, hC, hle⟩, by rw [hc]; trivial⟩
  refine ⟨measure n F s, fun as t hI hrun => ?_⟩
  have hboth : Going n F t ∧ Destroying c acts.length t := by
    refine internal_keeps (I := fun t => Going n F t ∧ Destroying c acts.length t) ⟨hG, hD⟩ ?_ hI hrun
    rintro u a u' ⟨hGu, hDu⟩ ha hnext
    exact ⟨(going_next hpos hGu ha hnext).1, destroying_internal hlen hGu hDu ha hnext⟩
  obtain ⟨hG', hD'⟩ := hboth
  obtain ⟨-, hle'⟩ := run_length_le hpos hG hI hrun
  refine ⟨by omega, fun hS => ?_⟩
  have hfrom : run (next n) (initial memory) (acts ++ as) = some t := by
    rw [run_append, h]
    exact hrun
  obtain ⟨busy', hC', hfew⟩ := hD'.few
  have hzero := total_eq_zero hC' (hfew.trans_lt hlen)
  obtain ⟨hworkers, hclients⟩ := stuck_cases hG' hS
  have hphase := hD'.phase
  have hmine := hD'.mine
  cases hclients c with
  | nothing hrest =>
    have hd : t.clients c = .destroyed := by
      cases hpc : t.clients c <;> rw [hpc] at hrest hmine <;> first | rfl | cases hrest; done | cases hmine
    rw [hd] at hphase
    exact ⟨allEnded_of_unoccupied hfrom hC' (hzero.mp hphase), Or.inl hd⟩
  | future b k hpc =>
    rw [hpc] at hmine
    cases hmine
  | exit k hpc hlt hne =>
    rw [hpc] at hphase
    obtain ⟨hb, hcv⟩ := (hworkers k hlt).resolve_left hne
    exact ⟨allEnded_of_unoccupied hfrom hC' (hzero.mp hphase), Or.inr ⟨k, hpc, hb, hcv⟩⟩
  | done d hpc hasleep =>
    have hrun' : t.running = true := by
      by_contra hnot
      obtain ⟨e, he⟩ := (running_run hfrom).mp (by simpa using hnot)
      by_cases hec : e = c
      · rw [hec, hpc] at he
        cases he
      · rw [(hD'.alone e hec).2] at he
        cases he
    exact absurd hasleep (not_asleep_of_stuck hlen hG' hD' hS hrun' hpc)

theorem destructor_waits_idle : ∃ s N, run (next 1) (initial fun _ => 0 : Pool ℕ Unit) [.destroy 0] = some s ∧
    ∀ as t, (∀ a ∈ as, Internal a = true) → run (next 1) s as = some t → as.length ≤ N ∧ (Stuck 1 t →
      AllEnded t ∧ (t.clients 0 = .destroyed ∨
        ∃ k, t.clients 0 = .joining k ∧ t.workers k = .blocked ∧ k ∈ t.taskAvailableCv)) := by
  obtain ⟨N, hN⟩ := destructor_waits (show 1 = determineThreadCount 1 0 from rfl)
    (show run (next 1) (initial fun _ => 0 : Pool ℕ Unit) [.destroy 0] = some _ from rfl) (by decide) (c := 0) rfl
    (fun d hd => by cases d with
      | zero => exact absurd rfl hd
      | succ d => rfl) rfl rfl
  exact ⟨_, N, rfl, hN⟩

end ThreadPool
end Lbl
end Ortoa
