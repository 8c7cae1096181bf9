/-
# `SharedQueue.h`: the client's work queue

`runThreaded` starts `DataHandler` threads that move the client's operations
into a queue, waits for them, and then starts `WarmUpRunner` and
`ClientRunner` threads that take operations out of it and call `access` with
them. A step is one critical section of the queue, one evaluation of
`warmupOperations--`, or one call of `access` (which does not fail here);
which thread takes the next step is open. A thread that has not been started
yet is one that has not taken a step.

Every operation is handed out once and in the order in which it was produced
(`queue_exactly_once`). The warm-up counter is shared and tested for zero
only: the first thread that meets zero takes it below zero, and for the next
thread the warm-up goes on (`warm_up_bounded_iff`).

Key definitions: `State`, `next`, `drawn`, `handedOut`, `warmAccesses`.
Key theorems: `queue_exactly_once`, `warm_up_bounded_iff`.
-/
import Ortoa.Tee.ClientUtils
import Mathlib.Algebra.BigOperators.Group.Finset.Basic
import Mathlib.Data.Fintype.Basic

namespace Ortoa
namespace Tee
namespace SharedQueue

/-! ### The queue and the threads -/

/-- What `dequeue` returns for an empty queue. -/
def endOfData : Operation := ⟨.eod, [], []⟩

/-- `dequeue`, with the queue that it leaves. -/
def dequeue : List Operation → Operation × List Operation
  | [] => (endOfData, [])
  | data :: queue => (data, queue)

/-- Where a `WarmUpRunner` is. -/
inductive WarmUpRunner
  /-- At `while (warmupOperations--)`. -/
  | test
  | dequeue
  /-- At `client.access(out, data)`. -/
  | access (data : Operation)
  | stopped
  deriving DecidableEq

/-- Where a `ClientRunner` is. -/
inductive ClientRunner
  | dequeue
  | access (data : Operation)
  | stopped
  deriving DecidableEq

/-- The client with `h` `DataHandler`s, `w` `WarmUpRunner`s and `r` `ClientRunner`s. -/
structure State (h w r : ℕ) where
  config : ClientConfig
  queue : List Operation
  /-- The `DataHandler` has returned. -/
  joined : Fin h → Bool
  /-- `WarmUpRunner::warmupOperations`, an `int`. -/
  warmupOperations : BitVec 32
  warm : Fin w → WarmUpRunner
  runner : Fin r → ClientRunner

inductive Action (h w r : ℕ)
  /-- A `DataHandler` calls `enqueue`. -/
  | enqueue (i : Fin h) (d : OpDraw)
  | warm (i : Fin w)
  | runner (i : Fin r)

/-- A thread that dequeues. -/
inductive Thread (w r : ℕ)
  | warm (i : Fin w)
  | runner (i : Fin r)
  deriving DecidableEq

section Steps

variable (E : Cipher) {h w r : ℕ}

/-- All `DataHandler`s have been joined. -/
def State.Filled (s : State h w r) : Prop := ∀ i, s.joined i = true

instance (s : State h w r) : Decidable s.Filled := inferInstanceAs (Decidable (∀ i, s.joined i = true))

def initial (config : ClientConfig) (numWarmupOperations : ℤ) : State h w r where
  config := config
  queue := []
  joined := fun _ => false
  warmupOperations := BitVec.ofInt 32 numWarmupOperations
  warm := fun _ => .test
  runner := fun _ => .dequeue

/-- `enqueue`; the handler returns when it yields 1. -/
def stepEnqueue (s : State h w r) (i : Fin h) (d : OpDraw) : Option (State h w r) :=
  if s.joined i then none
  else if moreOperationsExist s.config then
    match getOperation E s.config d with
    | (.ok o, config') => some { s with config := config', queue := s.queue ++ [o] }
    | (.error _, _) => none
  else some { s with joined := Function.update s.joined i true }

/-- A step of `WarmUpRunner::operator()`. -/
def stepWarm (s : State h w r) (i : Fin w) : Option (State h w r) :=
  match s.warm i with
  | .test => some { s with
      warmupOperations := s.warmupOperations - 1
      warm := Function.update s.warm i (if s.warmupOperations = 0 then .stopped else .dequeue) }
  | .dequeue =>
    let data := (dequeue s.queue).1
    some { s with
      queue := (dequeue s.queue).2
      warm := Function.update s.warm i (if data.op = .eod then .stopped else .access data) }
  | .access _ => some { s with warm := Function.update s.warm i .test }
  | .stopped => none

/-- A step of `ClientRunner::operator()`. -/
def stepRunner (s : State h w r) (i : Fin r) : Option (State h w r) :=
  match s.runner i with
  | .dequeue =>
    let data := (dequeue s.queue).1
    some { s with
      queue := (dequeue s.queue).2
      runner := Function.update s.runner i (if data.op = .eod then .stopped else .access data) }
  | .access _ => some { s with runner := Function.update s.runner i .dequeue }
  | .stopped => none

/-- `runThreaded`: the runners start when the handlers have been joined. -/
def next (s : State h w r) : Action h w r → Option (State h w r)
  | .enqueue i d => stepEnqueue E s i d
  | .warm i => if s.Filled then stepWarm s i else none
  | .runner i => if s.Filled then stepRunner s i else none

/-- The draws of the operations that a step produces. -/
def drawn (s : State h w r) : Action h w r → List OpDraw
  | .enqueue _ d => if moreOperationsExist s.config then [d] else []
  | .warm _ => []
  | .runner _ => []

/-- What `dequeue` hands out in a step, and to whom. -/
def handedOut (s : State h w r) : Action h w r → List (Thread w r × Operation)
  | .warm i => if s.warm i = .dequeue then [(.warm i, (dequeue s.queue).1)] else []
  | .runner i => if s.runner i = .dequeue then [(.runner i, (dequeue s.queue).1)] else []
  | .enqueue _ _ => []

/-- The operations among what was handed out. -/
def operations (handed : List (Thread w r × Operation)) : List Operation :=
  (handed.map Prod.snd).filter fun o => o.op ≠ .eod

/-- The call of `access` that a `WarmUpRunner` makes in a step. -/
def warmAccesses (s : State h w r) : Action h w r → List Operation
  | .warm i =>
    match s.warm i with
    | .access data => [data]
    | _ => []
  | .runner _ => []
  | .enqueue _ _ => []

end Steps

/-! ### What a step can do -/

section Cases

variable {E : Cipher} {h w r : ℕ} {s s' : State h w r}

theorem enqueue_cases {i : Fin h} {d : OpDraw} (hs : next E s (.enqueue i d) = some s') :
    s.joined i = false ∧
      ((moreOperationsExist s.config = true ∧ ∃ o config', getOperation E s.config d = (.ok o, config') ∧
          s' = { s with config := config', queue := s.queue ++ [o] }) ∨
        (moreOperationsExist s.config = false ∧
          s' = { s with joined := Function.update s.joined i true })) := by
  change stepEnqueue E s i d = some s' at hs
  unfold stepEnqueue at hs
  split at hs
  · cases hs
  · rename_i hjoined
    refine ⟨by simpa using hjoined, ?_⟩
    split at hs
    · rename_i hmore
      split at hs
      · rename_i o config' hop
        exact Or.inl ⟨hmore, o, config', hop, (Option.some.inj hs).symm⟩
      · cases hs
    · rename_i hmore
      exact Or.inr ⟨by simpa using hmore, (Option.some.inj hs).symm⟩

theorem warm_cases {i : Fin w} (hs : next E s (.warm i) = some s') :
    s.Filled ∧
      ((s.warm i = .test ∧ s' = { s with
          warmupOperations := s.warmupOperations - 1
          warm := Function.update s.warm i (if s.warmupOperations = 0 then .stopped else .dequeue) }) ∨
        (s.warm i = .dequeue ∧ s' = { s with
          queue := (dequeue s.queue).2
          warm := Function.update s.warm i
            (if (dequeue s.queue).1.op = .eod then .stopped else .access (dequeue s.queue).1) }) ∨
        (∃ data, s.warm i = .access data ∧ s' = { s with warm := Function.update s.warm i .test })) := by
  rw [next] at hs
  unfold stepWarm at hs
  split at hs
  · rename_i hfilled
    refine ⟨hfilled, ?_⟩
    split at hs
    · rename_i hpc
      exact Or.inl ⟨hpc, (Option.some.inj hs).symm⟩
    · rename_i hpc
      exact Or.inr (Or.inl ⟨hpc, (Option.some.inj hs).symm⟩)
    · rename_i data hpc
      exact Or.inr (Or.inr ⟨data, hpc, (Option.some.inj hs).symm⟩)
    · cases hs
  · cases hs

theorem runner_cases {i : Fin r} (hs : next E s (.runner i) = some s') :
    s.Filled ∧
      ((s.runner i = .dequeue ∧ s' = { s with
          queue := (dequeue s.queue).2
          runner := Function.update s.runner i
            (if (dequeue s.queue).1.op = .eod then .stopped else .access (dequeue s.queue).1) }) ∨
        (∃ data, s.runner i = .access data ∧
          s' = { s with runner := Function.update s.runner i .dequeue })) := by
  rw [next] at hs
  unfold stepRunner at hs
  split at hs
  · rename_i hfilled
    refine ⟨hfilled, ?_⟩
    split at hs
    · rename_i hpc
      exact Or.inl ⟨hpc, (Option.some.inj hs).symm⟩
    · rename_i data hpc
      exact Or.inr ⟨data, hpc, (Option.some.inj hs).symm⟩
    · cases hs
  · cases hs

end Cases

/-! ### Exactly once and in order -/

section ExactlyOnce

/-- The sentinel comes from an empty queue only. -/
theorem dequeue_eod {q : List Operation} (hq : ∀ o ∈ q, o.op ≠ .eod) (h : (dequeue q).1.op = .eod) :
    q = [] := by
  cases q with
  | nil => rfl
  | cons o q => exact absurd h (hq o List.mem_cons_self)

theorem dequeue_subset {q : List Operation} {o : Operation} (h : o ∈ (dequeue q).2) : o ∈ q := by
  cases q with
  | nil => exact h
  | cons o q => exact List.mem_cons_of_mem _ h

/-- What is handed out is taken from the front. -/
theorem operations_dequeue {w r : ℕ} {q : List Operation} (t : Thread w r)
    (hq : ∀ o ∈ q, o.op ≠ .eod) : operations [(t, (dequeue q).1)] ++ (dequeue q).2 = q := by
  cases q with
  | nil => rfl
  | cons o q =>
    have ho : o.op ≠ .eod := hq o List.mem_cons_self
    simp [operations, dequeue, ho]

theorem operations_append {w r : ℕ} (l l' : List (Thread w r × Operation)) :
    operations (l ++ l') = operations l ++ operations l' := by
  rw [operations, List.map_append, List.filter_append]
  rfl

variable {E : Cipher} {h w r : ℕ}

/-- What holds between the actions so far and the state: one loop with the
same draws would have produced what was handed out and what is queued. -/
structure Inv (E : Cipher) (s0 : State h w r) (acts : List (Action h w r)) (s : State h w r) : Prop where
  input : run (loopNext E) s0.config (collect (next E) drawn s0 acts) = some s.config
  produced : collect (loopNext E) (loopYield E) s0.config (collect (next E) drawn s0 acts) =
    operations (collect (next E) handedOut s0 acts) ++ s.queue
  noSentinel : ∀ o ∈ s.queue, o.op ≠ .eod
  exhausted : ∀ i, s.joined i = true → moreOperationsExist s.config = false
  drained : ∀ i, s.runner i = .stopped → s.Filled ∧ s.queue = []

theorem inv_initial (config : ClientConfig) (n : ℤ) :
    Inv E (initial config n : State h w r) [] (initial config n) where
  input := rfl
  produced := rfl
  noSentinel := fun _ ho => nomatch ho
  exhausted := fun _ hi => nomatch hi
  drained := fun _ hi => nomatch hi

variable {s0 s s' : State h w r} {acts : List (Action h w r)}

/-- A step that produces nothing and takes what it hands out from the queue. -/
theorem Inv.dequeued {a : Action h w r} (hI : Inv E s0 acts s)
    (hrun : run (next E) s0 acts = some s) (ha : next E s a = some s') (hfilled : s.Filled)
    (hdrawn : drawn s a = []) (hconfig : s'.config = s.config) (hjoined : s'.joined = s.joined)
    (hqueue : operations (handedOut s a) ++ s'.queue = s.queue)
    (hsub : ∀ o ∈ s'.queue, o ∈ s.queue)
    (hstopped : ∀ i, s'.runner i = .stopped → s.runner i = .stopped ∨ s'.queue = []) :
    Inv E s0 (acts ++ [a]) s' where
  input := by
    rw [collect_concat (next E) drawn hrun ha, hdrawn, List.append_nil, hconfig]
    exact hI.input
  produced := by
    rw [collect_concat (next E) drawn hrun ha, collect_concat (next E) handedOut hrun ha, hdrawn,
      List.append_nil, operations_append, List.append_assoc, hqueue]
    exact hI.produced
  noSentinel := fun o ho => hI.noSentinel o (hsub o ho)
  exhausted := by
    rw [hconfig, hjoined]
    exact hI.exhausted
  drained := by
    intro i hi
    refine ⟨by rw [State.Filled, hjoined]; exact hfilled, ?_⟩
    rcases hstopped i hi with hold | hempty
    · have hnil := (hI.drained i hold).2
      exact List.eq_nil_iff_forall_not_mem.mpr fun o ho => by
        have hmem := hsub o ho
        rw [hnil] at hmem
        cases hmem
    · exact hempty

theorem inv_enqueue {i : Fin h} {d : OpDraw} (hI : Inv E s0 acts s)
    (hrun : run (next E) s0 acts = some s) (ha : next E s (.enqueue i d) = some s') :
    Inv E s0 (acts ++ [.enqueue i d]) s' := by
  have hdraws := collect_concat (next E) drawn hrun ha
  have hhanded := collect_concat (next E) handedOut hrun ha
  obtain ⟨hi, ⟨hmore, o, config', hop, rfl⟩ | ⟨hmore, rfl⟩⟩ := enqueue_cases ha
  · have hnext : loopNext E s.config d = some config' := by rw [loopNext, if_pos hmore, hop]
    have hyield : loopYield E s.config d = [o] := by rw [loopYield, hop]
    rw [drawn, if_pos hmore] at hdraws
    rw [handedOut, List.append_nil] at hhanded
    exact {
      input := by
        rw [hdraws]
        exact (run_concat _).mpr ⟨s.config, hI.input, hnext⟩
      produced := by
        rw [hdraws, hhanded, collect_concat _ _ hI.input hnext, hI.produced, hyield, List.append_assoc]
      noSentinel := by
        intro o' ho'
        rcases List.mem_append.mp ho' with ho' | ho'
        · exact hI.noSentinel o' ho'
        · rw [List.mem_singleton.mp ho']
          exact getOperation_ne_eod (by rw [hop])
      exhausted := by
        intro j hj
        rw [hI.exhausted j hj] at hmore
        cases hmore
      drained := by
        intro j hj
        rw [(hI.drained j hj).1 i] at hi
        cases hi }
  · rw [drawn, if_neg (by rw [hmore]; exact Bool.false_ne_true), List.append_nil] at hdraws
    rw [handedOut, List.append_nil] at hhanded
    exact {
      input := by rw [hdraws]; exact hI.input
      produced := by rw [hdraws, hhanded]; exact hI.produced
      noSentinel := hI.noSentinel
      exhausted := fun _ _ => hmore
      drained := by
        intro j hj
        rw [(hI.drained j hj).1 i] at hi
        cases hi }

theorem inv_warm {i : Fin w} (hI : Inv E s0 acts s) (hrun : run (next E) s0 acts = some s)
    (ha : next E s (.warm i) = some s') : Inv E s0 (acts ++ [.warm i]) s' := by
  have hcases := warm_cases ha
  obtain ⟨hfilled, ⟨hpc, rfl⟩ | ⟨hpc, rfl⟩ | ⟨data, hpc, rfl⟩⟩ := hcases
  · apply hI.dequeued hrun ha hfilled rfl rfl rfl
    · rw [handedOut, if_neg (by rw [hpc]; simp)]
      rfl
    · exact fun _ ho => ho
    · exact fun _ hj => Or.inl hj
  · apply hI.dequeued hrun ha hfilled rfl rfl rfl
    · rw [handedOut, if_pos hpc]
      exact operations_dequeue _ hI.noSentinel
    · exact fun _ ho => dequeue_subset ho
    · exact fun _ hj => Or.inl hj
  · apply hI.dequeued hrun ha hfilled rfl rfl rfl
    · rw [handedOut, if_neg (by rw [hpc]; simp)]
      rfl
    · exact fun _ ho => ho
    · exact fun _ hj => Or.inl hj

theorem inv_runner {i : Fin r} (hI : Inv E s0 acts s) (hrun : run (next E) s0 acts = some s)
    (ha : next E s (.runner i) = some s') : Inv E s0 (acts ++ [.runner i]) s' := by
  have hcases := runner_cases ha
  obtain ⟨hfilled, ⟨hpc, rfl⟩ | ⟨data, hpc, rfl⟩⟩ := hcases
  · apply hI.dequeued hrun ha hfilled rfl rfl rfl
    · rw [handedOut, if_pos hpc]
      exact operations_dequeue _ hI.noSentinel
    · exact fun _ ho => dequeue_subset ho
    · intro j hj
      by_cases hij : j = i
      · subst hij
        right
        simp only [Function.update_self] at hj
        split at hj
        · rename_i heod
          change (dequeue s.queue).2 = []
          rw [dequeue_eod hI.noSentinel heod]
          rfl
        · cases hj
      · simp only [Function.update_of_ne hij] at hj
        exact Or.inl hj
  · apply hI.dequeued hrun ha hfilled rfl rfl rfl
    · rw [handedOut, if_neg (by rw [hpc]; simp)]
      rfl
    · exact fun _ ho => ho
    · intro j hj
      by_cases hij : j = i
      · subst hij
        simp only [Function.update_self] at hj
        cases hj
      · simp only [Function.update_of_ne hij] at hj
        exact Or.inl hj

theorem inv_run {config : ClientConfig} {n : ℤ}
    (hrun : run (next E) (initial config n) acts = some s) : Inv E (initial config n) acts s := by
  apply run_inv (next E) (Inv E (initial config n)) (inv_initial config n) ?_
    (along_of_forall (next E) _ (fun _ _ => trivial) : Along (next E) (fun _ _ => True) _ acts) hrun
  intro as s a s' hrun hI _ ha
  cases a with
  | enqueue i d => exact inv_enqueue hI hrun ha
  | warm i => exact inv_warm hI hrun ha
  | runner i => exact inv_runner hI hrun ha

/-- The sentinel is handed out from an empty queue only. -/
theorem handedOut_eod {a : Action h w r} {p : Thread w r × Operation} (hI : Inv E s0 acts s)
    (hp : p ∈ handedOut s a) (heod : p.2.op = .eod) : s.queue = [] := by
  have hfront : p.2 = (dequeue s.queue).1 := by
    cases a with
    | enqueue i d => cases hp
    | warm i =>
      rw [handedOut] at hp
      split at hp
      · rw [List.mem_singleton.mp hp]
      · cases hp
    | runner i =>
      rw [handedOut] at hp
      split at hp
      · rw [List.mem_singleton.mp hp]
      · cases hp
  rw [hfront] at heod
  exact dequeue_eod hI.noSentinel heod

/-- In every run the operations handed out and those still queued are the ones
that one loop would have produced, in that order; the sentinel is handed out
from an empty queue only; and when the `ClientRunner`s have stopped nothing is
queued and nothing is left to be produced. -/
theorem queue_exactly_once (E : Cipher) {h w r : ℕ} (hh : 0 < h) (hr : 0 < r) {config : ClientConfig}
    {n : ℤ} {acts : List (Action h w r)} {s : State h w r}
    (hrun : run (next E) (initial config n) acts = some s) :
    run (loopNext E) config (collect (next E) drawn (initial config n) acts) = some s.config ∧
      collect (loopNext E) (loopYield E) config (collect (next E) drawn (initial config n) acts) =
        operations (collect (next E) handedOut (initial config n) acts) ++ s.queue ∧
      Along (next E) (fun s1 a => ∀ p ∈ handedOut s1 a, p.2.op = .eod → s1.queue = [])
        (initial config n) acts ∧
      ((∀ i, s.runner i = .stopped) → s.queue = [] ∧ moreOperationsExist s.config = false) := by
  have hI := inv_run hrun
  refine ⟨hI.input, hI.produced, ?_, ?_⟩
  · apply along_of_run
    intro as s1 a hrun1 p hp heod
    exact handedOut_eod (inv_run hrun1) hp heod
  · intro hstopped
    obtain ⟨hfilled, hempty⟩ := hI.drained ⟨0, hr⟩ (hstopped _)
    exact ⟨hempty, hI.exhausted ⟨0, hh⟩ (hfilled _)⟩

/-- The file has one line, without a newline behind it. -/
def oneLine : ClientConfig := onePut.opened (ascii ['P', 'U', 'T', ' ', '1', ' ', '2'])

/-- A thread of each kind; the `WarmUpRunner` takes the operation. -/
def oneEach : List (Action 1 1 1) :=
  [.enqueue 0 plainOpDraw, .enqueue 0 plainOpDraw, .warm 0, .warm 0, .runner 0, .warm 0]

/-- After the run the file is exhausted and the queue empty. -/
theorem queue_exactly_once_one_each :
    ∃ s : State 1 1 1, run (next plainCipher) (initial oneLine 1) oneEach = some s ∧ s.queue = [] ∧
      moreOperationsExist s.config = false := by
  obtain ⟨s, hs⟩ := Option.isSome_iff_exists.mp
    (show (run (next plainCipher) (initial oneLine 1 : State 1 1 1) oneEach).isSome = true by decide)
  have hstopped : (run (next plainCipher) (initial oneLine 1 : State 1 1 1) oneEach).map
      (fun s => s.runner 0) = some .stopped := by decide
  rw [hs, Option.map_some, Option.some.injEq] at hstopped
  have hall : ∀ i, s.runner i = .stopped := fun i => by
    rw [Subsingleton.elim i 0]
    exact hstopped
  exact ⟨s, hs, (queue_exactly_once plainCipher (by decide) (by decide) hs).2.2.2 hall⟩

end ExactlyOnce

/-! ### The warm-up -/

section WarmUp

variable {E : Cipher} {h w r : ℕ}

/-- What the runners start from: the handlers have been joined, and the queue is `q`. -/
def filled (config : ClientConfig) (q : List Operation) (n : ℕ) : State h w r :=
  { (initial config n : State h w r) with queue := q, joined := fun _ => true }

/-- The accesses that the `WarmUpRunner`s make in a run. -/
def warmUp (E : Cipher) (s : State h w r) (acts : List (Action h w r)) : List Operation :=
  collect (next E) warmAccesses s acts

/-- The operation that a `WarmUpRunner` holds. -/
def held : WarmUpRunner → ℕ
  | .test => 0
  | .dequeue => 0
  | .access _ => 1
  | .stopped => 0

/-- The operations that the `WarmUpRunner`s hold. -/
def inFlight (warm : Fin w → WarmUpRunner) : ℕ := ∑ i, held (warm i)

/-- One thread's change. -/
theorem inFlight_update (warm : Fin w → WarmUpRunner) (i : Fin w) (pc : WarmUpRunner) :
    inFlight (Function.update warm i pc) + held (warm i) = inFlight warm + held pc := by
  have hrest : ∑ j ∈ Finset.univ.erase i, held (Function.update warm i pc j) =
      ∑ j ∈ Finset.univ.erase i, held (warm j) := by
    apply Finset.sum_congr rfl
    intro j hj
    rw [Function.update_of_ne (Finset.ne_of_mem_erase hj)]
  unfold inFlight
  rw [← Finset.add_sum_erase _ _ (Finset.mem_univ i),
    ← Finset.add_sum_erase _ (fun j => held (warm j)) (Finset.mem_univ i), hrest, Function.update_self]
  omega

theorem held_dequeued {data : Operation} (q : List Operation) (h : data = (dequeue q).1) :
    held (if data.op = .eod then .stopped else .access data) + (dequeue q).2.length ≤ q.length := by
  subst h
  cases q with
  | nil => exact Nat.le_refl _
  | cons o q =>
    change held (if o.op = .eod then .stopped else .access o) + q.length ≤ q.length + 1
    by_cases ho : o.op = .eod
    · rw [if_pos ho, held]
      omega
    · rw [if_neg ho, held]
      omega

theorem dequeue_length (q : List Operation) : (dequeue q).2.length ≤ q.length := by
  cases q with
  | nil => exact Nat.le_refl _
  | cons o q => exact Nat.le_succ _

variable {s0 s s' : State h w r}

/-- Nothing is enqueued when the handlers have been joined. -/
theorem not_enqueue (hfilled : s.Filled) (i : Fin h) (d : OpDraw) : next E s (.enqueue i d) = none := by
  change stepEnqueue E s i d = none
  rw [stepEnqueue, if_pos (hfilled i)]

theorem next_warm (hfilled : s.Filled) (i : Fin w) : next E s (.warm i) = stepWarm s i :=
  if_pos hfilled

/-- What the warm-up has taken was in the queue. -/
theorem accesses_le_queue {q : List Operation} {acts : List (Action h w r)} (hfilled : s0.Filled)
    (hheld : inFlight s0.warm + s0.queue.length ≤ q.length) (hrun : run (next E) s0 acts = some s) :
    s.Filled ∧ (warmUp E s0 acts).length + inFlight s.warm + s.queue.length ≤ q.length := by
  apply run_inv (next E)
    (fun acts s => s.Filled ∧ (warmUp E s0 acts).length + inFlight s.warm + s.queue.length ≤ q.length)
    ⟨hfilled, by simpa [warmUp, collect] using hheld⟩ ?_
    (along_of_forall (next E) _ (fun _ _ => trivial) : Along (next E) (fun _ _ => True) _ acts) hrun
  intro as s a s' hrun1 hinv _ ha
  obtain ⟨hfull, hle⟩ := hinv
  have hacc : warmUp E s0 (as ++ [a]) = warmUp E s0 as ++ warmAccesses s a :=
    collect_concat (next E) warmAccesses hrun1 ha
  rw [hacc, List.length_append]
  cases a with
  | enqueue i d =>
    rw [not_enqueue hfull] at ha
    cases ha
  | runner i =>
    have hnone : warmAccesses s (.runner i : Action h w r) = [] := rfl
    rw [hnone, List.length_nil]
    obtain ⟨-, ⟨-, rfl⟩ | ⟨data, -, rfl⟩⟩ := runner_cases ha
    · have hlen := dequeue_length s.queue
      refine ⟨hfull, ?_⟩
      simp only
      omega
    · exact ⟨hfull, hle⟩
  | warm i =>
    obtain ⟨-, ⟨hpc, rfl⟩ | ⟨hpc, rfl⟩ | ⟨data, hpc, rfl⟩⟩ := warm_cases ha
    · have hnone : warmAccesses s (.warm i : Action h w r) = [] := by rw [warmAccesses, hpc]
      have hflight := inFlight_update s.warm i (if s.warmupOperations = 0 then .stopped else .dequeue)
      have hzero : held (if s.warmupOperations = 0 then .stopped else .dequeue) = 0 := by split <;> rfl
      rw [hpc, hzero, held] at hflight
      rw [hnone, List.length_nil]
      refine ⟨hfull, ?_⟩
      simp only
      omega
    · have hnone : warmAccesses s (.warm i : Action h w r) = [] := by rw [warmAccesses, hpc]
      have hflight := inFlight_update s.warm i
        (if (dequeue s.queue).1.op = .eod then .stopped else .access (dequeue s.queue).1)
      have hlen := held_dequeued s.queue rfl
      rw [hpc, held] at hflight
      rw [hnone, List.length_nil]
      refine ⟨hfull, ?_⟩
      simp only
      omega
    · have hone : warmAccesses s (.warm i : Action h w r) = [data] := by rw [warmAccesses, hpc]
      have hflight := inFlight_update s.warm i .test
      rw [hpc, held, held] at hflight
      rw [hone, List.length_singleton]
      refine ⟨hfull, ?_⟩
      simp only
      omega

/-- The counter and a single `WarmUpRunner`, after `k` accesses of at most `n`. -/
def Counts (n k : ℕ) (counter : BitVec 32) : WarmUpRunner → Prop
  | .test => counter = BitVec.ofNat 32 (n - k)
  | .dequeue => k < n ∧ counter = BitVec.ofNat 32 (n - (k + 1))
  | .access _ => k < n ∧ counter = BitVec.ofNat 32 (n - (k + 1))
  | .stopped => True

theorem ofNat_eq_zero_iff {m : ℕ} (hm : m < 2 ^ 31) : BitVec.ofNat 32 m = 0 ↔ m = 0 := by
  rw [← BitVec.toNat_inj, BitVec.toNat_ofNat, Nat.mod_eq_of_lt (by omega)]
  rfl

theorem ofNat_sub_one {m : ℕ} (hm : 0 < m) (hlt : m < 2 ^ 31) :
    BitVec.ofNat 32 m - 1 = BitVec.ofNat 32 (m - 1) := by
  bv_omega

/-- A single thread stops when it meets zero. -/
theorem alone_accesses_le {n : ℕ} {q : List Operation} {config : ClientConfig}
    {acts : List (Action h w r)} (hw : w ≤ 1) (hn : n < 2 ^ 31)
    (hrun : run (next E) (filled config q n) acts = some s) :
    (warmUp E (filled config q n) acts).length ≤ n ∧ s.Filled ∧
      ∀ i, Counts n (warmUp E (filled config q n) acts).length s.warmupOperations (s.warm i) := by
  have hfilled : (filled config q n : State h w r).Filled := fun _ => rfl
  have hcounts : ∀ i, Counts n (warmUp E (filled config q n : State h w r) []).length
      (filled config q n : State h w r).warmupOperations ((filled config q n : State h w r).warm i) :=
    fun _ => BitVec.ofInt_natCast 32 n
  apply run_inv (next E)
    (fun acts s => (warmUp E (filled config q n) acts).length ≤ n ∧ s.Filled ∧
      ∀ i, Counts n (warmUp E (filled config q n) acts).length s.warmupOperations (s.warm i))
    ⟨Nat.zero_le n, hfilled, hcounts⟩ ?_
    (along_of_forall (next E) _ (fun _ _ => trivial) : Along (next E) (fun _ _ => True) _ acts) hrun
  intro as s a s' hrun1 hinv _ ha
  obtain ⟨hle, hfull, hcount⟩ := hinv
  have hacc : warmUp E (filled config q n) (as ++ [a]) =
      warmUp E (filled config q n) as ++ warmAccesses s a :=
    collect_concat (next E) warmAccesses hrun1 ha
  rw [hacc, List.length_append]
  cases a with
  | enqueue i d =>
    rw [not_enqueue hfull] at ha
    cases ha
  | runner i =>
    have hnone : warmAccesses s (.runner i : Action h w r) = [] := rfl
    rw [hnone, List.length_nil]
    obtain ⟨-, ⟨-, rfl⟩ | ⟨data, -, rfl⟩⟩ := runner_cases ha
    · exact ⟨hle, hfull, hcount⟩
    · exact ⟨hle, hfull, hcount⟩
  | warm i =>
    have honly : ∀ j : Fin w, j = i := fun j => Fin.ext (by omega)
    have hi := hcount i
    obtain ⟨-, ⟨hpc, rfl⟩ | ⟨hpc, rfl⟩ | ⟨data, hpc, rfl⟩⟩ := warm_cases ha
    · have hnone : warmAccesses s (.warm i : Action h w r) = [] := by rw [warmAccesses, hpc]
      rw [hnone, List.length_nil, Nat.add_zero]
      refine ⟨hle, hfull, fun j => ?_⟩
      rw [honly j]
      simp only [Function.update_self]
      rw [hpc, Counts] at hi
      split
      · trivial
      · rename_i hne
        rw [hi, ofNat_eq_zero_iff (by omega)] at hne
        refine ⟨by omega, ?_⟩
        rw [hi, ofNat_sub_one (by omega) (by omega), Nat.sub_sub]
    · have hnone : warmAccesses s (.warm i : Action h w r) = [] := by rw [warmAccesses, hpc]
      rw [hnone, List.length_nil, Nat.add_zero]
      refine ⟨hle, hfull, fun j => ?_⟩
      rw [honly j]
      simp only [Function.update_self]
      rw [hpc] at hi
      split
      · trivial
      · exact hi
    · have hone : warmAccesses s (.warm i : Action h w r) = [data] := by rw [warmAccesses, hpc]
      rw [hpc] at hi
      rw [hone, List.length_singleton]
      refine ⟨hi.1, hfull, fun j => ?_⟩
      rw [honly j]
      simp only [Function.update_self]
      exact hi.2

/-- A thread that finds the counter other than zero takes an operation and
calls `access` with it. -/
theorem warm_round {i : Fin w} {o : Operation} {q : List Operation} (hfilled : s.Filled)
    (hpc : s.warm i = .test) (hc : s.warmupOperations ≠ 0) (hq : s.queue = o :: q)
    (ho : o.op ≠ .eod) :
    run (next E) s [.warm i, .warm i, .warm i] =
        some { s with queue := q, warmupOperations := s.warmupOperations - 1 } ∧
      warmUp E s [.warm i, .warm i, .warm i] = [o] := by
  have h1 : next E s (.warm i) = some { s with
      warmupOperations := s.warmupOperations - 1, warm := Function.update s.warm i .dequeue } := by
    rw [next_warm hfilled, stepWarm, hpc]
    simp only [if_neg hc]
  have h2 : next E { s with
      warmupOperations := s.warmupOperations - 1, warm := Function.update s.warm i .dequeue } (.warm i) =
      some { s with
        queue := q, warmupOperations := s.warmupOperations - 1
        warm := Function.update s.warm i (.access o) } := by
    apply (next_warm (by exact hfilled) i).trans
    simp only [stepWarm, Function.update_self, hq, dequeue, if_neg ho, Function.update_idem]
  have h3 : next E { s with
        queue := q, warmupOperations := s.warmupOperations - 1
        warm := Function.update s.warm i (.access o) } (.warm i) =
      some { s with queue := q, warmupOperations := s.warmupOperations - 1 } := by
    apply (next_warm (by exact hfilled) i).trans
    simp only [stepWarm, Function.update_self, Function.update_idem]
    rw [← hpc, Function.update_eq_self]
  constructor
  · rw [run_cons, h1, Option.bind_some, run_cons, h2, Option.bind_some, run_cons, h3, Option.bind_some,
      run_nil]
  · unfold warmUp
    simp only [collect, h1, h2, h3, warmAccesses, Function.update_self, hpc, List.nil_append,
      List.append_nil]

/-- One thread can do `k` rounds while the counter lasts. -/
theorem warm_rounds {i : Fin w} {k : ℕ} : ∀ {s : State h w r} {m : ℕ}, s.Filled →
    s.warm i = .test → s.warmupOperations = BitVec.ofNat 32 (k + m) → k + m < 2 ^ 31 →
    k ≤ s.queue.length → (∀ o ∈ s.queue, o.op ≠ .eod) →
    ∃ acts : List (Action h w r), run (next E) s acts =
        some { s with queue := s.queue.drop k, warmupOperations := BitVec.ofNat 32 m } ∧
      (warmUp E s acts).length = k := by
  induction k with
  | zero =>
    intro s m _ _ hc _ _ _
    rw [Nat.zero_add] at hc
    exact ⟨[], by rw [run_nil, List.drop_zero, ← hc], rfl⟩
  | succ k ih =>
    intro s m hfilled hpc hc hlt hlen hops
    obtain ⟨o, q, hq⟩ := List.exists_cons_of_length_pos (Nat.lt_of_lt_of_le (Nat.succ_pos k) hlen)
    have hne : s.warmupOperations ≠ 0 := by
      rw [hc, Ne, ofNat_eq_zero_iff hlt]
      omega
    have hsub : s.warmupOperations - 1 = BitVec.ofNat 32 (k + m) := by
      rw [hc, ofNat_sub_one (by omega) hlt]
      congr 1
      omega
    obtain ⟨hround, hone⟩ := warm_round (E := E) hfilled hpc hne hq (hops o (by simp [hq]))
    obtain ⟨acts, hrun, hacc⟩ := @ih
      { s with queue := q, warmupOperations := s.warmupOperations - 1 } m hfilled hpc hsub (by omega)
      (by rw [hq, List.length_cons] at hlen; exact Nat.le_of_succ_le_succ hlen)
      fun o' ho' => hops o' (by rw [hq]; exact List.mem_cons_of_mem _ ho')
    refine ⟨[.warm i, .warm i, .warm i] ++ acts, ?_, ?_⟩
    · rw [run_append, hround, Option.bind_some, hrun, hq, List.drop_succ_cons]
    · unfold warmUp at hone hacc ⊢
      rw [collect_append (next E) warmAccesses hround, List.length_append, hone, hacc,
        List.length_singleton, Nat.add_comm]

/-- A thread that finds the counter at zero stops, and takes it below zero. -/
theorem warm_stops {i : Fin w} (hfilled : s.Filled) (hpc : s.warm i = .test)
    (hc : s.warmupOperations = 0) :
    next E s (.warm i) = some { s with
        warmupOperations := 0 - 1, warm := Function.update s.warm i .stopped } ∧
      warmAccesses s (.warm i : Action h w r) = [] := by
  constructor
  · rw [next_warm hfilled, stepWarm, hpc]
    simp only [if_pos hc]
    rw [hc]
  · rw [warmAccesses, hpc]

/-- With a second thread there is a run of `n + 1` accesses: the first thread
makes `n` and takes the counter below zero. -/
theorem overrun {n : ℕ} (hn : n < 2 ^ 31) (hw : 1 < w) (hfilled : s.Filled)
    (hpc : ∀ i, s.warm i = .test) (hc : s.warmupOperations = BitVec.ofNat 32 n)
    (hlen : n < s.queue.length) (hops : ∀ o ∈ s.queue, o.op ≠ .eod) :
    ∃ (acts : List (Action h w r)) (s' : State h w r),
      run (next E) s acts = some s' ∧ (warmUp E s acts).length = n + 1 := by
  obtain ⟨acts, hrun, hacc⟩ := @warm_rounds E h w r ⟨0, by omega⟩ n s 0 hfilled (hpc _) hc hn
    (Nat.le_of_lt hlen) hops
  have hstop := @warm_stops E h w r
    { s with queue := s.queue.drop n, warmupOperations := BitVec.ofNat 32 0 } ⟨0, by omega⟩ hfilled
    (hpc _) rfl
  obtain ⟨o, q, hq⟩ := List.exists_cons_of_ne_nil
    (show s.queue.drop n ≠ [] by rw [Ne, List.drop_eq_nil_iff]; omega)
  have hother : Function.update s.warm ⟨0, by omega⟩ .stopped ⟨1, hw⟩ = .test := by
    rw [Function.update_of_ne (by simp)]
    exact hpc _
  obtain ⟨hround, hone⟩ := @warm_round E h w r { s with
        queue := s.queue.drop n, warmupOperations := 0 - 1
        warm := Function.update s.warm ⟨0, by omega⟩ .stopped } ⟨1, hw⟩ o q hfilled hother
    (show (0 - 1 : BitVec 32) ≠ 0 by decide) hq
    (hops o (List.mem_of_mem_drop (hq ▸ List.mem_cons_self)))
  have hrun1 := (run_concat (next E)).mpr ⟨_, hrun, hstop.1⟩
  have hacc1 := collect_concat (next E) warmAccesses hrun hstop.1
  have htotal := run_append (next E) s (acts ++ [.warm ⟨0, by omega⟩])
    [.warm ⟨1, hw⟩, .warm ⟨1, hw⟩, .warm ⟨1, hw⟩]
  rw [hrun1, Option.bind_some] at htotal
  refine ⟨_, _, htotal.trans hround, ?_⟩
  unfold warmUp at hacc hone ⊢
  rw [collect_append (next E) warmAccesses hrun1, hacc1, List.length_append, List.length_append, hacc,
    hone, hstop.2]
  rfl

/-- In every run the warm-up makes at most `n` accesses if and only if there
is at most one `WarmUpRunner`, or there are not more than `n` operations. -/
theorem warm_up_bounded_iff (E : Cipher) {h w r : ℕ} (config : ClientConfig) {q : List Operation} {n : ℕ}
    (hn : n < 2 ^ 31) (hops : ∀ o ∈ q, o.op ≠ .eod) :
    (∀ (acts : List (Action h w r)) (s : State h w r), run (next E) (filled config q n) acts = some s →
      (warmUp E (filled config q n : State h w r) acts).length ≤ n) ↔ w ≤ 1 ∨ q.length ≤ n := by
  constructor
  · intro hall
    by_contra hnot
    rw [not_or, Nat.not_le, Nat.not_le] at hnot
    obtain ⟨acts, s, hrun, hlen⟩ := @overrun E h w r (filled config q n) n hn hnot.1
      (fun _ => rfl) (fun _ => rfl) (BitVec.ofInt_natCast 32 n) hnot.2 hops
    have hle := hall acts s hrun
    omega
  · rintro (hw | hlen) acts s hrun
    · exact (alone_accesses_le hw hn hrun).1
    · have hfilled : (filled config q n : State h w r).Filled := fun _ => rfl
      have hnone : inFlight (filled config q n : State h w r).warm = 0 := Finset.sum_const_zero
      have hstart : inFlight (filled config q n : State h w r).warm +
          (filled config q n : State h w r).queue.length ≤ q.length := by
        rw [hnone, Nat.zero_add]
        exact Nat.le_refl _
      have hle := (accesses_le_queue hfilled hstart hrun).2
      omega

/-- Two operations and a warm-up of one: two threads need not keep to it. -/
theorem warm_up_bounded_iff_two : (∀ (acts : List (Action 1 2 1)) (s : State 1 2 1),
    run (next plainCipher) (filled onePut [⟨.put, [], []⟩, ⟨.get, [], []⟩] 1) acts = some s →
      (warmUp plainCipher (filled onePut [⟨.put, [], []⟩, ⟨.get, [], []⟩] 1 : State 1 2 1)
        acts).length ≤ 1) ↔ 2 ≤ 1 ∨ 2 ≤ 1 :=
  warm_up_bounded_iff plainCipher onePut (by decide) (by decide)

/-- Without a warm-up the second of two threads makes an access. -/
theorem no_warm_up_accesses :
    (run (next plainCipher) (filled onePut [⟨.put, [], []⟩] 0 : State 1 2 1)
        [.warm 0, .warm 1, .warm 1, .warm 1]).isSome = true ∧
      warmUp plainCipher (filled onePut [⟨.put, [], []⟩] 0 : State 1 2 1)
        [.warm 0, .warm 1, .warm 1, .warm 1] = [⟨.put, [], []⟩] := by
  decide

end WarmUp

end SharedQueue
end Tee
end Ortoa
