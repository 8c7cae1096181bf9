/-
# A queue of tasks and the workers that run them

Calls hand in tasks, each a list of statements on a memory that the tasks of
one call share. The queue keeps the tasks in the order in which they came; a
worker takes the oldest, executes its statements one by one, and leaves an
outcome: that the task has ended, or the error of the statement at which it
stopped. Which worker executes its next statement is open.

Every task is taken once and in order (`pushed_eq`), none is lost
(`Inv.somewhere`), and what the tasks of a call have done to its memory is an
interleaving of their statements (`memory_eq`, `interleaves_of_ended`).

Key definitions: `Task`, `WorkQueue`, `WorkQueue.next`, `Interleaves`, `WorkQueue.trace`.
Key theorems: `WorkQueue.pushed_eq`, `WorkQueue.inv_run`, `WorkQueue.interleaves_of_ended`.
-/
import Ortoa.Run
import Mathlib.Logic.Function.Basic
import Mathlib.Data.List.GetD
import Mathlib.Data.List.Nodup
import Mathlib.Order.Nat

namespace Ortoa

/-- A task: the call that handed it in, its number among the tasks of that
call, and its statements. -/
structure Task (σ ε : Type) where
  call : ℕ
  index : ℕ
  body : List (σ → Except ε σ)

def Task.id {σ ε : Type} (t : Task σ ε) : ℕ × ℕ := (t.call, t.index)

@[ext]
structure WorkQueue (σ ε : Type) where
  queue : List (Task σ ε)
  working : ℕ → Option (Task σ ε)
  outcome : ℕ × ℕ → Option (Except ε Unit)
  /-- What the memory of a call held when the call began. -/
  start : ℕ → σ
  memory : ℕ → σ
  submitted : ℕ → List (List (σ → Except ε σ))

/-! ### Interleavings -/

section Interleaving

variable {α : Type}

/-- The part of sequence `k` in a merged list. -/
def part (k : ℕ) (l : List (ℕ × α)) : List α := (l.filter fun x => x.1 = k).map Prod.snd

/-- The list is a merge of the sequences, each element with the number of its sequence. -/
def Interleaves (l : List (ℕ × α)) (seqs : List (List α)) : Prop := ∀ k, part k l = seqs.getD k []

theorem part_append (k : ℕ) (l l' : List (ℕ × α)) : part k (l ++ l') = part k l ++ part k l' := by
  rw [part, List.filter_append, List.map_append]
  rfl

theorem part_self (k : ℕ) (a : α) : part k [(k, a)] = [a] := by simp [part]

theorem part_other {k j : ℕ} (h : j ≠ k) (a : α) : part k [(j, a)] = [] := by simp [part, h]

theorem mem_part {k : ℕ} {l : List (ℕ × α)} {a : α} : a ∈ part k l ↔ (k, a) ∈ l := by
  simp [part]

/-- A merge has the elements of the sequences. -/
theorem Interleaves.mem_iff {l : List (ℕ × α)} {seqs : List (List α)} (h : Interleaves l seqs) {a : α} :
    a ∈ l.map Prod.snd ↔ a ∈ seqs.flatten := by
  rw [List.mem_map, List.mem_flatten]
  constructor
  · rintro ⟨⟨k, b⟩, hmem, rfl⟩
    have hk : b ∈ seqs.getD k [] := h k ▸ mem_part.mpr hmem
    rcases Nat.lt_or_ge k seqs.length with hlt | hge
    · rw [List.getD_eq_getElem _ _ hlt] at hk
      exact ⟨_, List.getElem_mem hlt, hk⟩
    · rw [List.getD_eq_default _ _ hge] at hk
      cases hk
  · rintro ⟨s, hs, ha⟩
    obtain ⟨k, hk, rfl⟩ := List.mem_iff_getElem.mp hs
    refine ⟨(k, a), mem_part.mp ?_, rfl⟩
    rw [h k, List.getD_eq_getElem _ _ hk]
    exact ha

end Interleaving

namespace WorkQueue

variable {σ ε : Type}

/-! ### The machine -/

/-- Nothing has been handed in. -/
def initial (memory : ℕ → σ) : WorkQueue σ ε where
  queue := []
  working := fun _ => none
  outcome := fun _ => none
  start := memory
  memory := memory
  submitted := fun _ => []

inductive Act (σ ε : Type)
  /-- Call `c` sets up its memory. -/
  | begin (c : ℕ) (m : σ)
  | push (c : ℕ) (body : List (σ → Except ε σ))
  /-- Worker `i` takes the oldest task. -/
  | take (i : ℕ)
  /-- Worker `i` executes a statement of its task, or ends it. -/
  | step (i : ℕ)

/-- Task `t` of worker `i` ends with `r`. -/
def settle (w : WorkQueue σ ε) (i : ℕ) (t : Task σ ε) (r : Except ε Unit) : WorkQueue σ ε :=
  { w with
    working := Function.update w.working i none
    outcome := Function.update w.outcome t.id (some r) }

/-- Worker `i` has executed a statement of `t`; `rest` is left. -/
def advance (w : WorkQueue σ ε) (i : ℕ) (t : Task σ ε) (rest : List (σ → Except ε σ)) (m : σ) :
    WorkQueue σ ε :=
  { w with
    working := Function.update w.working i (some ⟨t.call, t.index, rest⟩)
    memory := Function.update w.memory t.call m }

/-- The next statement of the task of worker `i`. -/
def execute (w : WorkQueue σ ε) (i : ℕ) (t : Task σ ε) : WorkQueue σ ε :=
  match t.body with
  | [] => w.settle i t (.ok ())
  | f :: rest =>
    match f (w.memory t.call) with
    | .ok m => w.advance i t rest m
    | .error e => w.settle i t (.error e)

def next (w : WorkQueue σ ε) : Act σ ε → Option (WorkQueue σ ε)
  | .begin c m =>
    if (w.submitted c).isEmpty then
      some { w with start := Function.update w.start c m, memory := Function.update w.memory c m }
    else none
  | .push c body => some { w with
      queue := w.queue ++ [⟨c, (w.submitted c).length, body⟩]
      submitted := Function.update w.submitted c (w.submitted c ++ [body]) }
  | .take i =>
    match w.working i, w.queue with
    | none, t :: queue => some { w with queue := queue, working := Function.update w.working i (some t) }
    | _, _ => none
  | .step i => (w.working i).map (execute w i)

/-- The tasks handed in. -/
def pushed (w : WorkQueue σ ε) : Act σ ε → List (Task σ ε)
  | .push c body => [⟨c, (w.submitted c).length, body⟩]
  | _ => []

/-- The tasks taken. -/
def taken (w : WorkQueue σ ε) : Act σ ε → List (Task σ ε)
  | .take _ => w.queue.take 1
  | _ => []

/-- The statement of call `c` that succeeds, with the number of its task. -/
def executed (c : ℕ) (w : WorkQueue σ ε) : Act σ ε → List (ℕ × (σ → Except ε σ))
  | .step i =>
    match w.working i with
    | some ⟨c', k, f :: _⟩ => if c' = c ∧ (f (w.memory c')).isOk then [(k, f)] else []
    | _ => []
  | _ => []

/-- What the tasks of call `c` have executed. -/
def trace (memory : ℕ → σ) (c : ℕ) (acts : List (Act σ ε)) : List (ℕ × (σ → Except ε σ)) :=
  collect next (executed c) (initial memory) acts

/-- The statements, one after the other. -/
def replay (l : List (ℕ × (σ → Except ε σ))) (m : σ) : Except ε σ := l.foldlM (fun m x => x.2 m) m

/-! ### What a step can do -/

variable {w w' : WorkQueue σ ε}

theorem begin_cases {c : ℕ} {m : σ} (h : next w (.begin c m) = some w') : w.submitted c = [] ∧
    w' = { w with start := Function.update w.start c m, memory := Function.update w.memory c m } := by
  simp only [next] at h
  split at h
  · rename_i hnil
    exact ⟨List.isEmpty_iff.mp hnil, (Option.some.inj h).symm⟩
  · cases h

theorem take_cases {i : ℕ} (h : next w (.take i) = some w') : w.working i = none ∧
    ∃ t queue, w.queue = t :: queue ∧
      w' = { w with queue := queue, working := Function.update w.working i (some t) } := by
  simp only [next] at h
  split at h
  · rename_i t queue hw hq
    exact ⟨hw, t, queue, hq, (Option.some.inj h).symm⟩
  · cases h

/-- What is left of a task when it ends with `r`. -/
def EndsWith (w : WorkQueue σ ε) (t : Task σ ε) : Except ε Unit → Prop
  | .ok () => t.body = []
  | .error e => ∃ f rest, t.body = f :: rest ∧ f (w.memory t.call) = .error e

/-- A statement succeeds, or the task ends. -/
theorem step_cases {i : ℕ} (h : next w (.step i) = some w') : ∃ t, w.working i = some t ∧
    ((∃ f rest m, t.body = f :: rest ∧ f (w.memory t.call) = .ok m ∧ w' = w.advance i t rest m) ∨
      ∃ r, EndsWith w t r ∧ w' = w.settle i t r) := by
  simp only [next, Option.map_eq_some_iff] at h
  obtain ⟨t, ht, rfl⟩ := h
  refine ⟨t, ht, ?_⟩
  unfold execute
  cases hb : t.body with
  | nil => exact Or.inr ⟨.ok (), hb, rfl⟩
  | cons f rest =>
    cases hf : f (w.memory t.call) with
    | ok m =>
      refine Or.inl ⟨f, rest, m, rfl, hf, ?_⟩
      simp only [hf]
    | error e =>
      refine Or.inr ⟨.error e, ⟨f, rest, hb, hf⟩, ?_⟩
      simp only [hf]

theorem executed_ok {i : ℕ} {t : Task σ ε} {f : σ → Except ε σ} {fs : List (σ → Except ε σ)} {m : σ}
    (ht : w.working i = some t) (hb : t.body = f :: fs) (hf : f (w.memory t.call) = .ok m) (c : ℕ) :
    executed c w (.step i) = if t.call = c then [(t.index, f)] else [] := by
  obtain ⟨c', k, body⟩ := t
  simp only at hb hf
  subst hb
  simp [executed, ht, hf, Except.isOk, Except.toBool]

theorem executed_settled {i : ℕ} {t : Task σ ε} {r : Except ε Unit} (ht : w.working i = some t)
    (h : EndsWith w t r) (c : ℕ) : executed c w (.step i) = [] := by
  obtain ⟨c', k, body⟩ := t
  cases r with
  | ok u =>
    have hb : body = [] := h
    subst hb
    simp [executed, ht]
  | error e =>
    obtain ⟨f, rest, hb, hf⟩ := h
    simp only at hb hf
    subst hb
    simp [executed, ht, hf, Except.isOk, Except.toBool]

/-! ### Exactly once, and in order -/

/-- What has been taken, in order, and then the queue, is what was handed in. -/
theorem pushed_eq {memory : ℕ → σ} {acts : List (Act σ ε)}
    (h : run next (initial memory) acts = some w) :
    collect next pushed (initial memory) acts = collect next taken (initial memory) acts ++ w.queue := by
  refine run_inv next (C := fun _ _ => True) (fun as w => collect next pushed (initial memory) as =
    collect next taken (initial memory) as ++ w.queue) rfl ?_ (along_of_forall next _ fun _ _ => trivial) h
  intro as w a w' hrun hI _ ha
  rw [collect_concat next pushed hrun ha, collect_concat next taken hrun ha, hI]
  cases a with
  | begin c m =>
    obtain ⟨-, rfl⟩ := begin_cases ha
    simp [pushed, taken]
  | push c body =>
    simp only [next, Option.some.injEq] at ha
    subst ha
    simp [pushed, taken]
  | take i =>
    obtain ⟨-, t, queue, hq, rfl⟩ := take_cases ha
    simp [pushed, taken, hq]
  | step i =>
    obtain ⟨t, -, ⟨f, rest, m, -, -, rfl⟩ | ⟨r, -, rfl⟩⟩ := step_cases ha <;>
      simp [pushed, taken, advance, settle]

/-- Where the tasks of a state are. -/
structure Placed (w : WorkQueue σ ε) : Prop where
  queueNodup : (w.queue.map Task.id).Nodup
  queueWorking : ∀ t ∈ w.queue, ∀ i u, w.working i = some u → u.id ≠ t.id
  queueOutcome : ∀ t ∈ w.queue, w.outcome t.id = none
  workingInj : ∀ i j t u, w.working i = some t → w.working j = some u → t.id = u.id → i = j
  workingOutcome : ∀ i t, w.working i = some t → w.outcome t.id = none
  queueIndex : ∀ t ∈ w.queue, t.index < (w.submitted t.call).length
  workingIndex : ∀ i t, w.working i = some t → t.index < (w.submitted t.call).length
  outcomeIndex : ∀ c k, w.outcome (c, k) ≠ none → k < (w.submitted c).length
  somewhere : ∀ c k, k < (w.submitted c).length → (c, k) ∈ w.queue.map Task.id ∨
    (∃ i t, w.working i = some t ∧ t.id = (c, k)) ∨ w.outcome (c, k) ≠ none

/-- The number of a task, from its identity. -/
theorem index_lt {t : Task σ ε} {c k : ℕ} (hid : t.id = (c, k)) (h : t.index < (w.submitted t.call).length) :
    k < (w.submitted c).length := by
  obtain ⟨c', k', body⟩ := t
  simp only [Task.id, Prod.mk.injEq] at hid
  obtain ⟨rfl, rfl⟩ := hid
  exact h

theorem placed_initial (memory : ℕ → σ) : Placed (initial memory : WorkQueue σ ε) where
  queueNodup := List.nodup_nil
  queueWorking := fun t ht => by cases ht
  queueOutcome := fun t ht => by cases ht
  workingInj := fun i j t u hi => by cases hi
  workingOutcome := fun i t hi => by cases hi
  queueIndex := fun t ht => by cases ht
  workingIndex := fun i t hi => by cases hi
  outcomeIndex := fun c k h => absurd rfl h
  somewhere := fun c k hk => absurd hk (Nat.not_lt_zero k)

/-- The task that a worker holds after its task has changed to `t'`. -/
theorem working_update {i j : ℕ} {t' : Option (Task σ ε)} {u : Task σ ε}
    (h : Function.update w.working i t' j = some u) : (j = i ∧ t' = some u) ∨ (j ≠ i ∧ w.working j = some u) := by
  by_cases hj : j = i
  · subst hj
    rw [Function.update_self] at h
    exact Or.inl ⟨rfl, h⟩
  · rw [Function.update_of_ne hj] at h
    exact Or.inr ⟨hj, h⟩

/-- Handing in a task changes no earlier one. -/
theorem submitted_push (c c' : ℕ) (body : List (σ → Except ε σ)) :
    (w.submitted c').length ≤ (Function.update w.submitted c (w.submitted c ++ [body]) c').length := by
  by_cases hc : c' = c
  · subst hc
    rw [Function.update_self, List.length_append]
    exact Nat.le_add_right _ _
  · exact Nat.le_of_eq (congrArg List.length (Function.update_of_ne hc _ w.submitted).symm)

/-- No task is handed in twice. -/
theorem pushed_nodup {memory : ℕ → σ} {acts : List (Act σ ε)} (h : run next (initial memory) acts = some w) :
    ((collect next pushed (initial memory) acts).map Task.id).Nodup := by
  suffices hI : ((collect next pushed (initial memory) acts).map Task.id).Nodup ∧
      ∀ t ∈ collect next pushed (initial memory) acts, t.index < (w.submitted t.call).length from hI.1
  refine run_inv next (C := fun _ _ => True) (fun as w =>
    ((collect next pushed (initial memory) as).map Task.id).Nodup ∧
      ∀ t ∈ collect next pushed (initial memory) as, t.index < (w.submitted t.call).length)
    ⟨List.nodup_nil, fun t ht => by cases ht⟩ ?_ (along_of_forall next _ fun _ _ => trivial) h
  rintro as w a w' hrun ⟨hnodup, hindex⟩ _ ha
  rw [collect_concat next pushed hrun ha]
  cases a with
  | begin c m =>
    obtain ⟨-, rfl⟩ := begin_cases ha
    exact ⟨by simpa [pushed] using hnodup, by simpa [pushed] using hindex⟩
  | push c body =>
    simp only [next, Option.some.injEq] at ha
    subst ha
    refine ⟨?_, fun t ht => ?_⟩
    · rw [List.map_append]
      refine List.Nodup.append hnodup (List.nodup_singleton _) ?_
      intro id hid hnew
      obtain ⟨t, ht, rfl⟩ := List.mem_map.mp hid
      exact lt_irrefl _ (index_lt (List.mem_singleton.mp hnew) (hindex t ht))
    · rcases List.mem_append.mp ht with ht | ht
      · exact (hindex t ht).trans_le (submitted_push _ _ _)
      · rw [List.mem_singleton.mp ht]
        simp
  | take i =>
    obtain ⟨-, t, queue, -, rfl⟩ := take_cases ha
    exact ⟨by simpa [pushed] using hnodup, by simpa [pushed] using hindex⟩
  | step i =>
    obtain ⟨t, -, ⟨f, rest, m, -, -, rfl⟩ | ⟨r, -, rfl⟩⟩ := step_cases ha <;>
      exact ⟨by simpa [pushed] using hnodup, by simpa [pushed, advance, settle] using hindex⟩

theorem Placed.push (hP : Placed w) (c : ℕ) (body : List (σ → Except ε σ))
    (h : next w (.push c body) = some w') : Placed w' := by
  simp only [next, Option.some.injEq] at h
  subst h
  -- the new task has a number that no task of the call had
  have hqueue : ∀ t ∈ w.queue, t.id ≠ (c, (w.submitted c).length) := fun t ht hid =>
    lt_irrefl _ (index_lt hid (hP.queueIndex t ht))
  have hwork : ∀ i u, w.working i = some u → u.id ≠ (c, (w.submitted c).length) := fun i u hu hid =>
    lt_irrefl _ (index_lt hid (hP.workingIndex i u hu))
  have hout : w.outcome (c, (w.submitted c).length) = none := by
    by_contra hne
    exact lt_irrefl _ (hP.outcomeIndex c _ hne)
  refine ⟨?_, fun t ht i u hu => ?_, fun t ht => ?_, hP.workingInj, hP.workingOutcome, fun t ht => ?_,
    fun i t hi => (hP.workingIndex i t hi).trans_le (submitted_push _ _ _),
    fun c' k hk => (hP.outcomeIndex c' k hk).trans_le (submitted_push _ _ _), fun c' k hk => ?_⟩
  · rw [List.map_append]
    refine List.Nodup.append hP.queueNodup (List.nodup_singleton _) ?_
    intro id hid hnew
    obtain ⟨t, ht, rfl⟩ := List.mem_map.mp hid
    exact hqueue t ht (List.mem_singleton.mp hnew)
  · rcases List.mem_append.mp ht with ht | ht
    · exact hP.queueWorking t ht i u hu
    · rw [List.mem_singleton.mp ht]
      exact hwork i u hu
  · rcases List.mem_append.mp ht with ht | ht
    · exact hP.queueOutcome t ht
    · rw [List.mem_singleton.mp ht]
      exact hout
  · rcases List.mem_append.mp ht with ht | ht
    · exact (hP.queueIndex t ht).trans_le (submitted_push _ _ _)
    · rw [List.mem_singleton.mp ht]
      simp
  · rw [List.map_append, List.mem_append]
    by_cases hc : c' = c
    · subst hc
      simp only [Function.update_self, List.length_append, List.length_singleton] at hk
      rcases Nat.lt_succ_iff_lt_or_eq.mp hk with hlt | rfl
      · rcases hP.somewhere c' k hlt with h | h
        · exact Or.inl (Or.inl h)
        · exact Or.inr h
      · exact Or.inl (Or.inr (List.mem_singleton.mpr rfl))
    · simp only [Function.update_of_ne hc] at hk
      rcases hP.somewhere c' k hk with h | h
      · exact Or.inl (Or.inl h)
      · exact Or.inr h

theorem Placed.take (hP : Placed w) {i : ℕ} (h : next w (.take i) = some w') : Placed w' := by
  obtain ⟨hidle, t, queue, hq, rfl⟩ := take_cases h
  have hmem : ∀ u ∈ queue, u ∈ w.queue := fun u hu => hq ▸ List.mem_cons_of_mem _ hu
  have ht : t ∈ w.queue := hq ▸ List.mem_cons_self
  have hnodup := hP.queueNodup
  rw [hq, List.map_cons, List.nodup_cons] at hnodup
  refine ⟨hnodup.2, fun u hu j v hv => ?_, fun u hu => hP.queueOutcome u (hmem u hu),
    fun j k u v hu hv hid => ?_, fun j u hu => ?_, fun u hu => hP.queueIndex u (hmem u hu),
    fun j u hu => ?_, hP.outcomeIndex, fun c k hk => ?_⟩
  · rcases working_update hv with ⟨-, hv⟩ | ⟨-, hv⟩
    · rw [← Option.some.inj hv]
      exact fun hid => hnodup.1 (hid ▸ List.mem_map_of_mem hu)
    · exact hP.queueWorking u (hmem u hu) j v hv
  · rcases working_update hu with ⟨hj, hu'⟩ | ⟨hj, hu'⟩
    · rcases working_update hv with ⟨hk, -⟩ | ⟨-, hv'⟩
      · rw [hj, hk]
      · rw [← Option.some.inj hu'] at hid
        exact absurd hid.symm (hP.queueWorking t ht k v hv')
    · rcases working_update hv with ⟨-, hv'⟩ | ⟨-, hv'⟩
      · rw [← Option.some.inj hv'] at hid
        exact absurd hid (hP.queueWorking t ht j u hu')
      · exact hP.workingInj j k u v hu' hv' hid
  · rcases working_update hu with ⟨-, hu⟩ | ⟨-, hu⟩
    · exact Option.some.inj hu ▸ hP.queueOutcome t ht
    · exact hP.workingOutcome j u hu
  · rcases working_update hu with ⟨-, hu⟩ | ⟨-, hu⟩
    · exact Option.some.inj hu ▸ hP.queueIndex t ht
    · exact hP.workingIndex j u hu
  · rcases hP.somewhere c k hk with h | ⟨j, u, hu, hid⟩ | h
    · rw [hq, List.map_cons, List.mem_cons] at h
      rcases h with h | h
      · exact Or.inr (Or.inl ⟨i, t, Function.update_self _ _ _, h.symm⟩)
      · exact Or.inl h
    · have hji : j ≠ i := by
        rintro rfl
        rw [hidle] at hu
        cases hu
      exact Or.inr (Or.inl ⟨j, u, (Function.update_of_ne hji _ _).trans hu, hid⟩)
    · exact Or.inr (Or.inr h)

theorem Placed.advance (hP : Placed w) {i : ℕ} {t : Task σ ε} (ht : w.working i = some t)
    (rest : List (σ → Except ε σ)) (m : σ) : Placed (w.advance i t rest m) := by
  -- the tasks the workers hold have the numbers they had
  have hold : ∀ j u, (w.advance i t rest m).working j = some u → ∃ v, w.working j = some v ∧ u.id = v.id := by
    intro j u hu
    rcases working_update hu with ⟨rfl, hu'⟩ | ⟨-, hu'⟩
    · rw [← Option.some.inj hu']
      exact ⟨t, ht, rfl⟩
    · exact ⟨u, hu', rfl⟩
  refine ⟨hP.queueNodup, fun u hu j v hv => ?_, hP.queueOutcome, fun j k u v hu hv hid => ?_,
    fun j u hu => ?_, hP.queueIndex, fun j u hu => ?_, hP.outcomeIndex, fun c k hk => ?_⟩
  · obtain ⟨v', hv', hid⟩ := hold j v hv
    exact hid ▸ hP.queueWorking u hu j v' hv'
  · obtain ⟨u', hu', hidu⟩ := hold j u hu
    obtain ⟨v', hv', hidv⟩ := hold k v hv
    exact hP.workingInj j k u' v' hu' hv' (hidu ▸ hidv ▸ hid)
  · obtain ⟨v, hv, hid⟩ := hold j u hu
    exact (congrArg w.outcome hid).trans (hP.workingOutcome j v hv)
  · obtain ⟨v, hv, hid⟩ := hold j u hu
    exact index_lt hid.symm (hP.workingIndex j v hv)
  · rcases hP.somewhere c k hk with h | ⟨j, u, hu, hid⟩ | h
    · exact Or.inl h
    · refine Or.inr (Or.inl ?_)
      by_cases hj : j = i
      · subst hj
        rw [ht] at hu
        exact ⟨j, _, Function.update_self _ _ _, (congrArg Task.id (Option.some.inj hu)).trans hid⟩
      · exact ⟨j, u, (Function.update_of_ne hj _ _).trans hu, hid⟩
    · exact Or.inr (Or.inr h)

theorem Placed.settle (hP : Placed w) {i : ℕ} {t : Task σ ε} (ht : w.working i = some t)
    (r : Except ε Unit) : Placed (w.settle i t r) := by
  have hold : ∀ j u, (w.settle i t r).working j = some u → j ≠ i ∧ w.working j = some u := by
    intro j u hu
    rcases working_update hu with ⟨-, hu⟩ | hu
    · cases hu
    · exact hu
  have hout : ∀ id, id ≠ t.id → (w.settle i t r).outcome id = w.outcome id :=
    fun id h => Function.update_of_ne h _ _
  refine ⟨hP.queueNodup, fun u hu j v hv => hP.queueWorking u hu j v (hold j v hv).2, fun u hu => ?_,
    fun j k u v hu hv hid => hP.workingInj j k u v (hold j u hu).2 (hold k v hv).2 hid,
    fun j u hu => ?_, hP.queueIndex, fun j u hu => hP.workingIndex j u (hold j u hu).2, fun c k hk => ?_,
    fun c k hk => ?_⟩
  · rw [hout _ (hP.queueWorking u hu i t ht).symm]
    exact hP.queueOutcome u hu
  · obtain ⟨hj, hu⟩ := hold j u hu
    rw [hout _ fun hid => hj (hP.workingInj j i u t hu ht hid)]
    exact hP.workingOutcome j u hu
  · by_cases hid : (c, k) = t.id
    · exact index_lt hid.symm (hP.workingIndex i t ht)
    · rw [hout _ hid] at hk
      exact hP.outcomeIndex c k hk
  · by_cases hid : (c, k) = t.id
    · refine Or.inr (Or.inr ?_)
      show Function.update w.outcome t.id (some r) (c, k) ≠ none
      rw [hid, Function.update_self]
      exact Option.some_ne_none r
    · rcases hP.somewhere c k hk with h | ⟨j, u, hu, hu'⟩ | h
      · exact Or.inl h
      · have hj : j ≠ i := by
          rintro rfl
          rw [ht] at hu
          exact hid (by rw [← hu', Option.some.inj hu])
        exact Or.inr (Or.inl ⟨j, u, (Function.update_of_ne hj _ _).trans hu, hu'⟩)
      · exact Or.inr (Or.inr (by rw [hout _ hid]; exact h))

theorem placed_next {a : Act σ ε} (hP : Placed w) (h : next w a = some w') : Placed w' := by
  cases a with
  | begin c m =>
    obtain ⟨-, rfl⟩ := begin_cases h
    exact { hP with }
  | push c body => exact hP.push c body h
  | take i => exact hP.take h
  | step i =>
    obtain ⟨t, ht, ⟨f, rest, m, -, -, rfl⟩ | ⟨r, -, rfl⟩⟩ := step_cases h
    · exact hP.advance ht rest m
    · exact hP.settle ht r

/-! ### What the tasks have done -/

/-- What the tasks have executed, against what was handed in and what is left. -/
structure Ran (memory : ℕ → σ) (acts : List (Act σ ε)) (w : WorkQueue σ ε) : Prop where
  replay : ∀ c, replay (trace memory c acts) (w.start c) = .ok (w.memory c)
  index : ∀ c, ∀ x ∈ trace memory c acts, x.1 < (w.submitted c).length
  queued : ∀ t ∈ w.queue, (w.submitted t.call)[t.index]? = some t.body
  queuedPart : ∀ t ∈ w.queue, part t.index (trace memory t.call acts) = []
  working : ∀ i t, w.working i = some t →
    (w.submitted t.call)[t.index]? = some (part t.index (trace memory t.call acts) ++ t.body)
  ended : ∀ c k r, w.outcome (c, k) = some r → ∃ rest, (r = .ok () → rest = []) ∧
    (w.submitted c)[k]? = some (part k (trace memory c acts) ++ rest)

theorem ran_initial (memory : ℕ → σ) : Ran memory [] (initial memory : WorkQueue σ ε) where
  replay := fun _ => rfl
  index := fun c x hx => by cases hx
  queued := fun t ht => by cases ht
  queuedPart := fun t ht => by cases ht
  working := fun i t hi => by cases hi
  ended := fun c k r h => by cases h

variable {memory : ℕ → σ} {acts : List (Act σ ε)}

/-- A step that executes nothing keeps the trace. -/
theorem trace_same {a : Act σ ε} (hrun : run next (initial memory) acts = some w) (ha : next w a = some w')
    {c : ℕ} (hex : executed c w a = []) : trace memory c (acts ++ [a]) = trace memory c acts := by
  rw [trace, collect_concat next (executed c) hrun ha, hex, List.append_nil]
  rfl

theorem Ran.begin (hR : Ran memory acts w) (hrun : run next (initial memory) acts = some w) {c : ℕ} {m : σ}
    (ha : next w (.begin c m) = some w') : Ran memory (acts ++ [.begin c m]) w' := by
  have hsame : ∀ c', trace memory c' (acts ++ [.begin c m]) = trace memory c' acts :=
    fun c' => trace_same hrun ha rfl
  obtain ⟨hnone, rfl⟩ := begin_cases ha
  refine ⟨fun c' => ?_, fun c' => ?_, hR.queued, fun t ht => ?_, fun i t hi => ?_, fun c' k r hk => ?_⟩
  · rw [hsame c']
    by_cases hc : c' = c
    · subst hc
      have hnil : trace memory c' acts = [] := by
        refine List.eq_nil_iff_forall_not_mem.mpr fun x hx => ?_
        have hlt := hR.index c' x hx
        rw [hnone] at hlt
        exact Nat.not_lt_zero _ hlt
      rw [hnil]
      simp only [Function.update_self]
      rfl
    · simp only [Function.update_of_ne hc]
      exact hR.replay c'
  · rw [hsame c']
    exact hR.index c'
  · rw [hsame]
    exact hR.queuedPart t ht
  · rw [hsame]
    exact hR.working i t hi
  · rw [hsame]
    exact hR.ended c' k r hk

/-- The tasks handed in before keep their numbers. -/
theorem submitted_getElem? {c c' k : ℕ} {body b : List (σ → Except ε σ)}
    (h : (w.submitted c')[k]? = some b) :
    (Function.update w.submitted c (w.submitted c ++ [body]) c')[k]? = some b := by
  by_cases hc : c' = c
  · subst hc
    rw [Function.update_self, List.getElem?_append_left (List.getElem?_eq_some_iff.mp h).1]
    exact h
  · rw [Function.update_of_ne hc]
    exact h

theorem Ran.push (hR : Ran memory acts w) (hrun : run next (initial memory) acts = some w) {c : ℕ}
    {body : List (σ → Except ε σ)} (ha : next w (.push c body) = some w') :
    Ran memory (acts ++ [.push c body]) w' := by
  have hsame : ∀ c', trace memory c' (acts ++ [.push c body]) = trace memory c' acts :=
    fun c' => trace_same hrun ha rfl
  simp only [next, Option.some.injEq] at ha
  subst ha
  refine ⟨fun c' => ?_, fun c' x hx => ?_, fun t ht => ?_, fun t ht => ?_, fun i t hi => ?_,
    fun c' k r hk => ?_⟩
  · rw [hsame]
    exact hR.replay c'
  · rw [hsame] at hx
    exact (hR.index c' x hx).trans_le (submitted_push _ _ _)
  · rcases List.mem_append.mp ht with ht | ht
    · exact submitted_getElem? (hR.queued t ht)
    · rw [List.mem_singleton.mp ht]
      simp
  · rw [hsame]
    rcases List.mem_append.mp ht with ht | ht
    · exact hR.queuedPart t ht
    · rw [List.mem_singleton.mp ht]
      refine List.eq_nil_iff_forall_not_mem.mpr fun f hf => ?_
      exact lt_irrefl _ (hR.index c _ (mem_part.mp hf))
  · rw [hsame]
    exact submitted_getElem? (hR.working i t hi)
  · rw [hsame]
    obtain ⟨rest, hrest, hbody⟩ := hR.ended c' k r hk
    exact ⟨rest, hrest, submitted_getElem? hbody⟩

theorem Ran.take (hR : Ran memory acts w) (hrun : run next (initial memory) acts = some w) {i : ℕ}
    (ha : next w (.take i) = some w') : Ran memory (acts ++ [.take i]) w' := by
  have hsame : ∀ c, trace memory c (acts ++ [.take i]) = trace memory c acts :=
    fun c => trace_same hrun ha rfl
  obtain ⟨-, t, queue, hq, rfl⟩ := take_cases ha
  have hmem : ∀ u ∈ queue, u ∈ w.queue := fun u hu => hq ▸ List.mem_cons_of_mem _ hu
  have ht : t ∈ w.queue := hq ▸ List.mem_cons_self
  refine ⟨fun c => ?_, fun c => ?_, fun u hu => hR.queued u (hmem u hu), fun u hu => ?_, fun j u hu => ?_,
    fun c k r hk => ?_⟩
  · rw [hsame]
    exact hR.replay c
  · rw [hsame]
    exact hR.index c
  · rw [hsame]
    exact hR.queuedPart u (hmem u hu)
  · rw [hsame]
    rcases working_update hu with ⟨-, hu'⟩ | ⟨-, hu'⟩
    · rw [← Option.some.inj hu', hR.queuedPart t ht]
      exact hR.queued t ht
    · exact hR.working j u hu'
  · rw [hsame]
    exact hR.ended c k r hk

theorem Ran.advance (hR : Ran memory acts w) (hP : Placed w) (hrun : run next (initial memory) acts = some w)
    {i : ℕ} {t : Task σ ε} {f : σ → Except ε σ} {rest : List (σ → Except ε σ)} {m : σ}
    (ha : next w (.step i) = some (w.advance i t rest m)) (ht : w.working i = some t)
    (hb : t.body = f :: rest) (hf : f (w.memory t.call) = .ok m) :
    Ran memory (acts ++ [.step i]) (w.advance i t rest m) := by
  have htrace : ∀ c, trace memory c (acts ++ [.step i]) =
      trace memory c acts ++ if t.call = c then [(t.index, f)] else [] := by
    intro c
    rw [trace, collect_concat next (executed c) hrun ha, executed_ok ht hb hf c]
    rfl
  -- the other tasks execute nothing
  have hother : ∀ c k, t.id ≠ (c, k) →
      part k (trace memory c (acts ++ [.step i])) = part k (trace memory c acts) := by
    intro c k hne
    rw [htrace, part_append]
    by_cases hc : t.call = c
    · have hk : t.index ≠ k := fun hk => hne (by rw [Task.id, hc, hk])
      rw [if_pos hc, part_other hk, List.append_nil]
    · rw [if_neg hc]
      exact List.append_nil _
  refine ⟨fun c => ?_, fun c x hx => ?_, hR.queued, fun u hu => ?_, fun j u hu => ?_, fun c k r hk => ?_⟩
  · rw [htrace]
    show WorkQueue.replay _ (w.start c) = .ok (Function.update w.memory t.call m c)
    by_cases hc : t.call = c
    · subst hc
      rw [if_pos rfl, Function.update_self, WorkQueue.replay, List.foldlM_append]
      have hrep := hR.replay t.call
      rw [WorkQueue.replay] at hrep
      rw [hrep]
      show (f (w.memory t.call) >>= fun m => pure m) = .ok m
      rw [hf]
      rfl
    · rw [if_neg hc, List.append_nil, Function.update_of_ne (Ne.symm hc)]
      exact hR.replay c
  · rw [htrace, List.mem_append] at hx
    rcases hx with hx | hx
    · exact hR.index c x hx
    · by_cases hc : t.call = c
      · rw [if_pos hc, List.mem_singleton] at hx
        rw [hx, ← hc]
        exact hP.workingIndex i t ht
      · rw [if_neg hc] at hx
        cases hx
  · rw [hother _ _ (hP.queueWorking u hu i t ht)]
    exact hR.queuedPart u hu
  · rcases working_update hu with ⟨-, hu'⟩ | ⟨hj, hu'⟩
    · rw [← Option.some.inj hu']
      show (w.submitted t.call)[t.index]? = some (part t.index (trace memory t.call (acts ++ [.step i])) ++ rest)
      rw [htrace, if_pos rfl, part_append, part_self, List.append_assoc, List.singleton_append, ← hb]
      exact hR.working i t ht
    · rw [hother _ _ fun hid => hj (hP.workingInj j i u t hu' ht hid.symm)]
      exact hR.working j u hu'
  · have hne : t.id ≠ (c, k) := by
      intro hid
      have hnone : w.outcome (c, k) = none := hid ▸ hP.workingOutcome i t ht
      cases hnone.symm.trans hk
    rw [hother _ _ hne]
    exact hR.ended c k r hk

theorem Ran.settle (hR : Ran memory acts w) (hrun : run next (initial memory) acts = some w)
    {i : ℕ} {t : Task σ ε} {r : Except ε Unit} (ha : next w (.step i) = some (w.settle i t r))
    (ht : w.working i = some t) (hr : EndsWith w t r) :
    Ran memory (acts ++ [.step i]) (w.settle i t r) := by
  have hsame : ∀ c, trace memory c (acts ++ [.step i]) = trace memory c acts :=
    fun c => trace_same hrun ha (executed_settled ht hr c)
  refine ⟨fun c => ?_, fun c => ?_, hR.queued, fun u hu => ?_, fun j u hu => ?_, fun c k r' hk => ?_⟩
  · rw [hsame]
    exact hR.replay c
  · rw [hsame]
    exact hR.index c
  · rw [hsame]
    exact hR.queuedPart u hu
  · rw [hsame]
    rcases working_update hu with ⟨-, hu'⟩ | ⟨-, hu'⟩
    · cases hu'
    · exact hR.working j u hu'
  · rw [hsame]
    change Function.update w.outcome t.id (some r) (c, k) = some r' at hk
    by_cases hid : (c, k) = t.id
    · rw [hid, Function.update_self, Option.some.injEq] at hk
      subst hk
      rw [show c = t.call from (Prod.ext_iff.mp hid).1, show k = t.index from (Prod.ext_iff.mp hid).2]
      refine ⟨t.body, ?_, hR.working i t ht⟩
      rintro rfl
      exact hr
    · rw [Function.update_of_ne hid] at hk
      exact hR.ended c k r' hk

/-- What holds after every run. -/
theorem inv_run (h : run next (initial memory) acts = some w) : Placed w ∧ Ran memory acts w := by
  refine run_inv next (C := fun _ _ => True) (fun as w => Placed w ∧ Ran memory as w)
    ⟨placed_initial memory, ran_initial memory⟩ ?_ (along_of_forall next _ fun _ _ => trivial) h
  rintro as w a w' hrun ⟨hP, hR⟩ _ ha
  refine ⟨placed_next hP ha, ?_⟩
  cases a with
  | begin c m => exact hR.begin hrun ha
  | push c body => exact hR.push hrun ha
  | take i => exact hR.take hrun ha
  | step i =>
    obtain ⟨t, ht, ⟨f, rest, m, hb, hf, rfl⟩ | ⟨r, hr, rfl⟩⟩ := step_cases ha
    · exact hR.advance hP hrun ha ht hb hf
    · exact hR.settle hrun ha ht hr

/-- When the tasks of a call have ended without error, its memory is what an
interleaving of them makes of what it held at first. -/
theorem interleaves_of_ended (h : run next (initial memory) acts = some w) {c : ℕ}
    (hend : ∀ k < (w.submitted c).length, w.outcome (c, k) = some (.ok ())) :
    Interleaves (trace memory c acts) (w.submitted c) ∧
      replay (trace memory c acts) (w.start c) = .ok (w.memory c) := by
  obtain ⟨-, hR⟩ := inv_run h
  refine ⟨fun k => ?_, hR.replay c⟩
  rcases Nat.lt_or_ge k (w.submitted c).length with hlt | hge
  · obtain ⟨rest, hrest, hbody⟩ := hR.ended c k _ (hend k hlt)
    rw [List.getD_eq_getElem?_getD, hbody, Option.getD_some, hrest rfl, List.append_nil]
  · rw [List.getD_eq_default _ _ hge]
    refine List.eq_nil_iff_forall_not_mem.mpr fun f hf => ?_
    exact absurd (hR.index c _ (mem_part.mp hf)) (Nat.not_lt.mpr hge)

/-! ### Tasks that do not fail -/

/-- From `J` every statement succeeds, and keeps `J`. -/
def Safe (J : σ → Prop) (bodies : List (List (σ → Except ε σ))) : Prop :=
  ∀ body ∈ bodies, ∀ f ∈ body, ∀ m, J m → ∃ m', f m = .ok m' ∧ J m'

/-- Statements that keep `J`, one after the other. -/
theorem replay_keeps {J : σ → Prop} : ∀ {l : List (ℕ × (σ → Except ε σ))} {m m' : σ},
    (∀ x ∈ l, ∀ m, J m → ∃ m', x.2 m = .ok m' ∧ J m') → J m → replay l m = .ok m' → J m'
  | [], m, m', _, h0, h => by
    have hm : m = m' := Except.ok.inj h
    exact hm ▸ h0
  | x :: l, m, m', hl, h0, h => by
    obtain ⟨m1, h1, hJ1⟩ := hl x List.mem_cons_self m h0
    rw [replay, List.foldlM_cons, h1] at h
    exact replay_keeps (fun y hy => hl y (List.mem_cons_of_mem _ hy)) hJ1 h

/-- What has been executed is a statement of the task whose number it has. -/
theorem trace_mem (hP : Placed w) (hR : Ran memory acts w) {c : ℕ} {x : ℕ × (σ → Except ε σ)}
    (hx : x ∈ trace memory c acts) : ∃ body, (w.submitted c)[x.1]? = some body ∧ x.2 ∈ body := by
  obtain ⟨k, f⟩ := x
  have hpart : f ∈ part k (trace memory c acts) := mem_part.mpr hx
  rcases hP.somewhere c k (hR.index c _ hx) with h | ⟨i, t, ht, hid⟩ | h
  · obtain ⟨t, ht, hid⟩ := List.mem_map.mp h
    have hnil := hR.queuedPart t ht
    rw [show t.call = c from (Prod.ext_iff.mp hid).1, show t.index = k from (Prod.ext_iff.mp hid).2] at hnil
    rw [hnil] at hpart
    cases hpart
  · have hbody := hR.working i t ht
    rw [show t.call = c from (Prod.ext_iff.mp hid).1, show t.index = k from (Prod.ext_iff.mp hid).2] at hbody
    exact ⟨_, hbody, List.mem_append_left _ hpart⟩
  · obtain ⟨r, hr⟩ := Option.ne_none_iff_exists'.mp h
    obtain ⟨rest, -, hbody⟩ := hR.ended c k r hr
    exact ⟨_, hbody, List.mem_append_left _ hpart⟩

theorem memory_keeps {J : σ → Prop} (hP : Placed w) (hR : Ran memory acts w) {c : ℕ}
    (hsafe : Safe J (w.submitted c)) (h0 : J (w.start c)) : J (w.memory c) := by
  refine replay_keeps (fun x hx => ?_) h0 (hR.replay c)
  obtain ⟨body, hbody, hmem⟩ := trace_mem hP hR hx
  exact hsafe body (List.mem_of_getElem? hbody) x.2 hmem

/-- Tasks whose statements succeed leave no error. -/
theorem outcome_ok {J : σ → Prop} (h : run next (initial memory) acts = some w) {c : ℕ}
    (hsafe : Safe J (w.submitted c)) (h0 : J (w.start c)) {k : ℕ} {r : Except ε Unit}
    (hr : w.outcome (c, k) = some r) : r = .ok () := by
  suffices hI : Safe J (w.submitted c) → J (w.start c) → ∀ k r, w.outcome (c, k) = some r → r = .ok () from
    hI hsafe h0 k r hr
  refine run_inv next (C := fun _ _ => True) (fun _ w => Safe J (w.submitted c) → J (w.start c) →
    ∀ k r, w.outcome (c, k) = some r → r = .ok ()) (fun _ _ k r hk => by cases hk) ?_
    (along_of_forall next _ fun _ _ => trivial) h
  intro as w a w' hrun hI _ ha
  obtain ⟨hP, hR⟩ := inv_run hrun
  cases a with
  | begin c' m =>
    obtain ⟨hnone, rfl⟩ := begin_cases ha
    intro hs hJ k r hk
    by_cases hc : c = c'
    · subst hc
      have hlt := hP.outcomeIndex c k (by rw [hk]; exact Option.some_ne_none r)
      rw [hnone] at hlt
      exact absurd hlt (Nat.not_lt_zero k)
    · simp only [Function.update_of_ne hc] at hJ
      exact hI hs hJ k r hk
  | push c' body =>
    simp only [next, Option.some.injEq] at ha
    subst ha
    intro hs hJ
    refine hI (fun b hb => hs b ?_) hJ
    by_cases hc : c = c'
    · subst hc
      simp only [Function.update_self]
      exact List.mem_append_left _ hb
    · simp only [Function.update_of_ne hc]
      exact hb
  | take i =>
    obtain ⟨-, t, queue, -, rfl⟩ := take_cases ha
    exact hI
  | step i =>
    obtain ⟨t, ht, ⟨f, rest, m, -, -, rfl⟩ | ⟨r, hr, rfl⟩⟩ := step_cases ha
    · exact hI
    · intro hs hJ k r' hk
      change Function.update w.outcome t.id (some r) (c, k) = some r' at hk
      by_cases hid : (c, k) = t.id
      · rw [hid, Function.update_self, Option.some.injEq] at hk
        subst hk
        cases r with
        | ok u => rfl
        | error e =>
          obtain ⟨f, rest, hb, hf⟩ := hr
          have hc : c = t.call := (Prod.ext_iff.mp hid).1
          subst hc
          have hmem : f ∈ part t.index (trace memory t.call as) ++ t.body := by simp [hb]
          obtain ⟨m', hm', -⟩ := hs _ (List.mem_of_getElem? (hR.working i t ht)) f hmem _
            (memory_keeps hP hR hs hJ)
          rw [hf] at hm'
          cases hm'
      · rw [Function.update_of_ne hid] at hk
        exact hI hs hJ k r' hk

end WorkQueue
end Ortoa
