/-
# Runs of a labelled transition system

A system is a partial function `next`: the state after an action, if the
action is enabled. A run is a list of actions (`run`); a condition on its
steps is `Along`; what an observer sees of it is `collect`. An invariant of
a run may speak of the actions taken so far, so that what has happened is
read off the run and need not be stored in the state.

Key definitions: `run`, `Along`, `collect`.
Key theorems: `run_append`, `run_inv`, `run_keeps`, `run_total`, `run_split`, `collect_concat`,
`along_append`, `run_simulates`.
-/
import Mathlib.Data.List.Induction
import Mathlib.Data.Option.Basic

namespace Ortoa

variable {σ α β : Type} (next : σ → α → Option σ)

/-- The state after the actions, if each is enabled in its turn. -/
def run : σ → List α → Option σ
  | s, [] => some s
  | s, a :: as => (next s a).bind fun s' => run s' as

/-- Every action of the run is taken in a state where `C` allows it. -/
def Along (C : σ → α → Prop) : σ → List α → Prop
  | _, [] => True
  | s, a :: as => C s a ∧ ∀ s', next s a = some s' → Along C s' as

/-- What `f` shows of each step of the run, in order. -/
def collect (f : σ → α → List β) : σ → List α → List β
  | _, [] => []
  | s, a :: as =>
    match next s a with
    | some s' => f s a ++ collect f s' as
    | none => []

@[simp] theorem run_nil (s : σ) : run next s [] = some s := rfl

theorem run_cons (s : σ) (a : α) (as : List α) :
    run next s (a :: as) = (next s a).bind fun s' => run next s' as := rfl

/-- A run is a fold. -/
theorem run_eq_foldlM : ∀ (s : σ) (as : List α), run next s as = as.foldlM next s
  | _, [] => rfl
  | s, a :: as => by
    rw [run_cons, List.foldlM_cons]
    exact congrArg _ (funext fun s' => run_eq_foldlM s' as)

theorem run_append : ∀ (s : σ) (as bs : List α),
    run next s (as ++ bs) = (run next s as).bind fun s' => run next s' bs
  | _, [], _ => rfl
  | s, a :: as, bs => by
    rw [List.cons_append, run_cons, run_cons]
    cases h : next s a with
    | none => rfl
    | some s1 => exact run_append s1 as bs

/-- A run and one more step. -/
theorem run_concat {s s'' : σ} {as : List α} {a : α} :
    run next s (as ++ [a]) = some s'' ↔ ∃ s', run next s as = some s' ∧ next s' a = some s'' := by
  rw [run_append, Option.bind_eq_some_iff]
  simp [run_cons]

/-- A step in the middle of a run. -/
theorem run_split {s s' : σ} {as bs : List α} {a : α} (h : run next s (as ++ a :: bs) = some s') :
    ∃ s1 s2, run next s as = some s1 ∧ next s1 a = some s2 ∧ run next s2 bs = some s' := by
  rw [run_append, Option.bind_eq_some_iff] at h
  obtain ⟨s1, h1, h2⟩ := h
  rw [run_cons, Option.bind_eq_some_iff] at h2
  obtain ⟨s2, h2, h3⟩ := h2
  exact ⟨s1, s2, h1, h2, h3⟩

theorem along_append {C : σ → α → Prop} : ∀ {s : σ} {as bs : List α},
    Along next C s (as ++ bs) ↔
      Along next C s as ∧ ∀ s', run next s as = some s' → Along next C s' bs
  | s, [], bs => by simp [Along]
  | s, a :: as, bs => by
    simp only [List.cons_append, Along, run_cons, Option.bind_eq_some_iff, and_assoc]
    refine and_congr_right fun _ => ⟨fun h => ⟨fun s1 h1 => ?_, ?_⟩, fun ⟨h1, h2⟩ s1 hs => ?_⟩
    · exact (along_append.mp (h s1 h1)).1
    · rintro s' ⟨s1, h1, h2⟩
      exact (along_append.mp (h s1 h1)).2 s' h2
    · exact along_append.mpr ⟨h1 s1 hs, fun s' hs' => h2 s' ⟨s1, hs, hs'⟩⟩

theorem along_concat {C : σ → α → Prop} {s : σ} {as : List α} {a : α}
    (h : Along next C s (as ++ [a])) :
    Along next C s as ∧ ∀ s', run next s as = some s' → C s' a :=
  ⟨(along_append next |>.mp h).1, fun s' hs => ((along_append next |>.mp h).2 s' hs).1⟩

theorem Along.mono {C D : σ → α → Prop} (hCD : ∀ s a, C s a → D s a) : ∀ {s : σ} {as : List α},
    Along next C s as → Along next D s as
  | _, [], _ => trivial
  | _, _ :: _, h => ⟨hCD _ _ h.1, fun s' hs => (h.2 s' hs).mono hCD⟩

theorem Along.and {C D : σ → α → Prop} : ∀ {s : σ} {as : List α}, Along next C s as →
    Along next D s as → Along next (fun s a => C s a ∧ D s a) s as
  | _, [], _, _ => trivial
  | _, _ :: _, hC, hD => ⟨⟨hC.1, hD.1⟩, fun s' hs => (hC.2 s' hs).and (hD.2 s' hs)⟩

/-- A run with its condition, step by step. -/
theorem run_along_cons {C : σ → α → Prop} {s s' t : σ} {a : α} {as : List α} (hC : C s a)
    (ha : next s a = some s') (h : run next s' as = some t ∧ Along next C s' as) :
    run next s (a :: as) = some t ∧ Along next C s (a :: as) :=
  ⟨by rw [run_cons, ha]; exact h.1, hC, fun s1 hs1 => by
    rw [ha, Option.some.injEq] at hs1
    exact hs1 ▸ h.2⟩

theorem collect_append (f : σ → α → List β) : ∀ {s s' : σ} {as bs : List α},
    run next s as = some s' →
    collect next f s (as ++ bs) = collect next f s as ++ collect next f s' bs
  | s, s', [], bs, h => by
    simp only [run_nil, Option.some.injEq] at h
    subst h
    rfl
  | s, s', a :: as, bs, h => by
    rw [run_cons, Option.bind_eq_some_iff] at h
    obtain ⟨s1, h1, h2⟩ := h
    simp only [List.cons_append, collect, h1, collect_append f h2, List.append_assoc]

/-- The last step shows last. -/
theorem collect_concat (f : σ → α → List β) {s s' s'' : σ} {as : List α} {a : α}
    (h : run next s as = some s') (ha : next s' a = some s'') :
    collect next f s (as ++ [a]) = collect next f s as ++ f s' a := by
  rw [collect_append next f h]
  simp [collect, ha]

/-- A run of one system is a run of another if every step is. -/
theorem run_simulates {τ γ : Type} {next' : τ → γ → Option τ} {abs : σ → τ} {f : σ → α → List γ}
    (I : σ → Prop)
    (hs : ∀ s a s', I s → next s a = some s' → run next' (abs s) (f s a) = some (abs s') ∧ I s') :
    ∀ {s s' : σ} {as : List α}, I s → run next s as = some s' →
      run next' (abs s) (collect next f s as) = some (abs s')
  | s, s', [], _, h => by
    simp only [run_nil, Option.some.injEq] at h
    rw [h]
    rfl
  | s, s', a :: as, hI, h => by
    rw [run_cons, Option.bind_eq_some_iff] at h
    obtain ⟨s1, h1, h2⟩ := h
    obtain ⟨hstep, hI1⟩ := hs s a s1 hI h1
    simp only [collect, h1]
    rw [run_append, hstep]
    exact run_simulates I hs hI1 h2

/-- What one system shows of a run is what the other shows of its own. -/
theorem collect_simulates {τ γ β : Type} {next' : τ → γ → Option τ} {abs : σ → τ} {f : σ → α → List γ}
    {g : σ → α → List β} {g' : τ → γ → List β} (I : σ → Prop)
    (hs : ∀ s a s', I s → next s a = some s' → run next' (abs s) (f s a) = some (abs s') ∧
      collect next' g' (abs s) (f s a) = g s a ∧ I s') :
    ∀ {s s' : σ} {as : List α}, I s → run next s as = some s' →
      collect next' g' (abs s) (collect next f s as) = collect next g s as
  | s, s', [], _, _ => rfl
  | s, s', a :: as, hI, h => by
    rw [run_cons, Option.bind_eq_some_iff] at h
    obtain ⟨s1, h1, h2⟩ := h
    obtain ⟨hstep, hshow, hI1⟩ := hs s a s1 hI h1
    simp only [collect, h1]
    rw [collect_append next' g' hstep, hshow, collect_simulates I hs hI1 h2]

/-- The invariant rule: `I` holds at the start and every allowed step keeps
it. `I` may speak of the actions taken so far. -/
theorem run_inv {C : σ → α → Prop} {s0 : σ} (I : List α → σ → Prop) (h0 : I [] s0)
    (hs : ∀ as s a s', run next s0 as = some s → I as s → C s a → next s a = some s' →
      I (as ++ [a]) s') :
    ∀ {acts : List α} {s : σ}, Along next C s0 acts → run next s0 acts = some s → I acts s := by
  intro acts
  induction acts using List.reverseRecOn with
  | nil =>
    intro s _ h
    simp only [run_nil, Option.some.injEq] at h
    exact h ▸ h0
  | append_singleton as a ih =>
    intro s hal h
    obtain ⟨s1, h1, h2⟩ := (run_concat next).mp h
    obtain ⟨ha, hc⟩ := along_concat next hal
    exact hs as s1 a s h1 (ih ha h1) (hc s1 h1) h2

/-- The progress rule: from `I` every allowed step can be taken and keeps it. -/
theorem run_total {C : σ → α → Prop} {s0 : σ} (I : List α → σ → Prop) (h0 : I [] s0)
    (hs : ∀ as s a, run next s0 as = some s → I as s → C s a → ∃ s', next s a = some s' ∧
      I (as ++ [a]) s') :
    ∀ {acts : List α}, Along next C s0 acts → ∃ s, run next s0 acts = some s ∧ I acts s := by
  intro acts
  induction acts using List.reverseRecOn with
  | nil => exact fun _ => ⟨s0, rfl, h0⟩
  | append_singleton as a ih =>
    intro hal
    obtain ⟨ha, hc⟩ := along_concat next hal
    obtain ⟨s1, h1, h2⟩ := ih ha
    obtain ⟨s', h3, h4⟩ := hs as s1 a h1 h2 (hc s1 h1)
    exact ⟨s', (run_concat next).mpr ⟨s1, h1, h3⟩, h4⟩

/-- A condition on the actions alone holds along every run of such actions. -/
theorem along_of_forall {C : α → Prop} : ∀ (s : σ) {as : List α}, (∀ a ∈ as, C a) →
    Along next (fun _ a => C a) s as
  | _, [], _ => trivial
  | _, a :: _, h => ⟨h a List.mem_cons_self, fun s' _ =>
      along_of_forall s' fun b hb => h b (List.mem_cons_of_mem _ hb)⟩

/-- What holds in every state reached holds along every run. -/
theorem along_of_run {C : σ → α → Prop} {s0 : σ} (h : ∀ as s a, run next s0 as = some s → C s a)
    (acts : List α) : Along next C s0 acts := by
  induction acts using List.reverseRecOn with
  | nil => trivial
  | append_singleton as a ih =>
    exact (along_append next).mpr ⟨ih, fun s hs => ⟨h as s a hs, fun _ _ => trivial⟩⟩

/-- What every step keeps holds after every run. -/
theorem run_keeps {s0 : σ} (I : σ → Prop) (h0 : I s0)
    (hs : ∀ s a s', I s → next s a = some s' → I s') {acts : List α} {s : σ}
    (h : run next s0 acts = some s) : I s :=
  run_inv next (fun _ => I) h0 (fun _ s a s' _ hI _ ha => hs s a s' hI ha)
    (along_of_forall next s0 (fun _ _ => trivial) : Along next (fun _ _ => True) s0 acts) h

end Ortoa
