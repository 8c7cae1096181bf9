/-
# Flags that are given twice

`Config.model_post_init` looks every flag's name up in the set of the names
that it has seen, and raises an error if it is there. It puts no name into the
set, so that it never raises one (`modelPostInit_eq`), and a flag that is given
twice is in every combination twice, of which `make_jobs` obeys the last
(`obeys_last`). What it promises holds if and only if the names are different
anyway (`duplicates_refused_iff`).

Key definitions: `ClientFlags.Obeys`, `DuplicatesRefused`.
Key theorems: `combination_names`, `obeys_last`, `duplicates_refused_iff`.
-/
import Ortoa.Bench.Experiment
import Ortoa.Run

namespace Ortoa
namespace Bench

/-- No error, whatever the flags are. -/
theorem modelPostInit_eq (flags : List ClientFlag) : modelPostInit flags = some [] := by
  unfold modelPostInit
  induction flags with
  | nil => rfl
  | cons flag flags ih =>
    rw [List.foldlM_cons, if_neg List.not_mem_nil]
    exact ih

/-! ### Combinations -/

/-- The atomic flags of a flag have its name. -/
theorem getAtomicFlags_name {fuel : ℕ} {flag : ClientFlag} {atomic : List ClientFlag}
    (h : flag.getAtomicFlags fuel = some atomic) : ∀ f ∈ atomic, f.name = flag.name := by
  cases flag with
  | clientLoggingEnabled value =>
    cases h
    simp
  | nClientThreads value =>
    cases value with
    | int n =>
      cases h
      simp
    | incrementRange r =>
      obtain ⟨values, -, rfl⟩ := Option.map_eq_some_iff.mp h
      simp [ClientFlag.name]
    | multiplyRange r =>
      obtain ⟨values, -, rfl⟩ := Option.map_eq_some_iff.mp h
      simp [ClientFlag.name]

/-- Every combination has the names of the flags, in order. -/
theorem combination_names {fuel : ℕ} {flags : List ClientFlag} {all : List (List ClientFlag)}
    (h : flags.mapM (ClientFlag.getAtomicFlags fuel) = some all) :
    ∀ c ∈ combine all, c.map ClientFlag.name = flags.map ClientFlag.name := by
  have hall := mapM_forall₂ h
  clear h
  rw [combine_eq_choices]
  induction hall with
  | nil =>
    intro c hc
    rw [List.mem_singleton.mp hc]
  | cons hatomic _ ih =>
    intro c hc
    obtain ⟨x, hx, hc⟩ := List.mem_flatMap.mp hc
    obtain ⟨c', hc', rfl⟩ := List.mem_map.mp hc
    rw [List.map_cons, List.map_cons, getAtomicFlags_name hatomic x hx, ih c' hc']

/-- The atomic experiments have the combinations, in order. -/
theorem atomicizeExperiment_flags {fuel : ℕ} {e : Experiment} {atomics : List AtomicExperiment}
    (h : atomicizeExperiment fuel e = some atomics) : ∃ all,
      e.flags.mapM (ClientFlag.getAtomicFlags fuel) = some all ∧
      atomics.map (·.clientFlags) = combine all := by
  unfold atomicizeExperiment at h
  split at h
  next =>
    obtain ⟨all, hall, hatomics⟩ := Option.bind_eq_some_iff.mp h
    cases hatomics
    refine ⟨all, hall, ?_⟩
    apply List.ext_getElem <;> simp
  next => cases h

/-! ### Jobs -/

/-- The job has what the flag says: to set it again would change nothing. -/
def ClientFlags.Obeys (flags : ClientFlags) (flag : ClientFlag) : Prop := setFlag flags flag = some flags

variable {flags flags' : ClientFlags} {flag : ClientFlag}

theorem obeys_setFlag (h : setFlag flags flag = some flags') : flags'.Obeys flag := by
  unfold ClientFlags.Obeys
  cases flag with
  | clientLoggingEnabled value => rfl
  | nClientThreads value =>
    cases value with
    | int n =>
      cases h
      rfl
    | incrementRange r => cases h
    | multiplyRange r => cases h

/-- A flag of another name leaves it alone. -/
theorem ClientFlags.Obeys.setFlag_ne (h : flags.Obeys flag) {later : ClientFlag}
    (hset : setFlag flags later = some flags') (hne : flag.name ≠ later.name) : flags'.Obeys flag := by
  cases later with
  | clientLoggingEnabled value =>
    cases hset
    exact h
  | nClientThreads value =>
    cases flag with
    | clientLoggingEnabled value' => rfl
    | nClientThreads value' => exact absurd rfl hne

/-- The last flag of a name is obeyed in the end. -/
theorem obeys_last {before after : List ClientFlag}
    (h : (before ++ flag :: after).foldlM setFlag flags = some flags')
    (hafter : ∀ later ∈ after, flag.name ≠ later.name) : flags'.Obeys flag := by
  rw [← run_eq_foldlM] at h
  obtain ⟨flags₁, flags₂, -, hset, hrun⟩ := run_split setFlag h
  have halong := along_of_forall setFlag flags₂ hafter
  apply run_inv setFlag (fun _ s => s.Obeys flag) (obeys_setFlag hset) ?_ halong hrun
  intro _ s later s' _ hobeys hne hstep
  exact hobeys.setFlag_ne hstep hne

/-- Flags of different names are all obeyed. -/
theorem obeys_of_foldlM {cflags : List ClientFlag} (h : cflags.foldlM setFlag flags = some flags')
    (hnodup : (cflags.map ClientFlag.name).Nodup) : ∀ flag ∈ cflags, flags'.Obeys flag := by
  intro flag hflag
  obtain ⟨before, after, rfl⟩ := List.append_of_mem hflag
  rw [List.map_append, List.map_cons] at hnodup
  have hnot := (List.nodup_cons.mp hnodup.of_append_right).1
  apply obeys_last h
  intro later hlater heq
  exact hnot (heq ▸ List.mem_map_of_mem hlater)

/-- What the check of the flags promises: it is an error if two have the same
name, and if it is none, a combination has a name at most once, and a job obeys
all flags of its combination. -/
structure DuplicatesRefused (flags : List ClientFlag) : Prop where
  error : modelPostInit flags = none ↔ ¬ (flags.map ClientFlag.name).Nodup
  combinations : modelPostInit flags ≠ none → ∀ fuel all,
    flags.mapM (ClientFlag.getAtomicFlags fuel) = some all → ∀ c ∈ combine all, (c.map ClientFlag.name).Nodup
  jobs : modelPostInit flags ≠ none → ∀ fuel experiment atomics jobs, experiment.flags = flags →
    atomicizeExperiment fuel experiment = some atomics → makeJobs atomics = some jobs →
    List.Forall₂ (fun atomic job => ∀ flag ∈ atomic.clientFlags, job.clientFlags.Obeys flag) atomics jobs

/-- **Duplicate flags are refused** if and only if there are none. -/
theorem duplicates_refused_iff (flags : List ClientFlag) :
    DuplicatesRefused flags ↔ (flags.map ClientFlag.name).Nodup := by
  constructor
  · intro h
    by_contra hdup
    have herror := h.error.mpr hdup
    rw [modelPostInit_eq] at herror
    cases herror
  · intro hnodup
    have hcombination : ∀ fuel all, flags.mapM (ClientFlag.getAtomicFlags fuel) = some all →
        ∀ c ∈ combine all, (c.map ClientFlag.name).Nodup := by
      intro fuel all hall c hc
      rw [combination_names hall c hc]
      exact hnodup
    refine ⟨?_, fun _ => hcombination, ?_⟩
    · rw [modelPostInit_eq]
      simp [hnodup]
    · rintro - fuel experiment atomics jobs rfl hatomics hjobs
      obtain ⟨all, hall, hflags⟩ := atomicizeExperiment_flags hatomics
      have hatomic : ∀ atomic ∈ atomics, (atomic.clientFlags.map ClientFlag.name).Nodup := by
        intro atomic hmem
        exact hcombination fuel all hall _ (hflags ▸ List.mem_map_of_mem hmem)
      apply List.Forall₂.imp _ ((List.forall₂_and_left _ _).mpr ⟨hatomic, mapM_forall₂ hjobs⟩)
      rintro atomic job ⟨hnames, hjob⟩
      obtain ⟨clientFlags, hset, hclient⟩ := Option.bind_eq_some_iff.mp hjob
      cases hclient
      exact obeys_of_foldlM hset hnames

/-! ### A flag that is given twice -/

/-- One thread, and then two. -/
def twoThreads : List ClientFlag := [.nClientThreads (.int 1), .nClientThreads (.int 2)]

/-- An experiment with these flags, in the file "exps/a.yaml". -/
def prepareTwoThreads : Option (List Experiment × List ClientJob) :=
  prepare expsFs
    (fun loc => loc.getLast?.map fun file => ⟨file, relative [file.take 1], .generation, twoThreads⟩) 0
    (relative [ascii ['o', 'u', 't']]) [relative [ascii ['e', 'x', 'p', 's'], ascii ['a', '.', 'y', 'a', 'm', 'l']]]

/-- It is accepted, and its job runs with two. -/
theorem second_value_wins : ¬ DuplicatesRefused twoThreads ∧
    prepareTwoThreads.map (fun p => p.2.map (·.clientFlags.nthreads)) = some [2] := by
  constructor
  · intro h
    have hdup : ¬ (twoThreads.map ClientFlag.name).Nodup := by decide
    have herror := h.error.mpr hdup
    cases herror
  · decide +kernel

end Bench
end Ortoa
