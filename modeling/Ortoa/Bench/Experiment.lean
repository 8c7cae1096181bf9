/-
# Experiments and their jobs

The benchmark collects experiment files, puts their output directories under
its base directory, splits every experiment into its combinations of flags and
numbers these, and makes a job of each, which makes its directory and fails if
that is there. Nothing compares one experiment with another, or a collected
file with one collected before, so that only the combinations of one
experiment are sure to have different directories. All jobs run if and only if
the output directories of different experiments are apart and the start leaves
room for each (`jobs_complete_iff`).

`pydantic` and `yaml` are a parameter: what an experiment file says.

Key definitions: `Experiment`, `collectExperiments`, `loadExperiments`, `combine`,
`atomicizeExperiments`, `makeJobs`, `runSequential`, `prepare`, `Startable`, `Apart`.
Key theorems: `prepare_directories`, `runSequential_iff`, `jobs_complete_iff`.
-/
import Ortoa.Bench.Parameter
import Ortoa.FileSystem
import Ortoa.Text
import Mathlib.Data.List.Dedup
import Mathlib.Data.List.Flatten
import Mathlib.Data.List.Forall2

namespace Ortoa
namespace Bench

/-! ### Flags -/

/-- The value of `--nthreads`: a number, or a range of them. -/
inductive ThreadsValue where
  | int (n : ℤ)
  | incrementRange (r : IntegerIncrementRange)
  | multiplyRange (r : IntegerMultiplyRange)
  deriving DecidableEq, Repr

/-- `AnnotatedClientFlag` -/
inductive ClientFlag where
  | nClientThreads (value : ThreadsValue)
  | clientLoggingEnabled (value : Bool)
  deriving DecidableEq, Repr

namespace ClientFlag

/-- "nthreads" or "client_logging_enabled". -/
def name : ClientFlag → Bytes
  | nClientThreads _ => ascii ['n', 't', 'h', 'r', 'e', 'a', 'd', 's']
  | clientLoggingEnabled _ => ascii ['c', 'l', 'i', 'e', 'n', 't', '_', 'l', 'o', 'g', 'g', 'i', 'n', 'g', '_',
      'e', 'n', 'a', 'b', 'l', 'e', 'd']

/-- `get_atomic_flags`; a range may have no end. -/
def getAtomicFlags (fuel : ℕ) : ClientFlag → Option (List ClientFlag)
  | nClientThreads (.int n) => some [nClientThreads (.int n)]
  | nClientThreads (.incrementRange r) =>
    (r.generateValues fuel).map fun values => values.map fun val => nClientThreads (.int val)
  | nClientThreads (.multiplyRange r) =>
    (r.generateValues fuel).map fun values => values.map fun val => nClientThreads (.int val)
  | clientLoggingEnabled value => some [clientLoggingEnabled value]

end ClientFlag

/-! ### Experiments -/

/-- `ClientConfig.data`: files, or how to generate them. -/
inductive Data where
  | seedData (seed operations : Option (Path Bytes))
  | generation
  deriving DecidableEq

structure Experiment where
  name : Bytes
  outputDirectory : Path Bytes
  data : Data
  flags : List ClientFlag
  deriving DecidableEq

/-- `Config.model_post_init`: the names that it has seen, unless it raises an
error. -/
def modelPostInit (flags : List ClientFlag) : Option (List Bytes) :=
  flags.foldlM (fun seenFlags flag => if flag.name ∈ seenFlags then none else some seenFlags) []

/-- `Experiment.generate_data`, where the files are generated. -/
def Experiment.generateData (experiment : Experiment) : Experiment :=
  match experiment.data with
  | .seedData _ _ => experiment
  | .generation =>
    let outputFile := experiment.outputDirectory.child
      (ascii ['g', 'e', 'n', 'e', 'r', 'a', 't', 'e', 'd', '_', 'd', 'a', 't', 'a'])
    let seed := outputFile.child (ascii ['s', 'e', 'e', 'd', '.', 'c', 's', 'v'])
    let operations := outputFile.child (ascii ['o', 'p', 'e', 'r', 'a', 't', 'i', 'o', 'n', 's', '.', 'c', 's', 'v'])
    { experiment with data := .seedData (some seed) (some operations) }

/-! ### Collecting and loading -/

/-- What there is a name for. -/
def locations (fs : FileSystem Bytes) : List (Location Bytes) := (fs.entries.map (·.1) ++ fs.cwd.inits).dedup

/-- `experiment_dir.glob("**/*.yaml")` -/
def globYaml (fs : FileSystem Bytes) (experimentDir : Path Bytes) : List (Path Bytes) :=
  let dir := experimentDir.locate fs.cwd
  (locations fs).filterMap fun loc =>
    if dir <+: loc ∧ dir ≠ loc ∧ ascii ['.', 'y', 'a', 'm', 'l'] <:+ loc.getLastD [] then
      some (experimentDir.join ⟨false, (loc.drop dir.length).map .name⟩)
    else none

/-- `ExperimentPath`: the path of a file. -/
structure ExperimentPath (fs : FileSystem Bytes) where
  experimentPath : Path Bytes
  isFile : fs.kind (experimentPath.locate fs.cwd) = some .file

/-- The constructor, with its assertion. -/
def ExperimentPath.make (fs : FileSystem Bytes) (p : Path Bytes) : Option (ExperimentPath fs) :=
  if h : fs.kind (p.locate fs.cwd) = some .file then some ⟨p, h⟩ else none

/-- `construct_experiments` -/
def constructExperiments (fs : FileSystem Bytes) (experiment : Path Bytes) : Option (List (ExperimentPath fs)) :=
  match fs.kind (experiment.locate fs.cwd) with
  | some .file => [experiment].mapM (ExperimentPath.make fs)
  | some .directory => (globYaml fs experiment).mapM (ExperimentPath.make fs)
  | none => none

/-- `collect_experiments` -/
def collectExperiments (fs : FileSystem Bytes) (experiments : List (Path Bytes)) :
    Option (List (ExperimentPath fs)) := (experiments.mapM (constructExperiments fs)).map List.flatten

/-- `load_experiments`; `modelValidate` is `yaml` and `pydantic` on the file at a
location. -/
def loadExperiments {fs : FileSystem Bytes} (modelValidate : Location Bytes → Option Experiment)
    (experimentPaths : List (ExperimentPath fs)) (baseDir : Path Bytes) : Option (List Experiment) :=
  experimentPaths.mapM fun e => do
    let experiment ← modelValidate (e.experimentPath.locate fs.cwd)
    let _ ← modelPostInit experiment.flags
    some { experiment with outputDirectory := baseDir.join experiment.outputDirectory }

/-! ### Combinations -/

section Combine

variable {α : Type*}

/-- `backtrack`, from the lists that are left on: `curr`, which is given back as
it was, and `combinations`. -/
def backtrack : List (List α) → List α × List (List α) → List α × List (List α)
  | [], (curr, combinations) => (curr, combinations ++ [curr])
  | l :: lst, s =>
    l.foldl (fun (curr, combinations) x =>
      let (curr, combinations) := backtrack lst (curr ++ [x], combinations)
      (curr.dropLast, combinations)) s

/-- `combine` -/
def combine (lst : List (List α)) : List (List α) := (backtrack lst ([], [])).2

/-- One element of each list, in all ways, the later ones changing faster
(`List.sections` has the first ones do so). -/
def choices : List (List α) → List (List α)
  | [] => [[]]
  | l :: lst => l.flatMap fun x => (choices lst).map (x :: ·)

/-- `backtrack` adds the choices from the lists that are left, behind `curr`. -/
theorem backtrack_eq : ∀ (lst : List (List α)) (curr : List α) (combinations : List (List α)),
    backtrack lst (curr, combinations) = (curr, combinations ++ (choices lst).map (curr ++ ·))
  | [], curr, combinations => by simp [backtrack, choices]
  | l :: lst, curr, combinations => by
    unfold backtrack choices
    -- one pass per element, each of which gives `curr` back
    simp only [backtrack_eq lst, List.dropLast_concat]
    induction l generalizing combinations with
    | nil => simp
    | cons x l ih =>
      rw [List.foldl_cons, ih, List.flatMap_cons, List.map_append, List.map_map, List.append_assoc]
      congr 3
      apply List.map_congr_left
      intro c _
      exact List.append_assoc curr [x] c

theorem combine_eq_choices (lst : List (List α)) : combine lst = choices lst := by
  unfold combine
  rw [backtrack_eq]
  simp

theorem choices_length (lst : List (List α)) : (choices lst).length = (lst.map List.length).prod := by
  induction lst with
  | nil => rfl
  | cons l lst ih => simp [choices, List.length_flatMap, ih]

end Combine

structure AtomicExperiment where
  name : Bytes
  outputDirectory : Path Bytes
  seedData : Path Bytes
  operations : Path Bytes
  clientFlags : List ClientFlag
  deriving DecidableEq

/-- "combination_{_id}" -/
def combinationName (id : ℕ) : Bytes :=
  ascii ['c', 'o', 'm', 'b', 'i', 'n', 'a', 't', 'i', 'o', 'n', '_'] ++ stdToString id

/-- The atomic experiments of one experiment. -/
def atomicizeExperiment (fuel : ℕ) (experiment : Experiment) : Option (List AtomicExperiment) :=
  match experiment.data with
  | .seedData (some seed) (some operations) => do
    let allClientFlags ← experiment.flags.mapM (ClientFlag.getAtomicFlags fuel)
    some ((combine allClientFlags).mapIdx fun id cflags =>
      ⟨experiment.name, experiment.outputDirectory.child (combinationName id), seed, operations, cflags⟩)
  -- the assertions
  | _ => none

/-- `atomicize_experiments` -/
def atomicizeExperiments (fuel : ℕ) (experiments : List Experiment) : Option (List AtomicExperiment) :=
  (experiments.mapM (atomicizeExperiment fuel)).map List.flatten

/-! ### Jobs -/

/-- `ClientFlags` -/
structure ClientFlags where
  initdb : Bool := true
  nthreads : ℤ := 1
  seed : Path Bytes
  operations : Path Bytes
  output : Path Bytes
  deriving DecidableEq

structure ClientJob where
  name : Bytes
  directory : Path Bytes
  seedData : Path Bytes
  operations : Path Bytes
  clientFlags : ClientFlags
  deriving DecidableEq

/-- "results.txt" -/
def resultsName : Bytes := ascii ['r', 'e', 's', 'u', 'l', 't', 's', '.', 't', 'x', 't']

/-- One flag in `make_jobs`; the number of threads must be atomic. -/
def setFlag (flags : ClientFlags) : ClientFlag → Option ClientFlags
  | .nClientThreads (.int n) => some { flags with nthreads := n }
  | .nClientThreads _ => none
  | .clientLoggingEnabled _ => some flags

/-- The job of an atomic experiment. -/
def makeJob (experiment : AtomicExperiment) : Option ClientJob := do
  let clientFlags ← experiment.clientFlags.foldlM setFlag
    { seed := experiment.seedData
      operations := experiment.operations
      output := experiment.outputDirectory.child resultsName }
  some ⟨experiment.name, experiment.outputDirectory, experiment.seedData, experiment.operations, clientFlags⟩

/-- `make_jobs` -/
def makeJobs (experiments : List AtomicExperiment) : Option (List ClientJob) := experiments.mapM makeJob

/-- The logs that are not empty when a job cleans up, and whether the client has
written its results. -/
structure Leftovers where
  clientStdout : Bool
  clientStderr : Bool
  hostStdout : Bool
  hostStderr : Bool
  results : Bool

/-- "host_stdout.log" -/
def hostStdoutName : Bytes := ascii ['h', 'o', 's', 't', '_', 's', 't', 'd', 'o', 'u', 't', '.', 'l', 'o', 'g']

/-- "host_stderr.log" -/
def hostStderrName : Bytes := ascii ['h', 'o', 's', 't', '_', 's', 't', 'd', 'e', 'r', 'r', '.', 'l', 'o', 'g']

/-- "client_stdout.log" -/
def clientStdoutName : Bytes :=
  ascii ['c', 'l', 'i', 'e', 'n', 't', '_', 's', 't', 'd', 'o', 'u', 't', '.', 'l', 'o', 'g']

/-- "client_stderr.log" -/
def clientStderrName : Bytes :=
  ascii ['c', 'l', 'i', 'e', 'n', 't', '_', 's', 't', 'd', 'e', 'r', 'r', '.', 'l', 'o', 'g']

/-- "seed.sh", "operations.sh" and "config.yaml", which a job always leaves. -/
def scriptNames : List Bytes :=
  [ascii ['s', 'e', 'e', 'd', '.', 's', 'h'],
    ascii ['o', 'p', 'e', 'r', 'a', 't', 'i', 'o', 'n', 's', '.', 's', 'h'],
    ascii ['c', 'o', 'n', 'f', 'i', 'g', '.', 'y', 'a', 'm', 'l']]

/-- The files that a job leaves in its directory. -/
def Leftovers.files (left : Leftovers) : List Bytes :=
  scriptNames ++ (if left.clientStdout then [clientStdoutName] else []) ++
    (if left.clientStderr then [clientStderrName] else []) ++
    (if left.hostStdout then [hostStdoutName] else []) ++
    (if left.hostStderr then [hostStderrName] else []) ++
    (if left.results then [resultsName] else [])

/-- The files that a job can leave. -/
def jobFiles : List Bytes := Leftovers.files ⟨true, true, true, true, true⟩

/-- `ClientJob.__call__`, where the programs can be started and the database
answers. -/
def ClientJob.call (job : ClientJob) (fs : FileSystem Bytes) (left : Leftovers) :
    Option (FileSystem Bytes) := do
  let fs' ← fs.mkdir job.directory
  some (fs'.addFiles (left.files.map fun n => job.directory.locate fs.cwd ++ [n]))

/-- `Result` -/
structure Result where
  job : ClientJob
  resultPath : Path Bytes

/-- `run_sequential`, with what each job leaves: the results, and the file
system at the end. -/
def runSequential : FileSystem Bytes → List (ClientJob × Leftovers) → Option (List Result × FileSystem Bytes)
  | fs, [] => some ([], fs)
  | fs, (job, left) :: jobs => do
    let fs ← job.call fs left
    let (results, fs) ← runSequential fs jobs
    some (⟨job, job.clientFlags.output⟩ :: results, fs)

/-- `benchmark` up to the orchestration: the experiments and their jobs. -/
def prepare (fs : FileSystem Bytes) (modelValidate : Location Bytes → Option Experiment) (fuel : ℕ)
    (experimentBase : Path Bytes) (experimentNames : List (Path Bytes)) :
    Option (List Experiment × List ClientJob) := do
  let experimentPaths ← collectExperiments fs experimentNames
  let experiments ← loadExperiments modelValidate experimentPaths experimentBase
  let experiments := experiments.map Experiment.generateData
  let atomicExperiments ← atomicizeExperiments fuel experiments
  let jobs ← makeJobs atomicExperiments
  some (experiments, jobs)

/-! ### The directories of the jobs -/

namespace Experiment

/-- The product of the numbers of values of the flags. -/
def numCombinations (fuel : ℕ) (e : Experiment) : ℕ :=
  ((e.flags.mapM (ClientFlag.getAtomicFlags fuel)).map fun flags => (flags.map List.length).prod).getD 0

/-- Where the `k`-th job of an experiment makes its directory. -/
def jobLocation (cwd : Location Bytes) (e : Experiment) (k : ℕ) : Location Bytes :=
  e.outputDirectory.locate cwd ++ [combinationName k]

/-- Nothing stands at a job's directory, or as a file on the way to it, and the
way does not lead through the directory itself. -/
def Startable (fuel : ℕ) (fs : FileSystem Bytes) (e : Experiment) : Prop :=
  ∀ k < e.numCombinations fuel, fs.kind (e.jobLocation fs.cwd k) = none ∧
    (∀ q ∈ e.outputDirectory.prefixes, fs.kind (q.locate fs.cwd) ≠ some .file) ∧
    ¬ e.outputDirectory.Passes fs.cwd (e.jobLocation fs.cwd k)

/-- The later experiment `b` has another output directory than `a`, the way to
that of `a` does not lead through a job's directory of `b`, and the way to that
of `b` not through a job's file of `a`. -/
def Apart (fuel : ℕ) (cwd : Location Bytes) (a b : Experiment) : Prop :=
  ∀ k < a.numCombinations fuel, ∀ l < b.numCombinations fuel,
    a.outputDirectory.locate cwd ≠ b.outputDirectory.locate cwd ∧
    ¬ a.outputDirectory.Passes cwd (b.jobLocation cwd l) ∧
    ∀ n ∈ jobFiles, ¬ b.outputDirectory.Passes cwd (a.jobLocation cwd k ++ [n])

instance (fuel : ℕ) (fs : FileSystem Bytes) (e : Experiment) : Decidable (e.Startable fuel fs) :=
  inferInstanceAs (Decidable (∀ k < e.numCombinations fuel, fs.kind (e.jobLocation fs.cwd k) = none ∧
    (∀ q ∈ e.outputDirectory.prefixes, fs.kind (q.locate fs.cwd) ≠ some .file) ∧
    ¬ e.outputDirectory.Passes fs.cwd (e.jobLocation fs.cwd k)))

set_option synthInstance.maxSize 500 in
instance (fuel : ℕ) (cwd : Location Bytes) (a b : Experiment) : Decidable (a.Apart fuel cwd b) :=
  inferInstanceAs (Decidable (∀ k < a.numCombinations fuel, ∀ l < b.numCombinations fuel,
    a.outputDirectory.locate cwd ≠ b.outputDirectory.locate cwd ∧
    ¬ a.outputDirectory.Passes cwd (b.jobLocation cwd l) ∧
    ∀ n ∈ jobFiles, ¬ b.outputDirectory.Passes cwd (a.jobLocation cwd k ++ [n])))

end Experiment

/-- The jobs have different directories, and whatever they leave, each can make
its own. -/
def JobsComplete (fs : FileSystem Bytes) (jobs : List ClientJob) : Prop :=
  (jobs.map fun job => job.directory.locate fs.cwd).Nodup ∧
    ∀ runs : List (ClientJob × Leftovers), runs.map Prod.fst = jobs → ∃ results fs',
      runSequential fs runs = some (results, fs')

/-- The results of a map that succeeds, one by one. -/
theorem mapM_forall₂ {α β : Type*} {f : α → Option β} : ∀ {l : List α} {l' : List β}, l.mapM f = some l' →
    List.Forall₂ (fun a b => f a = some b) l l'
  | [], l', hl => by
    rw [List.mapM_nil] at hl
    cases hl
    exact List.Forall₂.nil
  | a :: l, l', hl => by
    rw [List.mapM_cons] at hl
    obtain ⟨b, hb, hrest⟩ := Option.bind_eq_some_iff.mp hl
    obtain ⟨bs, hbs, hcons⟩ := Option.bind_eq_some_iff.mp hrest
    cases hcons
    exact List.Forall₂.cons hb (mapM_forall₂ hbs)

theorem mapM_eq_some_map {α β γ : Type*} {f : α → Option β} {g : α → γ} {h : β → γ}
    (hf : ∀ a b, f a = some b → h b = g a) {l : List α} {l' : List β} (hl : l.mapM f = some l') :
    l'.map h = l.map g := by
  have hall := mapM_forall₂ hl
  clear hl
  induction hall with
  | nil => rfl
  | cons hb _ ih => rw [List.map_cons, List.map_cons, hf _ _ hb, ih]

theorem makeJob_directory {experiment : AtomicExperiment} {job : ClientJob} (h : makeJob experiment = some job) :
    job.directory = experiment.outputDirectory := by
  obtain ⟨flags, -, hjob⟩ := Option.bind_eq_some_iff.mp h
  cases hjob
  rfl

/-- The atomic experiments of an experiment have numbered directories. -/
theorem atomicizeExperiment_directories {fuel : ℕ} {e : Experiment} {atomics : List AtomicExperiment}
    (h : atomicizeExperiment fuel e = some atomics) : atomics.map (·.outputDirectory) =
      (List.range (e.numCombinations fuel)).map fun k => e.outputDirectory.child (combinationName k) := by
  unfold atomicizeExperiment at h
  split at h
  next =>
    obtain ⟨flags, hflags, hatomics⟩ := Option.bind_eq_some_iff.mp h
    cases hatomics
    have hnum : e.numCombinations fuel = (combine flags).length := by
      unfold Experiment.numCombinations
      rw [hflags, combine_eq_choices, choices_length]
      rfl
    rw [hnum]
    apply List.ext_getElem
    · simp
    · intro k hk hk'
      simp
  next => cases h

/-- The jobs' directories, in order. -/
theorem prepare_directories {fs : FileSystem Bytes} {modelValidate : Location Bytes → Option Experiment}
    {fuel : ℕ} {base : Path Bytes} {names : List (Path Bytes)} {experiments : List Experiment}
    {jobs : List ClientJob} (h : prepare fs modelValidate fuel base names = some (experiments, jobs)) :
    jobs.map (·.directory) = experiments.flatMap fun e =>
      (List.range (e.numCombinations fuel)).map fun k => e.outputDirectory.child (combinationName k) := by
  obtain ⟨paths, -, h⟩ := Option.bind_eq_some_iff.mp h
  obtain ⟨loaded, -, h⟩ := Option.bind_eq_some_iff.mp h
  obtain ⟨atomics, hatomics, h⟩ := Option.bind_eq_some_iff.mp h
  obtain ⟨jobs', hjobs, h⟩ := Option.bind_eq_some_iff.mp h
  cases h
  obtain ⟨lists, hlists, rfl⟩ := Option.map_eq_some_iff.mp hatomics
  rw [mapM_eq_some_map (fun _ _ => makeJob_directory) hjobs, List.map_flatten,
    mapM_eq_some_map (fun _ _ => atomicizeExperiment_directories) hlists]
  rfl

/-! ### Which runs complete -/

/-- A job, as far as the file system is concerned. -/
def task (directory : Path Bytes) (files : List Bytes) : DirectoryTask Bytes := ⟨directory, files⟩

theorem runSequential_iff : ∀ {runs : List (ClientJob × Leftovers)} {fs : FileSystem Bytes},
    (∃ results fs', runSequential fs runs = some (results, fs')) ↔
      ∃ fs', DirectoryTask.runAll fs (runs.map fun run => task run.1.directory run.2.files) = some fs'
  | [], fs => by simp [runSequential, DirectoryTask.runAll]
  | (job, left) :: runs, fs => by
    have hcall : job.call fs left = (task job.directory left.files).run fs := rfl
    rw [List.map_cons]
    unfold runSequential DirectoryTask.runAll
    rw [List.foldlM_cons, hcall]
    cases hrun : (task job.directory left.files).run fs with
    | none => simp
    | some fs₁ =>
      have ih := @runSequential_iff runs fs₁
      simp only [Option.bind_eq_bind, Option.bind_some]
      constructor
      · rintro ⟨results, fs', h⟩
        obtain ⟨⟨results', fs''⟩, hrest, -⟩ := Option.bind_eq_some_iff.mp h
        exact ih.mp ⟨results', fs'', hrest⟩
      · intro h
        obtain ⟨results, fs', hrest⟩ := ih.mpr h
        exact ⟨_, fs', Option.bind_eq_some_iff.mpr ⟨(results, fs'), hrest, rfl⟩⟩

theorem combinationName_injective : Function.Injective combinationName := fun _ _ h =>
  stdToString_injective (List.append_cancel_left h)

/-- No file has the name of a job's directory. -/
theorem combinationName_not_mem_jobFiles (k : ℕ) : combinationName k ∉ jobFiles := by
  intro h
  have hstart : ∀ n ∈ jobFiles, n.take 3 ≠ ascii ['c', 'o', 'm'] := by decide
  exact hstart _ h rfl

theorem files_subset (left : Leftovers) : left.files ⊆ jobFiles := by
  obtain ⟨a, b, c, d, e⟩ := left
  unfold jobFiles Leftovers.files
  intro n hn
  simp only [List.mem_append, if_true] at hn ⊢
  rcases hn with ((((hn | hn) | hn) | hn) | hn) | hn
  · simp [hn]
  all_goals
    split at hn
    · simp [hn]
    · cases hn

/-- A job that leaves less is less in the way. -/
theorem clear_of_subset {cwd : Location Bytes} {p : Path Bytes} {files files' : List Bytes} {t : DirectoryTask Bytes}
    (hsub : files ⊆ files') (h : (task p files').Clear cwd t) : (task p files).Clear cwd t := by
  refine ⟨h.1, h.2.1, fun loc hloc => h.2.2 loc ?_⟩
  obtain ⟨n, hn, rfl⟩ := List.mem_map.mp hloc
  exact List.mem_map_of_mem (hsub hn)

/-- It is enough to look at jobs that leave all files that they can. -/
theorem jobsComplete_iff {fs : FileSystem Bytes} {jobs : List ClientJob} : JobsComplete fs jobs ↔
    (∀ p ∈ jobs.map (·.directory), (task p []).Fresh fs) ∧
      (jobs.map (·.directory)).Pairwise fun p q => (task p jobFiles).Clear fs.cwd (task q []) := by
  rw [List.pairwise_map, List.forall_mem_map]
  constructor
  · rintro ⟨-, hruns⟩
    have hfst : (jobs.map fun job => (job, (⟨true, true, true, true, true⟩ : Leftovers))).map Prod.fst = jobs := by
      rw [List.map_map]
      exact List.map_id jobs
    obtain ⟨hfresh, hclear⟩ := DirectoryTask.runAll_iff.mp (runSequential_iff.mp (hruns _ hfst))
    rw [List.map_map, List.forall_mem_map] at hfresh
    rw [List.map_map, List.pairwise_map] at hclear
    exact ⟨hfresh, hclear⟩
  · rintro ⟨hfresh, hclear⟩
    constructor
    · exact List.pairwise_map.mpr (hclear.imp fun h => h.1)
    · rintro runs rfl
      rw [List.forall_mem_map] at hfresh
      rw [List.pairwise_map] at hclear
      apply runSequential_iff.mpr
      apply DirectoryTask.runAll_iff.mpr
      rw [List.pairwise_map, List.forall_mem_map]
      exact ⟨hfresh, hclear.imp fun h => clear_of_subset (files_subset _) h⟩

theorem fresh_child {fs : FileSystem Bytes} {p : Path Bytes} {n : Bytes} {files : List Bytes} :
    (task (p.child n) files).Fresh fs ↔ fs.kind (p.locate fs.cwd ++ [n]) = none ∧
      (∀ q ∈ p.prefixes, fs.kind (q.locate fs.cwd) ≠ some .file) ∧
      ¬ p.Passes fs.cwd (p.locate fs.cwd ++ [n]) := by
  unfold DirectoryTask.Fresh DirectoryTask.location task Path.Passes
  rw [locate_child, parents_child]
  simp only [not_exists, not_and, imp_and, forall_and]

theorem clear_child {cwd : Location Bytes} {p q : Path Bytes} {n m : Bytes} {files : List Bytes} :
    (task (p.child n) files).Clear cwd (task (q.child m) []) ↔ p.locate cwd ++ [n] ≠ q.locate cwd ++ [m] ∧
      ¬ p.Passes cwd (q.locate cwd ++ [m]) ∧
      ∀ f ∈ files, p.locate cwd ++ [n] ++ [f] ≠ q.locate cwd ++ [m] ∧
        ¬ q.Passes cwd (p.locate cwd ++ [n] ++ [f]) := by
  unfold DirectoryTask.Clear DirectoryTask.fileLocations DirectoryTask.location task Path.Passes
  rw [locate_child, locate_child, parents_child, parents_child, List.forall_mem_map]
  simp only [not_exists, not_and]

section Experiments

variable {fuel : ℕ} {fs : FileSystem Bytes} {a b e : Experiment}

/-- Two jobs of one experiment are never in each other's way. -/
theorem clear_same (h : e.Startable fuel fs) {k l : ℕ} (hk : k < e.numCombinations fuel)
    (hl : l < e.numCombinations fuel) (hkl : k ≠ l) :
    (task (e.outputDirectory.child (combinationName k)) jobFiles).Clear fs.cwd
      (task (e.outputDirectory.child (combinationName l)) []) := by
  obtain ⟨hnone, -, hway⟩ := h k hk
  rw [clear_child]
  refine ⟨fun heq => ?_, (h l hl).2.2, fun f hf => ⟨fun heq => ?_, ?_⟩⟩
  · exact hkl (combinationName_injective (List.append_singleton_inj.mp heq).2)
  · exact combinationName_not_mem_jobFiles l ((List.append_singleton_inj.mp heq).2 ▸ hf)
  · -- the way to the file would lead through the job's directory
    rintro ⟨q, hq, hfile⟩
    have hbelow : e.jobLocation fs.cwd k <+: q.locate fs.cwd := hfile ▸ List.prefix_append _ _
    exact hway (passes_of_below (FileSystem.not_prefix_cwd hnone) hq hbelow)

/-- The jobs of two experiments. -/
theorem clear_other_iff {cwd : Location Bytes} : (∀ k < a.numCombinations fuel, ∀ l < b.numCombinations fuel,
    (task (a.outputDirectory.child (combinationName k)) jobFiles).Clear cwd
      (task (b.outputDirectory.child (combinationName l)) [])) ↔ a.Apart fuel cwd b := by
  simp only [clear_child]
  constructor
  · intro h k hk l hl
    obtain ⟨-, hway, hfiles⟩ := h k hk l hl
    refine ⟨fun heq => ?_, hway, fun n hn => (hfiles n hn).2⟩
    have hfirst := (h 0 (Nat.zero_lt_of_lt hk) 0 (Nat.zero_lt_of_lt hl)).1
    rw [heq] at hfirst
    exact hfirst rfl
  · intro h k hk l hl
    obtain ⟨hne, hway, hfiles⟩ := h k hk l hl
    refine ⟨fun heq => hne (List.append_singleton_inj.mp heq).1, hway, fun n hn => ⟨fun heq => ?_, hfiles n hn⟩⟩
    exact combinationName_not_mem_jobFiles l ((List.append_singleton_inj.mp heq).2 ▸ hn)

end Experiments

/-- **The jobs of a benchmark do not get in each other's way** if and only if
the experiments' output directories are apart and the start leaves room for
each. -/
theorem jobs_complete_iff {fs₀ : FileSystem Bytes} {modelValidate : Location Bytes → Option Experiment}
    {fuel : ℕ} {base : Path Bytes} {names : List (Path Bytes)} {experiments : List Experiment}
    {jobs : List ClientJob} (h : prepare fs₀ modelValidate fuel base names = some (experiments, jobs))
    (fs : FileSystem Bytes) : JobsComplete fs jobs ↔
      (∀ e ∈ experiments, e.Startable fuel fs) ∧ experiments.Pairwise fun a b => a.Apart fuel fs.cwd b := by
  rw [jobsComplete_iff, prepare_directories h, List.pairwise_flatMap]
  have hfresh : (∀ p ∈ experiments.flatMap fun e =>
      (List.range (e.numCombinations fuel)).map fun k => e.outputDirectory.child (combinationName k),
      (task p []).Fresh fs) ↔ ∀ e ∈ experiments, e.Startable fuel fs := by
    simp only [List.forall_mem_flatMap, List.forall_mem_map, List.mem_range, fresh_child]
    rfl
  have hother : ∀ a b : Experiment,
      (∀ p ∈ (List.range (a.numCombinations fuel)).map fun k => a.outputDirectory.child (combinationName k),
        ∀ q ∈ (List.range (b.numCombinations fuel)).map fun k => b.outputDirectory.child (combinationName k),
          (task p jobFiles).Clear fs.cwd (task q [])) ↔ a.Apart fuel fs.cwd b := by
    intro a b
    simp only [List.forall_mem_map, List.mem_range]
    exact clear_other_iff
  rw [hfresh]
  simp only [hother]
  constructor
  · rintro ⟨hstart, -, hapart⟩
    exact ⟨hstart, hapart⟩
  · rintro ⟨hstart, hapart⟩
    refine ⟨hstart, fun e he => ?_, hapart⟩
    rw [List.pairwise_map]
    have hrange := @List.pairwise_lt_range (e.numCombinations fuel)
    refine List.Pairwise.imp_of_mem (fun hk hl hlt => ?_) hrange
    exact clear_same (hstart e he) (List.mem_range.mp hk) (List.mem_range.mp hl) hlt.ne

/-! ### Two experiments -/

/-- A relative path. -/
def relative (names : List Bytes) : Path Bytes := ⟨false, names.map .name⟩

/-- "exps", with the experiment files "a.yaml" and "b.yaml". -/
def expsFs : FileSystem Bytes where
  cwd := []
  entries :=
    let exps := ascii ['e', 'x', 'p', 's']
    [([exps], .directory), ([exps, ascii ['a', '.', 'y', 'a', 'm', 'l']], .file),
      ([exps, ascii ['b', '.', 'y', 'a', 'm', 'l']], .file)]

/-- Each has the output directory of its name, "a" or "b", and two numbers of
threads. -/
def expsValidate (loc : Location Bytes) : Option Experiment :=
  loc.getLast?.map fun file =>
    { name := file
      outputDirectory := relative [file.take 1]
      data := .generation
      flags := [.nClientThreads (.incrementRange ⟨1, 2, 1⟩)] }

/-- The benchmark of some of them, with the base "out". -/
def prepareExps (names : List (Path Bytes)) : Option (List Experiment × List ClientJob) :=
  prepare expsFs expsValidate 5 (relative [ascii ['o', 'u', 't']]) names

/-- The directory alone: four jobs. -/
theorem jobs_complete_exps :
    JobsComplete expsFs ((prepareExps [relative [ascii ['e', 'x', 'p', 's']]]).getD ([], [])).2 := by
  have hprepare : prepareExps [relative [ascii ['e', 'x', 'p', 's']]] =
      some ((prepareExps [relative [ascii ['e', 'x', 'p', 's']]]).getD ([], [])) := by decide +kernel
  exact (jobs_complete_iff hprepare expsFs).mpr (by decide +kernel)

/-- The file "exps/a.yaml" and its directory: the file is an experiment twice. -/
theorem overlap_collides : ∃ experiments jobs,
    prepareExps [relative [ascii ['e', 'x', 'p', 's'], ascii ['a', '.', 'y', 'a', 'm', 'l']],
      relative [ascii ['e', 'x', 'p', 's']]] = some (experiments, jobs) ∧
    ¬ (jobs.map (·.directory)).Nodup ∧ ¬ JobsComplete expsFs jobs := by
  have hsame : (prepareExps [relative [ascii ['e', 'x', 'p', 's'], ascii ['a', '.', 'y', 'a', 'm', 'l']],
      relative [ascii ['e', 'x', 'p', 's']]]).map (fun p => decide (p.2.map (·.directory)).Nodup) =
        some false := by decide +kernel
  obtain ⟨⟨experiments, jobs⟩, hprepare, hdecide⟩ := Option.map_eq_some_iff.mp hsame
  have hnot : ¬ (jobs.map (·.directory)).Nodup := of_decide_eq_false hdecide
  refine ⟨experiments, jobs, hprepare, hnot, fun h => hnot ?_⟩
  exact List.Nodup.of_map (Path.locate expsFs.cwd) (by rw [List.map_map]; exact h.1)

end Bench
end Ortoa
