/-
# Directories

Paths as `pathlib` has them, and as much of a file system as `mkdir` looks at:
what stands at a location, a directory or a file. Links are left out, so that
".." undoes a name.

A task makes its directory, which must be new, with the directories on the way
to it, and leaves files in it. Tasks run one after the other if each of them
could run first and no earlier one stands in the way of a later one
(`runAll_iff`).

Key definitions: `Path`, `Path.locate`, `FileSystem`, `FileSystem.mkdir`, `DirectoryTask`.
Key theorems: `passes_of_below`, `mkdir_eq_some`, `mkdir_isSome`, `runAll_iff`.
-/
import Mathlib.Data.List.Infix
import Mathlib.Data.List.Basic

namespace Ortoa

variable {Name : Type*}

/-! ### Paths -/

/-- A component of a path: ".." or a name. -/
inductive Component (Name : Type*) where
  | up
  | name (n : Name)
  deriving DecidableEq

/-- A path; "." and empty components are gone. -/
structure Path (Name : Type*) where
  absolute : Bool
  parts : List (Component Name)
  deriving DecidableEq

/-- The names on the way from the root. -/
abbrev Location (Name : Type*) := List Name

/-- From a location on along the components. -/
def walk : Location Name → List (Component Name) → Location Name
  | loc, [] => loc
  | loc, .up :: parts => walk loc.dropLast parts
  | loc, .name n :: parts => walk (loc ++ [n]) parts

namespace Path

/-- `p / q` -/
def join (p q : Path Name) : Path Name := if q.absolute then q else ⟨p.absolute, p.parts ++ q.parts⟩

/-- `p / "n"` -/
def child (p : Path Name) (n : Name) : Path Name := p.join ⟨false, [.name n]⟩

/-- Where the path leads. -/
def locate (cwd : Location Name) (p : Path Name) : Location Name :=
  walk (if p.absolute then [] else cwd) p.parts

/-- The paths on the way along `p`, and `p`. -/
def prefixes (p : Path Name) : List (Path Name) := p.parts.inits.tail.map fun parts => ⟨p.absolute, parts⟩

/-- The way along `p`, to its end, leads through a location. -/
def Passes (cwd : Location Name) (p : Path Name) (loc : Location Name) : Prop :=
  ∃ q ∈ p.prefixes, q.locate cwd = loc

instance [DecidableEq Name] (cwd : Location Name) (p : Path Name) (loc : Location Name) :
    Decidable (p.Passes cwd loc) :=
  inferInstanceAs (Decidable (∃ q ∈ p.prefixes, q.locate cwd = loc))

/-- The paths on the way along `p`. -/
def parents (p : Path Name) : List (Path Name) := p.prefixes.dropLast

end Path

theorem walk_append : ∀ (loc : Location Name) (parts parts' : List (Component Name)),
    walk loc (parts ++ parts') = walk (walk loc parts) parts'
  | _, [], _ => rfl
  | loc, .up :: parts, parts' => walk_append loc.dropLast parts parts'
  | loc, .name n :: parts, parts' => walk_append (loc ++ [n]) parts parts'

theorem locate_child (cwd : Location Name) (p : Path Name) (n : Name) :
    (p.child n).locate cwd = p.locate cwd ++ [n] := walk_append _ p.parts [Component.name n]

theorem parents_child (p : Path Name) (n : Name) : (p.child n).parents = p.prefixes := by
  have hinits : (p.parts ++ [Component.name n]).inits.tail =
      p.parts.inits.tail ++ [p.parts ++ [Component.name n]] := by
    have hne : p.parts.inits ≠ [] := by cases p.parts <;> simp
    rw [List.inits_append]
    simp [List.tail_append_of_ne_nil hne]
  unfold Path.parents Path.prefixes
  change ((p.parts ++ [Component.name n]).inits.tail.map _).dropLast = _
  rw [hinits, List.map_append, List.map_singleton, List.dropLast_concat]
  rfl

/-- Nobody gets below a location but by way of it. -/
theorem walk_passes {start loc : Location Name} (hstart : ¬ loc <+: start) (parts : List (Component Name))
    (h : loc <+: walk start parts) : ∃ parts', parts' <+: parts ∧ parts' ≠ [] ∧ walk start parts' = loc := by
  induction parts using List.reverseRecOn with
  | nil => exact absurd h hstart
  | append_singleton parts c ih =>
    by_cases hbefore : loc <+: walk start parts
    · obtain ⟨parts', hprefix, hne, hwalk⟩ := ih hbefore
      exact ⟨parts', hprefix.trans (List.prefix_append _ _), hne, hwalk⟩
    · rw [walk_append] at h
      cases c with
      | up =>
        have hup : loc <+: (walk start parts).dropLast := h
        exact absurd (hup.trans (List.dropLast_prefix _)) hbefore
      | name n =>
        have hname : loc <+: walk start parts ++ [n] := h
        rcases List.prefix_concat_iff.mp hname with heq | hprefix
        · refine ⟨parts ++ [.name n], List.prefix_rfl, by simp, ?_⟩
          rw [walk_append, heq]
          rfl
        · exact absurd hprefix hbefore

theorem mem_prefixes {p q : Path Name} :
    q ∈ p.prefixes ↔ q.absolute = p.absolute ∧ q.parts ≠ [] ∧ q.parts <+: p.parts := by
  have htail : ∀ parts, parts ∈ p.parts.inits.tail ↔ parts ≠ [] ∧ parts <+: p.parts := by
    intro parts
    cases hp : p.parts with
    | nil =>
      constructor
      · exact fun h => absurd h List.not_mem_nil
      · exact fun h => absurd (List.prefix_nil.mp h.2) h.1
    | cons c cs =>
      simp only [List.inits_cons, List.tail_cons, List.mem_map, List.mem_inits]
      constructor
      · rintro ⟨l, hl, rfl⟩
        exact ⟨List.cons_ne_nil _ _, (List.prefix_cons_inj c).mpr hl⟩
      · rintro ⟨hne, hprefix⟩
        obtain ⟨d, l, rfl⟩ := List.exists_cons_of_ne_nil hne
        obtain ⟨rfl, hl⟩ := List.cons_prefix_cons.mp hprefix
        exact ⟨l, hl, rfl⟩
  unfold Path.prefixes
  rw [List.mem_map]
  constructor
  · rintro ⟨parts, hparts, rfl⟩
    exact ⟨rfl, (htail parts).mp hparts⟩
  · rintro ⟨habsolute, hparts⟩
    exact ⟨q.parts, (htail q.parts).mpr hparts, by rw [← habsolute]⟩

/-- A path that leads below a location, other than by starting there, passes
through it. -/
theorem passes_of_below {cwd loc : Location Name} (hcwd : ¬ loc <+: cwd) {p q : Path Name}
    (hq : q ∈ p.prefixes) (h : loc <+: q.locate cwd) : p.Passes cwd loc := by
  obtain ⟨habsolute, -, hparts⟩ := mem_prefixes.mp hq
  have hstart : ¬ loc <+: (if q.absolute then [] else cwd) := by
    split
    · intro hnil
      exact hcwd ((List.prefix_nil.mp hnil) ▸ List.nil_prefix)
    · exact hcwd
  obtain ⟨parts', hprefix, hne, hwalk⟩ := walk_passes hstart q.parts h
  exact ⟨⟨q.absolute, parts'⟩, mem_prefixes.mpr ⟨habsolute, hne, hprefix.trans hparts⟩, hwalk⟩

/-! ### File systems -/

inductive Kind where
  | directory
  | file
  deriving DecidableEq, Repr

/-- What is there; the working directory and what is above it are. -/
structure FileSystem (Name : Type*) where
  cwd : Location Name
  entries : List (Location Name × Kind)

namespace FileSystem

variable [DecidableEq Name]

def kind (fs : FileSystem Name) (loc : Location Name) : Option Kind :=
  if loc <+: fs.cwd then some .directory else fs.entries.lookup loc

def add (fs : FileSystem Name) (loc : Location Name) (k : Kind) : FileSystem Name :=
  { fs with entries := (loc, k) :: fs.entries }

/-- Make the directory, or find it there. -/
def ensure (fs : FileSystem Name) (loc : Location Name) : Option (FileSystem Name) :=
  match fs.kind loc with
  | none => some (fs.add loc .directory)
  | some .directory => some fs
  | some .file => none

/-- `p.mkdir(parents=True, exist_ok=False)` -/
def mkdir (fs : FileSystem Name) (p : Path Name) : Option (FileSystem Name) := do
  let fs ← (p.parents.map (·.locate fs.cwd)).foldlM ensure fs
  match fs.kind (p.locate fs.cwd) with
  | none => some (fs.add (p.locate fs.cwd) .directory)
  | some _ => none

/-- Write new files. -/
def addFiles (fs : FileSystem Name) (locs : List (Location Name)) : FileSystem Name :=
  locs.foldl (fun fs loc => fs.add loc .file) fs

theorem kind_add (fs : FileSystem Name) {loc : Location Name} (h : ¬ loc <+: fs.cwd) (k : Kind)
    (x : Location Name) : (fs.add loc k).kind x = if x = loc then some k else fs.kind x := by
  unfold kind add
  by_cases hx : x = loc
  · subst hx
    rw [if_neg h, if_pos rfl, List.lookup_cons_self]
  · rw [if_neg hx]
    congr 1
    rw [List.lookup_cons, beq_false_of_ne hx]

theorem not_prefix_cwd {fs : FileSystem Name} {loc : Location Name} (h : fs.kind loc = none) :
    ¬ loc <+: fs.cwd := by
  intro hprefix
  unfold kind at h
  rw [if_pos hprefix] at h
  cases h

/-- What `ensure` does: nothing but a directory where nothing was. -/
theorem ensure_eq_some {fs fs' : FileSystem Name} {loc : Location Name} (h : fs.ensure loc = some fs') :
    fs.kind loc ≠ some .file ∧ fs'.cwd = fs.cwd ∧
      ∀ x, fs'.kind x = if x = loc ∧ fs.kind x = none then some .directory else fs.kind x := by
  unfold ensure at h
  cases hkind : fs.kind loc with
  | none =>
    rw [hkind] at h
    cases h
    refine ⟨by simp, rfl, fun x => ?_⟩
    rw [kind_add fs (not_prefix_cwd hkind)]
    by_cases hx : x = loc
    · rw [if_pos hx, if_pos ⟨hx, hx ▸ hkind⟩]
    · rw [if_neg hx, if_neg fun h => hx h.1]
  | some k =>
    rw [hkind] at h
    cases k with
    | file => cases h
    | directory =>
      cases h
      refine ⟨by simp, rfl, fun x => ?_⟩
      rw [if_neg]
      rintro ⟨rfl, hnone⟩
      rw [hkind] at hnone
      cases hnone

theorem ensure_isSome {fs : FileSystem Name} {loc : Location Name} (h : fs.kind loc ≠ some .file) :
    ∃ fs', fs.ensure loc = some fs' := by
  unfold ensure
  cases hkind : fs.kind loc with
  | none => exact ⟨_, rfl⟩
  | some k =>
    cases k with
    | directory => exact ⟨_, rfl⟩
    | file => exact absurd hkind h

theorem foldlM_ensure_eq_some : ∀ {locs : List (Location Name)} {fs fs' : FileSystem Name},
    locs.foldlM ensure fs = some fs' → (∀ loc ∈ locs, fs.kind loc ≠ some .file) ∧ fs'.cwd = fs.cwd ∧
      ∀ x, fs'.kind x = if x ∈ locs ∧ fs.kind x = none then some .directory else fs.kind x
  | [], fs, fs', h => by
    cases h
    simp
  | loc :: locs, fs, fs', h => by
    obtain ⟨fs₁, hensure, hrest⟩ := Option.bind_eq_some_iff.mp h
    obtain ⟨hfile, hcwd, hkind⟩ := ensure_eq_some hensure
    obtain ⟨hfiles, hcwd', hkind'⟩ := foldlM_ensure_eq_some hrest
    refine ⟨?_, hcwd'.trans hcwd, fun x => ?_⟩
    · intro l hl
      rcases List.mem_cons.mp hl with rfl | hl
      · exact hfile
      · intro hlfile
        apply hfiles l hl
        rw [hkind, hlfile]
        simp
    · rw [hkind', hkind]
      by_cases hnone : fs.kind x = none
      · by_cases hx : x = loc
        · subst hx
          simp [hnone]
        · simp [hx, hnone]
      · simp [hnone]

theorem foldlM_ensure_isSome : ∀ {locs : List (Location Name)} {fs : FileSystem Name},
    (∀ loc ∈ locs, fs.kind loc ≠ some .file) → ∃ fs', locs.foldlM ensure fs = some fs'
  | [], fs, _ => ⟨fs, rfl⟩
  | loc :: locs, fs, h => by
    obtain ⟨fs₁, hensure⟩ := ensure_isSome (h loc List.mem_cons_self)
    obtain ⟨-, -, hkind⟩ := ensure_eq_some hensure
    obtain ⟨fs', hrest⟩ := @foldlM_ensure_isSome locs fs₁ fun l hl => by
      rw [hkind]
      split
      · simp
      · exact h l (List.mem_cons_of_mem _ hl)
    exact ⟨fs', Option.bind_eq_some_iff.mpr ⟨fs₁, hensure, hrest⟩⟩

/-- What is there after `mkdir`, and when it succeeds. -/
theorem mkdir_eq_some {fs fs' : FileSystem Name} {p : Path Name} (h : fs.mkdir p = some fs') :
    (fs.kind (p.locate fs.cwd) = none ∧ ∀ q ∈ p.parents,
      fs.kind (q.locate fs.cwd) ≠ some .file ∧ q.locate fs.cwd ≠ p.locate fs.cwd) ∧
    fs'.cwd = fs.cwd ∧ ∀ x, fs'.kind x =
      if (x = p.locate fs.cwd ∨ ∃ q ∈ p.parents, x = q.locate fs.cwd) ∧ fs.kind x = none then
        some .directory
      else fs.kind x := by
  obtain ⟨fs₁, hparents, hlast⟩ := Option.bind_eq_some_iff.mp h
  obtain ⟨hfiles, hcwd, hkind⟩ := foldlM_ensure_eq_some hparents
  rw [hcwd] at hlast
  have hmem : ∀ x, x ∈ p.parents.map (·.locate fs.cwd) ↔ ∃ q ∈ p.parents, x = q.locate fs.cwd := by
    intro x
    simp only [List.mem_map, eq_comm]
  cases hnone : fs₁.kind (p.locate fs.cwd) with
  | some k =>
    rw [hnone] at hlast
    cases hlast
  | none =>
    rw [hnone] at hlast
    cases hlast
    have hat := hkind (p.locate fs.cwd)
    rw [hnone] at hat
    have hnot : ¬ (p.locate fs.cwd ∈ p.parents.map (·.locate fs.cwd) ∧ fs.kind (p.locate fs.cwd) = none) := by
      intro hboth
      rw [if_pos hboth] at hat
      cases hat
    rw [if_neg hnot] at hat
    refine ⟨⟨hat.symm, fun q hq => ⟨hfiles _ (List.mem_map_of_mem hq), fun heq => ?_⟩⟩, hcwd, fun x => ?_⟩
    · exact hnot ⟨heq ▸ List.mem_map_of_mem hq, hat.symm⟩
    · rw [kind_add fs₁ (not_prefix_cwd hnone), hkind]
      simp only [hmem]
      by_cases hx : x = p.locate fs.cwd
      · rw [if_pos hx, if_pos ⟨Or.inl hx, hx ▸ hat.symm⟩]
      · simp only [hx, false_or, if_false]

theorem mkdir_isSome {fs : FileSystem Name} {p : Path Name} (hnone : fs.kind (p.locate fs.cwd) = none)
    (hparents : ∀ q ∈ p.parents, fs.kind (q.locate fs.cwd) ≠ some .file ∧ q.locate fs.cwd ≠ p.locate fs.cwd) :
    ∃ fs', fs.mkdir p = some fs' := by
  have hfiles : ∀ loc ∈ p.parents.map (·.locate fs.cwd), fs.kind loc ≠ some .file := by
    intro loc hloc
    obtain ⟨q, hq, rfl⟩ := List.mem_map.mp hloc
    exact (hparents q hq).1
  obtain ⟨fs₁, hfold⟩ := foldlM_ensure_isSome hfiles
  obtain ⟨-, hcwd, hkind⟩ := foldlM_ensure_eq_some hfold
  have hat : fs₁.kind (p.locate fs₁.cwd) = none := by
    rw [hcwd, hkind, if_neg, hnone]
    rintro ⟨hmem, -⟩
    obtain ⟨q, hq, heq⟩ := List.mem_map.mp hmem
    exact (hparents q hq).2 heq
  refine ⟨fs₁.add (p.locate fs₁.cwd) .directory, ?_⟩
  unfold mkdir
  rw [hfold, Option.bind_eq_bind, Option.bind_some, hat]

omit [DecidableEq Name] in
theorem addFiles_cwd (locs : List (Location Name)) : ∀ fs : FileSystem Name, (fs.addFiles locs).cwd = fs.cwd := by
  induction locs with
  | nil => exact fun _ => rfl
  | cons loc locs ih => exact fun fs => ih (fs.add loc .file)

theorem kind_addFiles : ∀ {locs : List (Location Name)} {fs : FileSystem Name},
    (∀ loc ∈ locs, ¬ loc <+: fs.cwd) →
    ∀ x, (fs.addFiles locs).kind x = if x ∈ locs then some .file else fs.kind x
  | [], _, _, x => rfl
  | loc :: locs, fs, h, x => by
    have ih := @kind_addFiles locs (fs.add loc .file) (fun l hl => h l (List.mem_cons_of_mem _ hl)) x
    change ((fs.add loc .file).addFiles locs).kind x = _
    rw [ih, kind_add fs (h loc List.mem_cons_self)]
    by_cases hx : x ∈ locs
    · rw [if_pos hx, if_pos (List.mem_cons_of_mem _ hx)]
    · simp [hx]

end FileSystem

/-! ### Tasks, one after the other -/

/-- A task makes its directory and leaves files of these names in it. -/
structure DirectoryTask (Name : Type*) where
  directory : Path Name
  files : List Name

namespace DirectoryTask

def location (cwd : Location Name) (t : DirectoryTask Name) : Location Name := t.directory.locate cwd

def fileLocations (cwd : Location Name) (t : DirectoryTask Name) : List (Location Name) :=
  t.files.map fun n => t.location cwd ++ [n]

variable [DecidableEq Name]

def run (fs : FileSystem Name) (t : DirectoryTask Name) : Option (FileSystem Name) := do
  let fs' ← fs.mkdir t.directory
  some (fs'.addFiles (t.fileLocations fs.cwd))

/-- The task can run first. -/
def Fresh (fs : FileSystem Name) (t : DirectoryTask Name) : Prop :=
  fs.kind (t.location fs.cwd) = none ∧ ∀ q ∈ t.directory.parents,
    fs.kind (q.locate fs.cwd) ≠ some .file ∧ q.locate fs.cwd ≠ t.location fs.cwd

/-- After `s`, nothing that `s` has made is in the way of `t`. -/
def Clear (cwd : Location Name) (s t : DirectoryTask Name) : Prop :=
  s.location cwd ≠ t.location cwd ∧ (∀ q ∈ s.directory.parents, q.locate cwd ≠ t.location cwd) ∧
    ∀ loc ∈ s.fileLocations cwd, loc ≠ t.location cwd ∧ ∀ q ∈ t.directory.parents, q.locate cwd ≠ loc

def runAll (fs : FileSystem Name) (ts : List (DirectoryTask Name)) : Option (FileSystem Name) := ts.foldlM run fs

variable {fs fs' : FileSystem Name} {s t : DirectoryTask Name}

theorem run_isSome (h : t.Fresh fs) : ∃ fs', t.run fs = some fs' := by
  obtain ⟨fs₁, hmkdir⟩ := FileSystem.mkdir_isSome h.1 h.2
  exact ⟨_, Option.bind_eq_some_iff.mpr ⟨fs₁, hmkdir, rfl⟩⟩

theorem fresh_of_run (h : t.run fs = some fs') : t.Fresh fs := by
  obtain ⟨fs₁, hmkdir, -⟩ := Option.bind_eq_some_iff.mp h
  exact (FileSystem.mkdir_eq_some hmkdir).1

/-- What is there after a task. -/
theorem kind_run (h : t.run fs = some fs') : fs'.cwd = fs.cwd ∧ ∀ x, fs'.kind x =
    if x ∈ t.fileLocations fs.cwd then some .file
    else if (x = t.location fs.cwd ∨ ∃ q ∈ t.directory.parents, x = q.locate fs.cwd) ∧ fs.kind x = none then
      some .directory
    else fs.kind x := by
  obtain ⟨fs₁, hmkdir, hfiles⟩ := Option.bind_eq_some_iff.mp h
  cases hfiles
  obtain ⟨⟨hnone, -⟩, hcwd, hkind⟩ := FileSystem.mkdir_eq_some hmkdir
  have hbelow : ∀ loc ∈ t.fileLocations fs.cwd, ¬ loc <+: fs₁.cwd := by
    intro loc hloc hprefix
    obtain ⟨n, -, rfl⟩ := List.mem_map.mp hloc
    rw [hcwd] at hprefix
    exact FileSystem.not_prefix_cwd hnone ((List.prefix_append _ _).trans hprefix)
  refine ⟨(FileSystem.addFiles_cwd _ _).trans hcwd, fun x => ?_⟩
  rw [FileSystem.kind_addFiles hbelow, hkind]
  rfl

/-- A task can run after another if it can run without it and is clear of it. -/
theorem fresh_run_iff (h : s.run fs = some fs') : t.Fresh fs' ↔ t.Fresh fs ∧ s.Clear fs.cwd t := by
  obtain ⟨hcwd, hkind⟩ := kind_run h
  have hnone : ∀ x, fs'.kind x = none ↔ fs.kind x = none ∧ x ≠ s.location fs.cwd ∧
      (∀ q ∈ s.directory.parents, x ≠ q.locate fs.cwd) ∧ x ∉ s.fileLocations fs.cwd := by
    intro x
    rw [hkind]
    by_cases hfile : x ∈ s.fileLocations fs.cwd
    · simp [hfile]
    by_cases hdir : x = s.location fs.cwd ∨ ∃ q ∈ s.directory.parents, x = q.locate fs.cwd
    · rw [if_neg hfile]
      constructor
      · intro hx
        split at hx
        · cases hx
        next hnot => exact absurd ⟨hdir, hx⟩ hnot
      · rintro ⟨-, hloc, hparents, -⟩
        rcases hdir with hdir | ⟨q, hq, hdir⟩
        · exact absurd hdir hloc
        · exact absurd hdir (hparents q hq)
    · rw [if_neg hfile, if_neg fun h => hdir h.1]
      constructor
      · exact fun hx => ⟨hx, fun hloc => hdir (Or.inl hloc), fun q hq heq => hdir (Or.inr ⟨q, hq, heq⟩), hfile⟩
      · exact fun hx => hx.1
  have hisFile : ∀ x, fs'.kind x ≠ some .file ↔ fs.kind x ≠ some .file ∧ x ∉ s.fileLocations fs.cwd := by
    intro x
    rw [hkind]
    by_cases hfile : x ∈ s.fileLocations fs.cwd
    · simp [hfile]
    · rw [if_neg hfile]
      split
      next hdir => simp [hdir.2, hfile]
      next => simp [hfile]
  unfold Fresh Clear
  rw [hcwd]
  simp only [hnone, hisFile]
  constructor
  · rintro ⟨⟨hat, hloc, hparents, hfile⟩, hway⟩
    refine ⟨⟨hat, fun q hq => ⟨(hway q hq).1.1, (hway q hq).2⟩⟩, hloc.symm, fun q hq => (hparents q hq).symm, ?_⟩
    intro loc hmem
    exact ⟨fun heq => hfile (heq ▸ hmem), fun q hq heq => (hway q hq).1.2 (heq ▸ hmem)⟩
  · rintro ⟨⟨hat, hway⟩, hloc, hparents, hfiles⟩
    refine ⟨⟨hat, hloc.symm, fun q hq => (hparents q hq).symm, fun hmem => (hfiles _ hmem).1 rfl⟩, ?_⟩
    intro q hq
    exact ⟨⟨(hway q hq).1, fun hmem => (hfiles _ hmem).2 q hq rfl⟩, (hway q hq).2⟩

/-- All tasks run if each could run first and none is in the way of a later
one. -/
theorem runAll_iff : ∀ {ts : List (DirectoryTask Name)} {fs : FileSystem Name},
    (∃ fs', runAll fs ts = some fs') ↔ (∀ t ∈ ts, t.Fresh fs) ∧ ts.Pairwise (Clear fs.cwd)
  | [], fs => by simp [runAll]
  | t :: ts, fs => by
    rw [List.forall_mem_cons, List.pairwise_cons]
    constructor
    · rintro ⟨fs', h⟩
      obtain ⟨fs₁, hrun, hrest⟩ := Option.bind_eq_some_iff.mp h
      obtain ⟨hfresh, hpairs⟩ := runAll_iff.mp ⟨fs', hrest⟩
      rw [(kind_run hrun).1] at hpairs
      exact ⟨⟨fresh_of_run hrun, fun u hu => ((fresh_run_iff hrun).mp (hfresh u hu)).1⟩,
        fun u hu => ((fresh_run_iff hrun).mp (hfresh u hu)).2, hpairs⟩
    · rintro ⟨⟨hfresh, hrest⟩, hclear, hpairs⟩
      obtain ⟨fs₁, hrun⟩ := run_isSome hfresh
      rw [← (kind_run hrun).1] at hpairs
      obtain ⟨fs', hall⟩ := runAll_iff.mpr
        ⟨fun u hu => (fresh_run_iff hrun).mpr ⟨hrest u hu, hclear u hu⟩, hpairs⟩
      exact ⟨fs', Option.bind_eq_some_iff.mpr ⟨fs₁, hrun, hall⟩⟩

end DirectoryTask

end Ortoa
