import ScssLint.Proofs.Project.Collecting

/-! # Several paths to one file

A path leads to the place that its steps say, whatever is in the tree (`Project.eq_placeFrom`). So
two paths that go on with names behind the same steps lead to different files unless they are equal
(`Path.eq_of_placeFrom`), and files that are collected for such paths are checked once
(`Project.checksOnce_gather`). A file to which other steps lead is checked once for each way to
spell it (`Project.not_checksOnce`).
-/

namespace ScssLint

open Steps

namespace Path

/-! ### Where steps lead -/

/-- The place to which a step leads from another place. -/
def Component.follow (place : List String) : Component → List String
  | root => []
  | current => place
  | parent => place.dropLast
  | name text => place ++ [text]

/-- The place to which the steps of a path lead from another place, if nothing is in the way. -/
def placeFrom (start : List String) (path : Path) : List String :=
  path.components.foldl Component.follow start

variable {path first second : Path} {start : List String} {shared : List Component}
  {names names' : List String}

theorem foldl_follow_names (place names : List String) :
    (names.map Component.name).foldl Component.follow place = place ++ names := by
  induction names generalizing place with
  | nil => exact (List.append_nil place).symm
  | cons name names ih =>
      rw [List.map_cons, List.foldl_cons, ih, Component.follow, List.append_assoc]
      rfl

/-- **Names behind the same steps lead to different places.** -/
theorem eq_of_placeFrom (split : first.components = shared ++ names.map .name)
    (split' : second.components = shared ++ names'.map .name)
    (same : first.placeFrom start = second.placeFrom start) :
    first.components = second.components := by
  rw [placeFrom, placeFrom, split, split', List.foldl_append, List.foldl_append,
    foldl_follow_names, foldl_follow_names] at same
  rw [split, split', List.append_cancel_left same]

/-- The step that a path begins with because of its spelling leads to where the path starts. -/
theorem foldl_follow_leadingStep (written : path.spelling.toList ≠ []) :
    (leadingStep (segments path.spelling.toList)).foldl Component.follow start =
      if path.isAbsolute then [] else start := by
  obtain ⟨c, rest, spelled⟩ := List.exists_cons_of_ne_nil written
  obtain ⟨first, others, cut⟩ := List.exists_cons_of_ne_nil (segments_ne_nil rest)
  rw [isAbsolute, spelled, segments, cut, List.head?_cons]
  by_cases slash : c = '/'
  · subst slash
    rfl
  · have relative : ¬ (some c == some '/') = true := fun same =>
      slash (Option.some.inj (beq_iff_eq.1 same))
    rw [if_neg slash, if_neg relative, leadingStep_cons (List.cons_ne_nil _ _)]
    split <;> rfl

end Path

namespace Project

variable {project : Project} {path : Path} {place next : List String}

theorem eq_of_step {tree : FileTree} {segment : Text} (steps : step tree place segment = .ok next) :
    next = (Path.componentOf? segment).elim place (Path.Component.follow place) := by
  unfold step at steps
  unfold Path.componentOf?
  split at steps
  · split at steps
    · rename_i empty
      rw [if_pos (.inl empty)]
      exact (Except.ok.inj steps).symm
    rename_i written
    split at steps
    · cases steps
    split at steps
    · rename_i current
      rw [if_pos (.inr current)]
      exact (Except.ok.inj steps).symm
    rename_i noDot
    rw [if_neg (not_or.2 ⟨written, noDot⟩)]
    split at steps
    · rename_i up
      rw [if_pos up]
      exact (Except.ok.inj steps).symm
    rename_i down
    rw [if_neg down]
    split at steps
    · cases steps
    split at steps
    · exact (Except.ok.inj steps).symm
    · cases steps
  · cases steps
  · cases steps

theorem eq_of_foldlM_step {tree : FileTree} {segments : List Text}
    (steps : segments.foldlM (step tree) place = .ok next) :
    next = (segments.filterMap Path.componentOf?).foldl Path.Component.follow place := by
  induction segments generalizing place with
  | nil => exact (Except.ok.inj steps).symm
  | cons segment segments ih =>
      rw [List.foldlM_cons] at steps
      obtain ⟨between, first, others⟩ := bind_eq_ok_iff.1 steps
      rw [ih others, eq_of_step first, List.filterMap_cons]
      cases Path.componentOf? segment <;> rfl

/-- **A path leads to the place that its steps say.** -/
theorem eq_placeFrom (resolved : project.resolve path = .ok place) :
    place = path.placeFrom project.workingDirectory := by
  obtain ⟨spelled, follows⟩ := resolve_eq_ok_iff.1 resolved
  rw [eq_of_foldlM_step follows, Path.placeFrom, Path.components_eq, List.foldl_append,
    Path.foldl_follow_leadingStep spelled.written]
  rfl

/-! ### Files that are checked once -/

variable {paths : List Path} {files : Ascending Path.compare} {first second file : Path}

/-- Whether two paths lead to the same place. -/
def LeadToSame (project : Project) (first second : Path) : Prop :=
  ∃ place, project.resolve first = .ok place ∧ project.resolve second = .ok place

theorem LeadToSame.placeFrom_eq (same : project.LeadToSame first second) :
    first.placeFrom project.workingDirectory = second.placeFrom project.workingDirectory := by
  obtain ⟨place, resolved, resolved'⟩ := same
  rw [← eq_placeFrom resolved, ← eq_placeFrom resolved']

/-- Whether some paths go on with names behind the same steps. -/
def GoOnWithNames (paths : List Path) : Prop :=
  ∃ shared, ∀ path ∈ paths, ∃ names : List String, path.components = shared ++ names.map .name

/-- What is collected for a path goes on with names behind the steps of the path. -/
theorem exists_names_of_mem_expand (named : project.tree.IsNamed)
    (member : file ∈ project.expand path) :
    ∃ names : List String, file.components = path.components ++ names.map .name := by
  by_cases directory : project.isDirectory path = true
  · unfold isDirectory at directory
    split at directory
    · rename_i found
      obtain ⟨names, offers, rfl⟩ := (mem_expand_iff named found).1 member
      have areNames := offers.areNames (isNamed_of_find named found)
      refine ⟨names, ?_⟩
      rw [Path.components_foldl_join (written_of_find found) fun name isName =>
        (areNames name isName).isStep]
      exact congrArg _ (List.map_congr_left fun name isName =>
        Path.stepOf_entry (areNames name isName))
    · cases directory
  · rw [Bool.not_eq_true] at directory
    rw [expand_of_noDirectory directory] at member
    rw [List.mem_singleton.1 member]
    exact ⟨[], (List.append_nil _).symm⟩

theorem GoOnWithNames.collect (named : project.tree.IsNamed) (alike : GoOnWithNames paths) :
    GoOnWithNames (project.collect paths).items := by
  obtain ⟨shared, goOn⟩ := alike
  refine ⟨shared, fun file collected => ?_⟩
  obtain ⟨path, isPath, member⟩ := exists_mem_expand collected
  obtain ⟨names, split⟩ := goOn path isPath
  obtain ⟨names', split'⟩ := exists_names_of_mem_expand named member
  exact ⟨names ++ names', by rw [split', split, List.map_append, List.append_assoc]⟩

/-- What it means that the files that are collected for some paths are checked once. -/
structure ChecksOnce (project : Project) (paths : List Path) (files : Ascending Path.compare) :
    Prop where
  /-- A file is where the steps of its path lead. -/
  place : ∀ file ∈ files.items, ∀ place, project.resolve file = .ok place →
    place = file.placeFrom project.workingDirectory
  /-- Where two paths lead to the same file, one of them takes a step that is no name behind those
  that both of them take. -/
  apart : files.items.Pairwise fun first second => project.LeadToSame first second →
    ∀ shared more more', first.components = shared ++ more → second.components = shared ++ more' →
      ∃ step ∈ more ++ more', ∀ name, step ≠ .name name
  /-- So no two of the paths lead to the same file if those that were given go on with names behind
  the same steps. -/
  once : GoOnWithNames paths →
    files.items.Pairwise fun first second => ¬ project.LeadToSame first second
  /-- What a linter finds are the findings in the file at each of the paths. -/
  findings : ∀ (linter : Linter) (findings : List Diagnostic),
    linter.lintPaths project paths = .ok findings →
      (∀ file ∈ files.items, project.readText file = .ok (project.textOf file)) ∧
        findings = files.items.flatMap fun file => linter.lintSource file (project.textOf file)

/-- Collected files with the same steps are the same. -/
theorem pairwise_components (files : Ascending Path.compare) :
    files.items.Pairwise fun first second => first.components ≠ second.components :=
  files.ascending.imp fun {first second} below same => by
    rw [Path.compare_eq_iff.2 same] at below
    cases below

/-- A list of steps that are all names. -/
theorem exists_names {steps : List Path.Component}
    (all : ¬ ∃ step ∈ steps, ∀ name, step ≠ .name name) :
    ∃ names : List String, steps = names.map .name := by
  induction steps with
  | nil => exact ⟨[], rfl⟩
  | cons step steps ih =>
      simp only [List.exists_mem_cons_iff, not_or, not_forall, not_not] at all
      obtain ⟨⟨name, rfl⟩, others⟩ := all
      obtain ⟨names, rfl⟩ := ih others
      exact ⟨name :: names, rfl⟩

/-- **Files are checked once as far as the steps to them are names.** -/
theorem checksOnce_gather (named : project.tree.IsNamed)
    (gathered : project.gather paths = .ok files) : project.ChecksOnce paths files := by
  obtain ⟨_, rfl⟩ := gather_eq_ok_iff.1 gathered
  constructor
  case place => exact fun file _ place resolved => eq_placeFrom resolved
  case apart =>
    refine (pairwise_components _).imp fun {first second} differ same shared more more' split
      split' => ?_
    by_contra all
    -- Names only behind what both share: then equal places mean equal names.
    obtain ⟨names, areNames⟩ := exists_names all
    obtain ⟨front, behind, _, rfl, rfl⟩ := List.map_eq_append_iff.1 areNames.symm
    exact differ (Path.eq_of_placeFrom split split' same.placeFrom_eq)
  case once =>
    intro alike
    obtain ⟨shared, goOn⟩ := alike.collect named
    refine (pairwise_components _).imp_of_mem fun {first second} member member' differ same => ?_
    obtain ⟨names, split⟩ := goOn first member
    obtain ⟨names', split'⟩ := goOn second member'
    exact differ (Path.eq_of_placeFrom split split' same.placeFrom_eq)
  case findings => exact fun linter findings found => linter.eq_of_lintPaths found

theorem checksOnce_gather_styles :
    styles.tree.IsNamed ∧
      styles.gather [⟨"styles"⟩, ⟨"./styles/../styles/a.scss"⟩] =
        .ok (styles.collect [⟨"styles"⟩, ⟨"./styles/../styles/a.scss"⟩]) ∧
      styles.ChecksOnce [⟨"styles"⟩, ⟨"./styles/../styles/a.scss"⟩]
        (styles.collect [⟨"styles"⟩, ⟨"./styles/../styles/a.scss"⟩]) := by
  have readable : styles.IsReadable [⟨"styles"⟩, ⟨"./styles/../styles/a.scss"⟩] := by
    decide +kernel
  exact ⟨isNamed_styles, readable.gather_eq, checksOnce_gather isNamed_styles readable.gather_eq⟩

/-- A directory with a single file. -/
def single : Project where
  tree := .directory [("a.scss", .file (some "$a: 1;".toList))]
  workingDirectory := []

/-- Not every file is checked once: `a.scss` and `./a.scss` are two paths to one file. -/
theorem not_checksOnce :
    ¬ ∀ (project : Project) (paths : List Path) (files : Ascending Path.compare),
      project.tree.IsNamed → (∀ path ∈ paths, ¬ Fails (project.find path)) →
      project.gather paths = .ok files →
      files.items.Pairwise fun first second => ¬ project.LeadToSame first second := by
  intro once
  have named : single.tree.IsNamed :=
    .directory (by decide +kernel) (by decide +kernel) (List.forall_mem_singleton.2 .file)
  have exist : ∀ path ∈ [(⟨"a.scss"⟩ : Path), ⟨"./a.scss"⟩], ¬ Fails (single.find path) := by
    decide +kernel
  have readable : single.IsReadable [⟨"a.scss"⟩, ⟨"./a.scss"⟩] := by decide +kernel
  have files : (single.collect [⟨"a.scss"⟩, ⟨"./a.scss"⟩]).items =
      [⟨"./a.scss"⟩, ⟨"a.scss"⟩] := by
    decide +kernel
  have apart := once single _ _ named exist readable.gather_eq
  rw [files] at apart
  have same : single.LeadToSame ⟨"./a.scss"⟩ ⟨"a.scss"⟩ :=
    ⟨["a.scss"], by decide +kernel, by decide +kernel⟩
  exact List.rel_of_pairwise_cons apart List.mem_cons_self same

example : ((⟨[.dollarVariableDefault false]⟩ : Linter).lintPaths single
    [⟨"a.scss"⟩, ⟨"./a.scss"⟩]).toOption.map (·.map (·.location.file)) =
      some ["./a.scss", "a.scss"] := by
  decide +kernel

end Project

end ScssLint
