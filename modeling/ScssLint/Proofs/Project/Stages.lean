import Mathlib.Data.List.Basic
import ScssLint.Project.Lint

/-! # What stops the checking of files

Steps that can fail are taken one after the other, and the first one that fails says why all of them
fail (`Steps.mapM_eq_error_iff`). The files of a project are checked in two stages: the directories
are listed, then the files are read. What stops the checking is the first failing step of the first
failing stage (`Linter.lintPaths_eq_error_iff`), and if nothing does, what is found are the findings
in every file (`Linter.eq_of_lintPaths`).
-/

namespace ScssLint

/-- Whether an item is the first of some items for which something holds. -/
def IsFirst {α : Type} (holds : α → Prop) (items : List α) (item : α) : Prop :=
  ∃ front behind, items = front ++ item :: behind ∧ holds item ∧ ∀ earlier ∈ front, ¬ holds earlier

namespace IsFirst

variable {α : Type} {holds : α → Prop} {items rest : List α} {item next : α}

theorem holds_item (first : IsFirst holds items item) : holds item := by
  obtain ⟨_, _, _, here, _⟩ := first
  exact here

theorem mem (first : IsFirst holds items item) : item ∈ items := by
  obtain ⟨front, behind, rfl, _, _⟩ := first
  exact List.mem_append_right front List.mem_cons_self

theorem head (here : holds item) (rest : List α) : IsFirst holds (item :: rest) item :=
  ⟨[], rest, rfl, here, List.forall_mem_nil _⟩

theorem cons (notHere : ¬ holds next) (first : IsFirst holds rest item) :
    IsFirst holds (next :: rest) item := by
  obtain ⟨front, behind, rfl, here, earlier⟩ := first
  exact ⟨next :: front, behind, rfl, here, List.forall_mem_cons.2 ⟨notHere, earlier⟩⟩

theorem cons_iff :
    IsFirst holds (next :: rest) item ↔
      holds next ∧ item = next ∨ ¬ holds next ∧ IsFirst holds rest item := by
  constructor
  · rintro ⟨front, behind, split, here, earlier⟩
    cases front with
    | nil =>
        obtain ⟨rfl, rfl⟩ := List.cons.inj split
        exact .inl ⟨here, rfl⟩
    | cons other front =>
        obtain ⟨rfl, rfl⟩ := List.cons.inj split
        obtain ⟨notHere, earlier⟩ := List.forall_mem_cons.1 earlier
        exact .inr ⟨notHere, front, behind, rfl, here, earlier⟩
  · rintro (⟨here, rfl⟩ | ⟨notHere, first⟩)
    · exact IsFirst.head here rest
    · exact first.cons notHere

theorem exists_iff : (∃ item, IsFirst holds items item) ↔ ∃ item ∈ items, holds item := by
  constructor
  · rintro ⟨item, first⟩
    exact ⟨item, first.mem, first.holds_item⟩
  · rintro ⟨item, member, here⟩
    induction items with
    | nil => exact absurd member List.not_mem_nil
    | cons next rest ih =>
        by_cases already : holds next
        · exact ⟨next, IsFirst.head already rest⟩
        · rcases List.mem_cons.1 member with rfl | later
          · exact absurd here already
          · obtain ⟨item, first⟩ := ih later
            exact ⟨item, first.cons already⟩

end IsFirst

/-! ### Steps one after the other -/

namespace Steps

variable {α β ε ε' : Type}

theorem bind_eq_ok_iff {step : Except ε α} {next : α → Except ε β} {result : β} :
    step >>= next = .ok result ↔ ∃ value, step = .ok value ∧ next value = .ok result := by
  cases step <;> simp [bind, Except.bind]

theorem bind_eq_error_iff {step : Except ε α} {next : α → Except ε β} {error : ε} :
    step >>= next = .error error ↔
      step = .error error ∨ ∃ value, step = .ok value ∧ next value = .error error := by
  cases step <;> simp [bind, Except.bind]

theorem mapError_eq_ok_iff {step : Except ε α} {change : ε → ε'} {value : α} :
    step.mapError change = .ok value ↔ step = .ok value := by
  cases step <;> simp [Except.mapError]

theorem mapError_eq_error_iff {step : Except ε α} {change : ε → ε'} {error' : ε'} :
    step.mapError change = .error error' ↔
      ∃ error, step = .error error ∧ change error = error' := by
  cases step <;> simp [Except.mapError]

/-- Whether a step fails. -/
def Fails (step : Except ε α) : Prop :=
  ∃ error, step = .error error

theorem not_fails_iff {step : Except ε α} : ¬ Fails step ↔ ∃ value, step = .ok value := by
  cases step <;> simp [Fails]

/-- **Steps fail with what the first failing one says.** -/
theorem mapM_eq_error_iff {step : α → Except ε β} {items : List α} {error : ε} :
    items.mapM step = .error error ↔
      ∃ item, IsFirst (fun item => Fails (step item)) items item ∧ step item = .error error := by
  induction items with
  | nil =>
      constructor
      · intro same
        cases same
      · rintro ⟨item, first, _⟩
        exact absurd first.mem List.not_mem_nil
  | cons next rest ih =>
      simp only [List.mapM_cons, bind_eq_error_iff, ih, IsFirst.cons_iff]
      constructor
      · rintro (here | ⟨value, succeeds, ⟨item, first, fails⟩ | ⟨_, _, same⟩⟩)
        · exact ⟨next, .inl ⟨⟨error, here⟩, rfl⟩, here⟩
        · exact ⟨item, .inr ⟨not_fails_iff.2 ⟨value, succeeds⟩, first⟩, fails⟩
        · cases same
      · rintro ⟨item, ⟨_, rfl⟩ | ⟨succeeds, first⟩, fails⟩
        · exact .inl fails
        · obtain ⟨value, succeeds⟩ := not_fails_iff.1 succeeds
          exact .inr ⟨value, succeeds, .inl ⟨item, first, fails⟩⟩

theorem fails_mapM_iff {step : α → Except ε β} {items : List α} :
    Fails (items.mapM step) ↔ ∃ item ∈ items, Fails (step item) := by
  rw [← IsFirst.exists_iff]
  constructor
  · rintro ⟨error, fails⟩
    obtain ⟨item, first, _⟩ := mapM_eq_error_iff.1 fails
    exact ⟨item, first⟩
  · rintro ⟨item, first⟩
    obtain ⟨error, fails⟩ := first.holds_item
    exact ⟨error, mapM_eq_error_iff.2 ⟨item, first, fails⟩⟩

/-- Steps that all succeed give what each of them gives. -/
theorem mapM_eq_ok {step : α → Except ε β} {value : α → β} {items : List α}
    (succeeds : ∀ item ∈ items, step item = .ok (value item)) :
    items.mapM step = .ok (items.map value) := by
  induction items with
  | nil => rfl
  | cons next rest ih =>
      obtain ⟨here, others⟩ := List.forall_mem_cons.1 succeeds
      rw [List.mapM_cons, here, ih others]
      rfl

end Steps

/-! ### The stages -/

open Steps

namespace Project

variable {project : Project} {paths : List Path} {error : LintError}

/-- The text of a file, if it can be read. -/
def textOf (project : Project) (file : Path) : Text :=
  (project.readText file).toOption.getD []

theorem readText_eq_ok {file : Path} (readable : ¬ Fails (project.readText file)) :
    project.readText file = .ok (project.textOf file) := by
  obtain ⟨text, read⟩ := not_fails_iff.1 readable
  rw [textOf, read]
  rfl

/-- What stops the checking of the files for which some paths stand: the first directory that cannot
be listed or, if there is none, the first file that cannot be read. -/
inductive StopsAt (project : Project) (paths : List Path) : LintError → Prop
  | directory {path directory : Path} {problem : AccessProblem} :
      IsFirst (fun listing => Fails (project.list listing.2)) (project.listings paths)
        (path, directory) →
      project.list directory = .error problem →
      StopsAt project paths (.unlistable path directory problem)
  | file {file : Path} {problem : AccessProblem} :
      (∀ listing ∈ project.listings paths, ¬ Fails (project.list listing.2)) →
      IsFirst (fun file => Fails (project.readText file)) (project.collect paths).items file →
      project.readText file = .error problem →
      StopsAt project paths (.unreadable file problem)

/-- Something stops the checking if and only if a step of a stage fails. -/
theorem exists_stopsAt_iff :
    (∃ error, project.StopsAt paths error) ↔
      (∃ listing ∈ project.listings paths, Fails (project.list listing.2)) ∨
        ∃ file ∈ (project.collect paths).items, Fails (project.readText file) := by
  constructor
  · rintro ⟨error, stops⟩
    cases stops with
    | directory first _ => exact .inl ⟨_, first.mem, first.holds_item⟩
    | file _ first _ => exact .inr ⟨_, first.mem, first.holds_item⟩
  · intro failing
    by_cases closed : ∃ listing ∈ project.listings paths, Fails (project.list listing.2)
    · obtain ⟨⟨path, directory⟩, first⟩ := IsFirst.exists_iff.2 closed
      obtain ⟨problem, closed⟩ := first.holds_item
      exact ⟨_, .directory first closed⟩
    · obtain ⟨file, first⟩ := IsFirst.exists_iff.2 (failing.resolve_left closed)
      obtain ⟨problem, unread⟩ := first.holds_item
      have listed : ∀ listing ∈ project.listings paths, ¬ Fails (project.list listing.2) :=
        fun listing member fails => closed ⟨listing, member, fails⟩
      exact ⟨_, .file listed first unread⟩

theorem fails_mapError_iff {α : Type} {step : Except AccessProblem α}
    {change : AccessProblem → LintError} : Fails (step.mapError change) ↔ Fails step := by
  rw [← not_iff_not, not_fails_iff, not_fails_iff]
  exact exists_congr fun _ => mapError_eq_ok_iff

theorem gather_eq_error_iff :
    project.gather paths = .error error ↔
      ∃ path directory problem,
        IsFirst (fun listing => Fails (project.list listing.2)) (project.listings paths)
          (path, directory) ∧
        project.list directory = .error problem ∧ error = .unlistable path directory problem := by
  simp only [gather, bind_eq_error_iff, mapM_eq_error_iff, fails_mapError_iff,
    mapError_eq_error_iff]
  constructor
  · rintro (⟨⟨path, directory⟩, first, problem, closed, rfl⟩ | ⟨_, _, same⟩)
    · exact ⟨path, directory, problem, first, closed, rfl⟩
    · cases same
  · rintro ⟨path, directory, problem, first, closed, rfl⟩
    exact .inl ⟨(path, directory), first, problem, closed, rfl⟩

theorem gather_eq_ok_iff {files : Ascending Path.compare} :
    project.gather paths = .ok files ↔
      (∀ listing ∈ project.listings paths, ¬ Fails (project.list listing.2)) ∧
        project.collect paths = files := by
  have listed : (∃ values, ((project.listings paths).mapM fun listing =>
      (project.list listing.2).mapError (LintError.unlistable listing.1 listing.2)) = .ok values) ↔
      ∀ listing ∈ project.listings paths, ¬ Fails (project.list listing.2) := by
    simp only [← not_fails_iff, fails_mapM_iff, fails_mapError_iff, not_exists, not_and]
  simp only [gather, bind_eq_ok_iff, exists_and_right, listed]
  exact and_congr_right fun _ => ⟨Except.ok.inj, congrArg Except.ok⟩

end Project

namespace Linter

variable {linter : Linter} {project : Project} {paths : List Path} {error : LintError}

theorem lintFile_eq_error_iff {file : Path} :
    linter.lintFile project file = .error error ↔
      ∃ problem, project.readText file = .error problem ∧ error = .unreadable file problem := by
  simp only [lintFile, bind_eq_error_iff, mapError_eq_error_iff]
  constructor
  · rintro (⟨problem, unread, rfl⟩ | ⟨_, _, same⟩)
    · exact ⟨problem, unread, rfl⟩
    · cases same
  · rintro ⟨problem, unread, rfl⟩
    exact .inl ⟨problem, unread, rfl⟩

theorem fails_lintFile_iff {file : Path} :
    Fails (linter.lintFile project file) ↔ Fails (project.readText file) := by
  constructor
  · rintro ⟨error, fails⟩
    obtain ⟨problem, unread, _⟩ := lintFile_eq_error_iff.1 fails
    exact ⟨problem, unread⟩
  · rintro ⟨problem, unread⟩
    exact ⟨_, lintFile_eq_error_iff.2 ⟨problem, unread, rfl⟩⟩

theorem lintFile_eq_ok {file : Path} (readable : ¬ Fails (project.readText file)) :
    linter.lintFile project file = .ok (linter.lintSource file (project.textOf file)) := by
  rw [lintFile, project.readText_eq_ok readable]
  rfl

/-- **The checking of files is stopped by the first failing step of the first failing stage.** -/
theorem lintPaths_eq_error_iff :
    linter.lintPaths project paths = .error error ↔ project.StopsAt paths error := by
  simp only [lintPaths, bind_eq_error_iff, project.gather_eq_error_iff, project.gather_eq_ok_iff,
    mapM_eq_error_iff, fails_lintFile_iff, lintFile_eq_error_iff]
  constructor
  · rintro (⟨path, directory, problem, first, closed, rfl⟩ |
      ⟨files, ⟨listed, rfl⟩, ⟨file, first, problem, unread, rfl⟩ | ⟨_, _, same⟩⟩)
    · exact .directory first closed
    · exact .file listed first unread
    · cases same
  · rintro (⟨first, closed⟩ | ⟨listed, first, unread⟩)
    · exact .inl ⟨_, _, _, first, closed, rfl⟩
    · exact .inr ⟨_, ⟨listed, rfl⟩, .inl ⟨_, first, _, unread, rfl⟩⟩

/-- **If nothing stops the checking, what is found are the findings in every file**, in the order of
the files. -/
theorem eq_of_lintPaths {findings : List Diagnostic}
    (found : linter.lintPaths project paths = .ok findings) :
    (∀ file ∈ (project.collect paths).items, project.readText file = .ok (project.textOf file)) ∧
      findings = (project.collect paths).items.flatMap fun file =>
        linter.lintSource file (project.textOf file) := by
  have readable : ∀ file ∈ (project.collect paths).items, ¬ Fails (project.readText file) := by
    intro file member fails
    obtain ⟨error, stopped⟩ := project.exists_stopsAt_iff.2 (.inr ⟨file, member, fails⟩)
    rw [lintPaths_eq_error_iff.2 stopped] at found
    cases found
  refine ⟨fun file member => project.readText_eq_ok (readable file member), ?_⟩
  rw [lintPaths] at found
  obtain ⟨files, gathered, found⟩ := bind_eq_ok_iff.1 found
  obtain ⟨_, rfl⟩ := project.gather_eq_ok_iff.1 gathered
  rw [mapM_eq_ok fun file member => linter.lintFile_eq_ok (readable file member)] at found
  rw [List.flatMap_def]
  exact (Except.ok.inj found).symm

end Linter

end ScssLint
