import ScssLint.Proofs.Project.Components
import ScssLint.Proofs.Project.Merging

/-! # Collecting files

A directory offers the files below it that have a known extension and are not reached through a
skipped name (`FileTree.Offers`); any other path stands for itself. What is collected for some paths
is the set of all that is offered (`Project.collectsSet_gather`).
-/

namespace ScssLint

open Steps

/-! ### What a directory offers -/

/-- Whether the extension of a name is, in any case, that of a stylesheet or of markup. -/
def HasKnownExtension (name : String) : Prop :=
  ∃ stem extension, stem ≠ [] ∧ '.' ∉ extension ∧ name.toList = stem ++ '.' :: extension ∧
    ∃ known ∈ Dialect.lintableExtensions, Text.equalAnyCase known.toList extension = true

/-- Whether some names lead to a file that is to be checked, by names none of which is skipped. -/
structure FileTree.Offers (tree : FileTree) (names : List String) : Prop where
  isFile : ∃ text? access, tree.get? names = some (.file text? access)
  isKnown : ∃ name, names.getLast? = some name ∧ HasKnownExtension name
  unskipped : ∀ name ∈ names, name.toList.head? ≠ some '.' ∧ name ≠ "node_modules"

instance (name : String) : Decidable (IsEntryName name) :=
  decidable_of_iff (name.toList ≠ [] ∧ '/' ∉ name.toList ∧ '\x00' ∉ name.toList ∧
      name.toList ≠ ['.'] ∧ name.toList ≠ ['.', '.'] ∧
      Text.bytes name.toList ≤ Project.nameLimit)
    ⟨fun ⟨written, noSlash, noNull, notCurrent, notParent, fits⟩ =>
        ⟨written, noSlash, noNull, notCurrent, notParent, fits⟩,
      fun isName => ⟨isName.written, isName.noSlash, isName.noNull, isName.notCurrent,
        isName.notParent, isName.fits⟩⟩

theorem isSkippedName_eq_false_iff {name : String} :
    isSkippedName name = false ↔ name.toList.head? ≠ some '.' ∧ name ≠ "node_modules" := by
  rw [isSkippedName, Bool.or_eq_false_iff, beq_eq_false_iff_ne, beq_eq_false_iff_ne]

theorem isLintable_eq_true_iff {path : Path} :
    isLintable path = true ↔
      ∃ extension, path.extension? = some extension ∧ ∃ known ∈ Dialect.lintableExtensions,
        Text.equalAnyCase known.toList extension.toList = true := by
  unfold isLintable
  cases path.extension? with
  | none => exact iff_of_false Bool.false_ne_true (by rintro ⟨_, same, _⟩; cases same)
  | some extension => simp only [List.any_eq_true, Option.some.injEq, exists_eq_left']

theorem isLintable_foldl_join {path : Path} {names : List String}
    (written : path.spelling.toList ≠ []) (areNames : ∀ name ∈ names, IsEntryName name)
    (joined : names ≠ []) :
    isLintable (names.foldl Path.join path) = true ↔
      ∃ name, names.getLast? = some name ∧ HasKnownExtension name := by
  simp only [isLintable_eq_true_iff, Path.extension?_foldl_join written areNames joined,
    Option.bind_eq_some_iff, Path.extensionOf?_eq_some_iff]
  constructor
  · rintro ⟨extension, ⟨name, last, stem, some, noDot, split⟩, known⟩
    exact ⟨name, last, stem, extension.toList, some, noDot, split, known⟩
  · rintro ⟨name, last, stem, extension, some, noDot, split, known⟩
    have same : (String.ofList extension).toList = extension := String.toList_ofList
    refine ⟨String.ofList extension, ⟨name, last, stem, some, ?_⟩, ?_⟩
    · rw [same]
      exact ⟨noDot, split⟩
    · rw [same]
      exact known

namespace FileTree

variable {tree : FileTree} {entries : List (String × FileTree)} {access : Access}
  {names : List String}

theorem mem_unskippedFilesOf_iff :
    names ∈ unskippedFilesOf entries ↔
      ∃ name tree rest, names = name :: rest ∧ (name, tree) ∈ entries ∧
        isSkippedName name = false ∧ rest ∈ tree.unskippedFiles := by
  induction entries with
  | nil =>
      refine iff_of_false List.not_mem_nil ?_
      rintro ⟨_, _, _, _, member, _⟩
      exact List.not_mem_nil member
  | cons entry entries ih =>
      obtain ⟨name, tree⟩ := entry
      rw [unskippedFilesOf, List.mem_append, ih]
      constructor
      · rintro (here | ⟨name', tree', rest, split, member, unskipped, inside⟩)
        · split at here
          · exact absurd here List.not_mem_nil
          · rename_i unskipped
            obtain ⟨rest, inside, rfl⟩ := List.mem_map.1 here
            exact ⟨name, tree, rest, rfl, List.mem_cons_self, Bool.eq_false_iff.2 unskipped, inside⟩
        · exact ⟨name', tree', rest, split, List.mem_cons_of_mem _ member, unskipped, inside⟩
      · rintro ⟨name', tree', rest, rfl, member, unskipped, inside⟩
        rcases List.mem_cons.1 member with same | later
        · obtain ⟨rfl, rfl⟩ := Prod.mk.inj same
          left
          rw [if_neg (Bool.eq_false_iff.1 unskipped)]
          exact List.mem_map.2 ⟨rest, inside, rfl⟩
        · exact .inr ⟨name', tree', rest, rfl, later, unskipped, inside⟩

/-- The files that are not reached through a skipped name. -/
theorem mem_unskippedFiles_iff (named : tree.IsNamed) :
    names ∈ tree.unskippedFiles ↔
      (∃ text? access, tree.get? names = some (.file text? access)) ∧
        ∀ name ∈ names, isSkippedName name = false := by
  induction names generalizing tree with
  | nil =>
      cases tree with
      | file text? access =>
          exact iff_of_true List.mem_cons_self ⟨⟨text?, access, rfl⟩, List.forall_mem_nil _⟩
      | directory entries access =>
          refine iff_of_false ?_ (by rintro ⟨⟨_, _, same⟩, _⟩; cases same)
          intro member
          obtain ⟨_, _, _, split, _⟩ := mem_unskippedFilesOf_iff.1 member
          cases split
  | cons name names ih =>
      cases named with
      | file =>
          exact iff_of_false (by simp [unskippedFiles]) (by rintro ⟨⟨_, _, same⟩, _⟩; cases same)
      | @directory entries _ _ distinct later =>
          rw [unskippedFiles, mem_unskippedFilesOf_iff, List.forall_mem_cons]
          constructor
          · rintro ⟨name', next, rest, split, member, unskipped, inside⟩
            obtain ⟨rfl, rfl⟩ := List.cons.inj split
            obtain ⟨⟨text?, access, found⟩, unskipped'⟩ := (ih (later _ member)).1 inside
            exact ⟨⟨text?, access, Option.bind_eq_some_iff.2
              ⟨next, (lookup_eq_some_iff distinct).2 member, found⟩⟩, unskipped, unskipped'⟩
          · rintro ⟨⟨text?, access, found⟩, unskipped, unskipped'⟩
            obtain ⟨next, isEntry, found⟩ := Option.bind_eq_some_iff.1 found
            have member := (lookup_eq_some_iff distinct).1 isEntry
            exact ⟨name, next, names, rfl, member, unskipped,
              (ih (later _ member)).2 ⟨⟨text?, access, found⟩, unskipped'⟩⟩

theorem Offers.areNames (offers : tree.Offers names) (named : tree.IsNamed) :
    ∀ name ∈ names, IsEntryName name := by
  obtain ⟨_, _, inside⟩ := offers.isFile
  exact isEntryName_of_get? named inside

theorem Offers.ne_nil (offers : (directory entries access).Offers names) : names ≠ [] := by
  rintro rfl
  obtain ⟨_, _, same⟩ := offers.isFile
  cases same

end FileTree

/-! ### What a path stands for -/

namespace Project

variable {project : Project} {path file : Path} {entries : List (String × FileTree)}
  {access : Access} {names : List String}

theorem expand_of_noDirectory (noDirectory : project.isDirectory path = false) :
    project.expand path = [path] := by
  unfold isDirectory at noDirectory
  unfold expand
  split
  · rename_i found
    rw [found] at noDirectory
    cases noDirectory
  · rfl

theorem searched_of_noDirectory (noDirectory : project.isDirectory path = false) :
    project.searched path = [] := by
  unfold isDirectory at noDirectory
  unfold searched
  split
  · rename_i tree found
    rw [found] at noDirectory
    cases tree with
    | file => rfl
    | directory => cases noDirectory
  · rfl

/-- **A directory stands for what it offers.** -/
theorem mem_expand_iff (named : project.tree.IsNamed)
    (found : project.find path = .ok (.directory entries access)) :
    file ∈ project.expand path ↔
      ∃ names, (FileTree.directory entries access).Offers names ∧
        names.foldl Path.join path = file := by
  have written := written_of_find found
  have namedTree := isNamed_of_find named found
  have unskipped (names : List String) : names ∈ FileTree.unskippedFilesOf entries ↔
      (∃ text? granted, (FileTree.directory entries access).get? names =
        some (.file text? granted)) ∧
        ∀ name ∈ names, isSkippedName name = false :=
    FileTree.mem_unskippedFiles_iff namedTree
  rw [expand, found]
  simp only [List.mem_filter, List.mem_map, unskipped, isSkippedName_eq_false_iff]
  constructor
  · rintro ⟨⟨names, ⟨isFile, unskipped⟩, rfl⟩, lintable⟩
    obtain ⟨text?, granted, inside⟩ := isFile
    have areNames := FileTree.isEntryName_of_get? namedTree inside
    have joined : names ≠ [] := by
      rintro rfl
      cases inside
    exact ⟨names, ⟨⟨text?, granted, inside⟩,
      (isLintable_foldl_join written areNames joined).1 lintable, unskipped⟩, rfl⟩
  · rintro ⟨names, offers, rfl⟩
    have areNames := offers.areNames namedTree
    exact ⟨⟨names, ⟨offers.isFile, offers.unskipped⟩, rfl⟩,
      (isLintable_foldl_join written areNames offers.ne_nil).2 offers.isKnown⟩

/-- What a path stands for is no directory. -/
theorem noDirectory_of_mem_expand (named : project.tree.IsNamed)
    (member : file ∈ project.expand path) : project.isDirectory file = false := by
  by_cases directory : project.isDirectory path = true
  · unfold isDirectory at directory
    split at directory
    · rename_i top
      obtain ⟨names, offers, rfl⟩ := (mem_expand_iff named top).1 member
      obtain ⟨_, _, inside⟩ := offers.isFile
      unfold isDirectory
      split
      · rename_i found
        cases eq_of_find_foldl_join (isNamed_of_find named top) top inside found
      · rfl
    · cases directory
  · rw [Bool.not_eq_true] at directory
    rw [expand_of_noDirectory directory] at member
    rwa [List.mem_singleton.1 member]

/-! ### The collected files -/

variable {paths others : List Path}

/-- Whether all directories that are searched for the files of some paths can be listed. -/
def IsReadable (project : Project) (paths : List Path) : Prop :=
  ∀ listing ∈ project.listings paths, ¬ Fails (project.list listing.2)

instance {α ε : Type} (step : Except ε α) : Decidable (Fails step) :=
  match step with
  | .ok _ => isFalse (by rintro ⟨_, same⟩; cases same)
  | .error error => isTrue ⟨error, rfl⟩

instance : Decidable (project.IsReadable paths) :=
  inferInstanceAs (Decidable (∀ listing ∈ project.listings paths, ¬ Fails (project.list listing.2)))

theorem IsReadable.gather_eq (readable : project.IsReadable paths) :
    project.gather paths = .ok (project.collect paths) :=
  gather_eq_ok_iff.2 ⟨readable, rfl⟩

/-- Which paths there are decides which directories are searched. -/
theorem IsReadable.of_subset (readable : project.IsReadable paths)
    (isPath : ∀ path ∈ others, path ∈ paths) : project.IsReadable others := by
  intro listing member
  obtain ⟨path, isOther, member⟩ := List.mem_flatMap.1 member
  exact readable listing (List.mem_flatMap.2 ⟨path, isPath path isOther, member⟩)

theorem isReadable_of_noDirectories
    (noDirectory : ∀ path ∈ paths, project.isDirectory path = false) :
    project.IsReadable paths := by
  intro listing member
  obtain ⟨path, isPath, member⟩ := List.mem_flatMap.1 member
  rw [searched_of_noDirectory (noDirectory path isPath)] at member
  exact absurd member List.not_mem_nil

/-- Every collected file comes from a path. -/
theorem exists_mem_expand (collected : file ∈ (project.collect paths).items) :
    ∃ path ∈ paths, file ∈ project.expand path :=
  List.mem_flatMap.1 ((Ascending.mem_ofList_iff _ _).1 collected).mem

theorem mem_expand_of_collected (collected : file ∈ (project.collect [path]).items) :
    file ∈ project.expand path := by
  obtain ⟨other, isPath, member⟩ := exists_mem_expand collected
  rwa [List.mem_singleton.1 isPath] at member

theorem noDirectory_of_mem_collect (named : project.tree.IsNamed) :
    ∀ file ∈ (project.collect paths).items, project.isDirectory file = false := by
  intro file collected
  obtain ⟨path, _, member⟩ := exists_mem_expand collected
  exact noDirectory_of_mem_expand named member

/-- **Collecting what was collected changes nothing.** -/
theorem collect_items (named : project.tree.IsNamed) (paths : List Path) :
    project.collect (project.collect paths).items = project.collect paths := by
  have stays : (project.collect paths).items.flatMap project.expand =
      (project.collect paths).items.flatMap fun file => [file] :=
    List.flatMap_congr fun file member =>
      expand_of_noDirectory (noDirectory_of_mem_collect named file member)
  rw [collect, stays, List.flatMap_singleton', Ascending.ofList_items]

/-- The steps of collected files, which are in order as well. -/
def stepsOf (files : Ascending Path.compare) : Ascending (List.compareLex Path.Component.compare) :=
  ⟨files.items.map Path.components, List.pairwise_map.2 files.ascending⟩

theorem mem_stepsOf_collect_iff (steps : List Path.Component) :
    steps ∈ (stepsOf (project.collect paths)).items ↔
      ∃ path ∈ paths, ∃ file ∈ project.expand path, file.components = steps := by
  constructor
  · intro member
    obtain ⟨file, collected, rfl⟩ := List.mem_map.1 member
    obtain ⟨path, isPath, member⟩ := exists_mem_expand collected
    exact ⟨path, isPath, file, member, rfl⟩
  · rintro ⟨path, isPath, file, member, rfl⟩
    have all : file ∈ paths.flatMap project.expand := List.mem_flatMap.2 ⟨path, isPath, member⟩
    have has : (project.collect paths).Has file :=
      (Ascending.has_ofList_iff _ file).2 ⟨file, all, Path.compare_eq_iff.2 rfl⟩
    obtain ⟨other, collected, same⟩ := has
    exact List.mem_map.2 ⟨other, collected, Path.compare_eq_iff.1 same⟩

/-- **The order of paths and their repetitions do not matter** for the steps of collected files. -/
theorem stepsOf_collect_congr (same : ∀ path, path ∈ others ↔ path ∈ paths) :
    stepsOf (project.collect others) = stepsOf (project.collect paths) := by
  refine Ascending.ext_iff_mem.2 fun steps => ?_
  simp only [mem_stepsOf_collect_iff, same]

/-- What a directory stands for has the steps of joined names only if the directory offers them. -/
theorem offers_of_components (named : project.tree.IsNamed)
    (found : project.find path = .ok (.directory entries access))
    (areSteps : ∀ name ∈ names, Path.IsStep name) (member : file ∈ project.expand path)
    (same : file.components = (names.foldl Path.join path).components) :
    (FileTree.directory entries access).Offers names ∧ file = names.foldl Path.join path := by
  obtain ⟨names', offers, rfl⟩ := (mem_expand_iff named found).1 member
  have areSteps' : ∀ name ∈ names', Path.IsStep name := fun name member =>
    (offers.areNames (isNamed_of_find named found) name member).isStep
  obtain rfl := Path.eq_of_components_foldl_join (written_of_find found) areSteps' areSteps same
  exact ⟨offers, rfl⟩

/-- **A directory contributes what it offers**, whether paths are compared by their steps or by
their spelling. -/
theorem contributes_iff (named : project.tree.IsNamed)
    (found : project.find path = .ok (.directory entries access))
    (areSteps : ∀ name ∈ names, Path.IsStep name) :
    ((project.collect [path]).Has (names.foldl Path.join path) ↔
      (FileTree.directory entries access).Offers names) ∧
    (names.foldl Path.join path ∈ (project.collect [path]).items ↔
      (FileTree.directory entries access).Offers names) := by
  have has : (project.collect [path]).Has (names.foldl Path.join path) ↔
      (FileTree.directory entries access).Offers names := by
    rw [collect, List.flatMap_singleton, Ascending.has_ofList_iff]
    constructor
    · rintro ⟨file, member, same⟩
      exact (offers_of_components named found areSteps member (Path.compare_eq_iff.1 same)).1
    · intro offers
      exact ⟨_, (mem_expand_iff named found).2 ⟨names, offers, rfl⟩, Path.compare_eq_iff.2 rfl⟩
  refine ⟨has, ?_, ?_⟩
  · intro member
    exact has.1 ⟨_, member, Path.compare_eq_iff.2 rfl⟩
  · intro offers
    obtain ⟨file, collected, same⟩ := has.2 offers
    have member := mem_expand_of_collected collected
    rwa [← (offers_of_components named found areSteps member (Path.compare_eq_iff.1 same)).2]

/-- What it means that the files for which some paths stand are collected as a set. -/
structure CollectsSet (project : Project) (paths others : List Path) : Prop where
  /-- The files of two lists of paths are the merge of those of each list, in the order of their
  steps and each once. -/
  merge : ∃ first second both, project.gather paths = .ok first ∧
    project.gather others = .ok second ∧ project.gather (paths ++ others) = .ok both ∧
    both.items.Pairwise (fun file later => file.compare later = .lt) ∧
    (both.items.map Path.components).Nodup ∧ Ascending.IsMerge first second both
  /-- The order of the paths and their repetitions do not matter for the steps of the files. -/
  repeats : ∃ files, project.gather paths = .ok files ∧
    ∀ again, (∀ path, path ∈ again ↔ path ∈ paths) → ∃ files', project.gather again = .ok files' ∧
      files'.items.map Path.components = files.items.map Path.components
  /-- The collected files stand for themselves. -/
  stays : ∃ files, project.gather paths = .ok files ∧ project.gather files.items = .ok files
  /-- A path that leads to no directory contributes itself. -/
  keeps : ∀ path ∈ paths, project.isDirectory path = false →
    ∃ files, project.gather [path] = .ok files ∧ files.items = [path]
  /-- A directory contributes the files that it offers, and no others. -/
  contributes : ∀ path ∈ paths, ∀ entries access,
    project.find path = .ok (.directory entries access) →
    ∃ files, project.gather [path] = .ok files ∧
      (∀ file ∈ files.items, ∃ names, (FileTree.directory entries access).Offers names ∧
        file = names.foldl Path.join path) ∧
      ∀ names, (∀ name ∈ names, Path.IsStep name) →
        (files.Has (names.foldl Path.join path) ↔
          (FileTree.directory entries access).Offers names) ∧
        (names.foldl Path.join path ∈ files.items ↔
          (FileTree.directory entries access).Offers names)

/-- **Files are collected as a set.** -/
theorem collectsSet_gather (project : Project) (paths others : List Path)
    (named : project.tree.IsNamed) (readable : project.IsReadable (paths ++ others)) :
    project.CollectsSet paths others := by
  have readable₁ : project.IsReadable paths :=
    readable.of_subset fun _ => List.mem_append_left others
  have readable₂ : project.IsReadable others :=
    readable.of_subset fun _ => List.mem_append_right paths
  have readable' : ∀ path ∈ paths, project.IsReadable [path] := fun path isPath =>
    readable₁.of_subset fun other same => List.mem_singleton.1 same ▸ isPath
  constructor
  case merge =>
    refine ⟨_, _, _, readable₁.gather_eq, readable₂.gather_eq, readable.gather_eq,
      (project.collect (paths ++ others)).ascending, (stepsOf _).nodup, ?_⟩
    rw [collect, collect, collect, List.flatMap_append]
    exact Ascending.isMerge_ofList _ _
  case repeats =>
    refine ⟨_, readable₁.gather_eq, fun again same => ?_⟩
    have again : project.IsReadable again := readable₁.of_subset fun path => (same path).1
    exact ⟨_, again.gather_eq, congrArg Ascending.items (stepsOf_collect_congr same)⟩
  case stays =>
    have again : project.IsReadable (project.collect paths).items :=
      isReadable_of_noDirectories (noDirectory_of_mem_collect named)
    refine ⟨_, readable₁.gather_eq, ?_⟩
    rw [again.gather_eq, collect_items named]
  case keeps =>
    intro path isPath noDirectory
    refine ⟨_, (readable' path isPath).gather_eq, ?_⟩
    rw [collect, List.flatMap_singleton, expand_of_noDirectory noDirectory]
    rfl
  case contributes =>
    intro path isPath entries access found
    refine ⟨_, (readable' path isPath).gather_eq, fun file collected => ?_,
      fun names areSteps => contributes_iff named found areSteps⟩
    obtain ⟨names, offers, rfl⟩ :=
      (mem_expand_iff named found).1 (mem_expand_of_collected collected)
    exact ⟨names, offers, rfl⟩

/-- A directory with files of all kinds. -/
def styles : Project where
  tree := .directory [
    ("styles", .directory [
      ("a.scss", .file (some [])),
      ("nested", .directory [("b.CSS", .file (some []))]),
      ("readme.md", .file (some []))]),
    ("node_modules", .directory [("c.scss", .file (some []))]),
    (".cache", .directory [("d.scss", .file (some []))]),
    ("page.vue", .file none)]
  workingDirectory := []

example : (styles.collect [⟨"."⟩, ⟨"styles/readme.md"⟩]).items =
    [⟨"./page.vue"⟩, ⟨"./styles/a.scss"⟩, ⟨"./styles/nested/b.CSS"⟩, ⟨"styles/readme.md"⟩] := by
  decide +kernel

theorem isNamed_styles : styles.tree.IsNamed := by
  refine .directory (by decide +kernel) (by decide +kernel) ?_
  simp only [List.forall_mem_cons, List.not_mem_nil, false_imp_iff, implies_true, and_true]
  refine ⟨.directory (by decide +kernel) (by decide +kernel) ?_,
    .directory (by decide +kernel) (by decide +kernel) ?_,
    .directory (by decide +kernel) (by decide +kernel) ?_, .file⟩
  all_goals
    simp only [List.forall_mem_cons, List.not_mem_nil, false_imp_iff, implies_true, and_true]
  · refine ⟨.file, .directory (by decide +kernel) (by decide +kernel) ?_, .file⟩
    exact List.forall_mem_singleton.2 .file
  · exact .file
  · exact .file

theorem collectsSet_gather_styles :
    styles.tree.IsNamed ∧
      styles.IsReadable ([⟨"."⟩, ⟨"styles/readme.md"⟩] ++ [⟨"styles"⟩, ⟨"missing"⟩]) ∧
      styles.CollectsSet [⟨"."⟩, ⟨"styles/readme.md"⟩] [⟨"styles"⟩, ⟨"missing"⟩] := by
  have readable : styles.IsReadable
      ([⟨"."⟩, ⟨"styles/readme.md"⟩] ++ [⟨"styles"⟩, ⟨"missing"⟩]) := by decide +kernel
  exact ⟨isNamed_styles, readable, collectsSet_gather styles _ _ isNamed_styles readable⟩

end Project

end ScssLint
