import ScssLint.Proofs.Project.Stages

/-! # Following joined paths

A path that is joined from a name goes one step further than the path in front
(`Project.follow_join`). So what is in a directory is found by joining names to the path of the
directory, unless the joined path is too long or a directory on the way may not be searched
(`Project.find_foldl_join`). Where a directory that is searched for files cannot be listed, that is
the reason, or the directory may not be read itself (`Project.fails_listing_iff`).
-/

namespace ScssLint

open Steps

/-- Whether a name can be that of an entry of a directory. -/
structure IsEntryName (name : String) : Prop where
  written : name.toList ≠ []
  noSlash : '/' ∉ name.toList
  noNull : '\x00' ∉ name.toList
  notCurrent : name.toList ≠ ['.']
  notParent : name.toList ≠ ['.', '.']
  fits : Text.bytes name.toList ≤ Project.nameLimit

/-- Whether the entries of all directories in a tree have names, and different ones. -/
inductive FileTree.IsNamed : FileTree → Prop
  | file {text? : Option Text} {access : Access} : IsNamed (.file text? access)
  | directory {entries : List (String × FileTree)} {access : Access} :
      (∀ entry ∈ entries, IsEntryName entry.1) → (entries.map Prod.fst).Nodup →
      (∀ entry ∈ entries, IsNamed entry.2) → IsNamed (.directory entries access)

/-- Whether a path can go on from a tree with some names, as far as directories may be searched. -/
def FileTree.admits (tree : FileTree) : List String → Bool
  | [] => true
  | name :: rest => tree.access.isSearchable && (tree.entries.lookup name).all (admits · rest)

namespace Path

variable {path : Path} {name : String}

theorem segments_ne_nil (text : Text) : segments text ≠ [] := by
  cases text with
  | nil => exact List.cons_ne_nil _ _
  | cons c text =>
      unfold segments
      split
      · exact List.cons_ne_nil _ _
      · split <;> exact List.cons_ne_nil _ _

theorem segments_append (front behind : Text) :
    segments (front ++ '/' :: behind) = segments front ++ segments behind := by
  induction front with
  | nil => rfl
  | cons c front ih =>
      rw [List.cons_append, segments, segments]
      split
      · rw [ih, List.cons_append]
      · rw [ih]
        cases cut : segments front with
        | nil => exact absurd cut (segments_ne_nil front)
        | cons first others => rfl

theorem segments_of_noSlash {text : Text} (noSlash : '/' ∉ text) : segments text = [text] := by
  induction text with
  | nil => rfl
  | cons c text ih =>
      obtain ⟨other, others⟩ := not_or.1 (List.mem_cons.not.1 noSlash)
      rw [segments, if_neg (Ne.symm other), ih others]

/-- A name is joined behind a slash. -/
theorem exists_join (written : path.spelling.toList ≠ []) (name : String) :
    ∃ front, (path.spelling.toList = front ∨ path.spelling.toList = front ++ ['/']) ∧
      (path.join name).spelling.toList = front ++ '/' :: name.toList := by
  unfold join
  split
  · rename_i last
    exact absurd (List.getLast?_eq_none_iff.1 last) written
  · rename_i last
    obtain ⟨front, split⟩ := List.getLast?_eq_some_iff.1 last
    refine ⟨front, .inr split, ?_⟩
    rw [String.toList_append, split, List.append_assoc]
    rfl
  · refine ⟨_, .inl rfl, ?_⟩
    rw [String.toList_append, String.toList_append, List.append_assoc]
    rfl

theorem isAbsolute_join (written : path.spelling.toList ≠ []) (name : String) :
    (path.join name).isAbsolute = path.isAbsolute := by
  obtain ⟨front, split, joined⟩ := exists_join written name
  unfold isAbsolute
  rw [joined]
  rcases split with split | split <;> rw [split] at written ⊢
  · obtain ⟨c, rest, rfl⟩ := List.exists_cons_of_ne_nil written
    rfl
  · cases front <;> rfl

theorem noNull_join (noNull : '\x00' ∉ path.spelling.toList) (noNull' : '\x00' ∉ name.toList) :
    '\x00' ∉ (path.join name).spelling.toList := by
  unfold join
  split
  · exact noNull'
  · rw [String.toList_append, List.mem_append, not_or]
    exact ⟨noNull, noNull'⟩
  · rw [String.toList_append, String.toList_append, List.mem_append, List.mem_append, not_or,
      not_or]
    exact ⟨⟨noNull, by decide⟩, noNull'⟩

theorem noNull_foldl_join {names : List String} (noNull : '\x00' ∉ path.spelling.toList)
    (areNames : ∀ name ∈ names, IsEntryName name) :
    '\x00' ∉ (names.foldl join path).spelling.toList := by
  induction names generalizing path with
  | nil => exact noNull
  | cons name names ih =>
      obtain ⟨isName, areNames⟩ := List.forall_mem_cons.1 areNames
      exact ih (noNull_join noNull isName.noNull) areNames

theorem written_join (written : path.spelling.toList ≠ []) (name : String) :
    (path.join name).spelling.toList ≠ [] := by
  obtain ⟨front, _, joined⟩ := exists_join written name
  rw [joined]
  exact List.append_ne_nil_of_right_ne_nil _ (List.cons_ne_nil _ _)

theorem written_foldl_join {names : List String} (written : path.spelling.toList ≠ []) :
    (names.foldl join path).spelling.toList ≠ [] := by
  induction names generalizing path with
  | nil => exact written
  | cons name names ih => exact ih (written_join written name)

end Path

namespace FileTree

variable {entries : List (String × FileTree)} {name : String} {tree below : FileTree}
  {names : List String}

theorem lookup_eq_some_iff (distinct : (entries.map Prod.fst).Nodup) :
    entries.lookup name = some tree ↔ (name, tree) ∈ entries := by
  rw [List.lookup_eq_some_iff]
  constructor
  · rintro ⟨front, behind, rfl, _⟩
    exact List.mem_append_right _ List.mem_cons_self
  · intro member
    obtain ⟨front, behind, rfl⟩ := List.append_of_mem member
    refine ⟨front, behind, rfl, fun other inFront => bne_iff_ne.2 fun same => ?_⟩
    rw [List.map_append, List.map_cons, List.nodup_append] at distinct
    exact distinct.2.2 other.1 (List.mem_map_of_mem inFront) name List.mem_cons_self same.symm

/-- A name leads from a directory to one of its entries. -/
theorem exists_entry (named : tree.IsNamed) (inside : tree.get? (name :: names) = some below) :
    ∃ entries access next, tree = .directory entries access ∧ IsEntryName name ∧ next.IsNamed ∧
      entries.lookup name = some next ∧ next.get? names = some below := by
  obtain ⟨next, isEntry, behind⟩ := Option.bind_eq_some_iff.1 inside
  cases named with
  | file => exact absurd isEntry (Option.some_ne_none _).symm
  | @directory entries access isName distinct later =>
      have member := (lookup_eq_some_iff distinct).1 isEntry
      exact ⟨entries, access, next, rfl, isName _ member, later _ member, isEntry, behind⟩

theorem isNamed_of_get? (named : tree.IsNamed) (inside : tree.get? names = some below) :
    below.IsNamed := by
  induction names generalizing tree with
  | nil =>
      obtain rfl := Option.some.inj inside
      exact named
  | cons name names ih =>
      obtain ⟨_, _, next, rfl, _, namedNext, _, inside⟩ := exists_entry named inside
      exact ih namedNext inside

theorem isEntryName_of_get? (named : tree.IsNamed) (inside : tree.get? names = some below) :
    ∀ name ∈ names, IsEntryName name := by
  induction names generalizing tree with
  | nil => exact List.forall_mem_nil _
  | cons name names ih =>
      obtain ⟨_, _, next, rfl, isName, namedNext, _, inside⟩ := exists_entry named inside
      exact List.forall_mem_cons.2 ⟨isName, ih namedNext inside⟩

theorem mem_searchedDirectoriesOf (searched : names ∈ searchedDirectoriesOf entries) :
    ∃ name tree rest, names = name :: rest ∧ (name, tree) ∈ entries ∧
      rest ∈ tree.searchedDirectories := by
  induction entries with
  | nil => exact absurd searched List.not_mem_nil
  | cons entry entries ih =>
      obtain ⟨name, tree⟩ := entry
      rw [searchedDirectoriesOf] at searched
      rcases List.mem_append.1 searched with here | later
      · split at here
        · exact absurd here List.not_mem_nil
        · obtain ⟨rest, inside, rfl⟩ := List.mem_map.1 here
          exact ⟨name, tree, rest, rfl, List.mem_cons_self, inside⟩
      · obtain ⟨name, tree, rest, split, member, inside⟩ := ih later
        exact ⟨name, tree, rest, split, List.mem_cons_of_mem _ member, inside⟩

/-- What is searched is a directory in the tree. -/
theorem exists_get?_of_searched (named : tree.IsNamed)
    (searched : names ∈ tree.searchedDirectories) :
    ∃ entries access, tree.get? names = some (.directory entries access) := by
  induction names generalizing tree with
  | nil =>
      cases tree with
      | file => exact absurd searched List.not_mem_nil
      | directory entries access => exact ⟨entries, access, rfl⟩
  | cons name names ih =>
      cases named with
      | file => exact absurd searched List.not_mem_nil
      | directory _ distinct later =>
          have inEntries := (List.mem_cons.1 searched).resolve_left (List.cons_ne_nil _ _)
          obtain ⟨name', tree', rest, split, member, inside⟩ := mem_searchedDirectoriesOf inEntries
          obtain ⟨rfl, rfl⟩ := List.cons.inj split
          obtain ⟨entries, access, found⟩ := ih (later _ member) inside
          exact ⟨entries, access, Option.bind_eq_some_iff.2
            ⟨tree', (lookup_eq_some_iff distinct).2 member, found⟩⟩

theorem get?_append (tree : FileTree) (place rest : List String) :
    tree.get? (place ++ rest) = (tree.get? place).bind (·.get? rest) := by
  induction place generalizing tree with
  | nil => rfl
  | cons name place ih =>
      rw [List.cons_append, get?, get?]
      cases tree.entries.lookup name with
      | none => rfl
      | some below => exact ih below

end FileTree

namespace Project

variable {project : Project} {path : Path} {place : List String} {tree : FileTree}
  {entries : List (String × FileTree)} {access : Access} {name : String} {problem : AccessProblem}

/-- The place from which a path is followed. -/
def startOf (project : Project) (path : Path) : List String :=
  if path.isAbsolute then [] else project.workingDirectory

/-- Where the segments of a path lead. -/
def follow (project : Project) (path : Path) : Except AccessProblem (List String) :=
  (Path.segments path.spelling.toList).foldlM (step project.tree) (project.startOf path)

/-- Whether the spelling of a path can be that of something. -/
structure IsSpelled (path : Path) : Prop where
  noNull : '\x00' ∉ path.spelling.toList
  written : path.spelling.toList ≠ []
  fits : Text.bytes path.spelling.toList ≤ pathLimit

theorem resolve_of_isSpelled (spelled : IsSpelled path) :
    project.resolve path = project.follow path := by
  rw [resolve, if_neg spelled.noNull, if_neg spelled.written, if_neg (Nat.not_lt.2 spelled.fits)]
  rfl

theorem resolve_eq_ok_iff :
    project.resolve path = .ok place ↔ IsSpelled path ∧ project.follow path = .ok place := by
  constructor
  · intro resolved
    unfold resolve at resolved
    dsimp only at resolved
    split at resolved
    · cases resolved
    · rename_i noNull
      split at resolved
      · cases resolved
      · rename_i written
        split at resolved
        · cases resolved
        · rename_i fits
          exact ⟨⟨noNull, written, Nat.not_lt.1 fits⟩, resolved⟩
  · rintro ⟨spelled, follows⟩
    rw [resolve_of_isSpelled spelled, follows]

theorem find_eq_ok_iff :
    project.find path = .ok tree ↔
      ∃ place, project.resolve path = .ok place ∧ project.tree.get? place = some tree := by
  simp only [find, bind_eq_ok_iff]
  refine exists_congr fun place => and_congr_right fun _ => ?_
  cases project.tree.get? place with
  | none => exact iff_of_false (fun same => by cases same) fun same => by cases same
  | some other =>
      exact ⟨fun same => congrArg some (Except.ok.inj same),
        fun same => congrArg Except.ok (Option.some.inj same)⟩

theorem find_of_follow (spelled : IsSpelled path) (follows : project.follow path = .error problem) :
    project.find path = .error problem := by
  rw [find, resolve_of_isSpelled spelled, follows]
  rfl

/-- What is found in a project whose entries are named has named entries. -/
theorem isNamed_of_find (named : project.tree.IsNamed) (found : project.find path = .ok tree) :
    tree.IsNamed := by
  obtain ⟨place, _, holds⟩ := find_eq_ok_iff.1 found
  exact FileTree.isNamed_of_get? named holds

theorem written_of_find (found : project.find path = .ok tree) : path.spelling.toList ≠ [] := by
  obtain ⟨place, resolved, _⟩ := find_eq_ok_iff.1 found
  exact (resolve_eq_ok_iff.1 resolved).1.written

/-- A slash at the end of a path makes no difference to what follows. -/
theorem step_nil_bind (tree : FileTree) (place : List String) (segment : Text) :
    step tree place [] >>= (step tree · segment) = step tree place segment := by
  cases holds : tree.get? place with
  | none =>
      have stuck (segment : Text) : step tree place segment = .error .missing := by
        rw [step, holds]
      rw [stuck [], stuck segment]
      rfl
  | some below =>
      cases below with
      | file _ _ =>
          have stuck (segment : Text) : step tree place segment = .error .notDirectory := by
            rw [step, holds]
          rw [stuck [], stuck segment]
          rfl
      | directory entries access =>
          have stays : step tree place [] = .ok place := by
            rw [step, holds]
            rfl
          rw [stays]
          rfl

/-- The name of an entry leads to it if the directory may be searched. -/
theorem step_name (isName : IsEntryName name)
    (holds : tree.get? place = some (.directory entries access)) {below : FileTree}
    (inside : entries.lookup name = some below) :
    step tree place name.toList =
      if access.isSearchable then .ok (place ++ [name]) else .error .permissionDenied := by
  have same : String.ofList name.toList = name := String.ofList_toList
  rw [step, holds]
  dsimp only
  rw [if_neg isName.written]
  cases access.isSearchable with
  | false => rfl
  | true =>
      rw [if_neg Bool.noConfusion, if_neg isName.notCurrent, if_neg isName.notParent,
        if_neg (Nat.not_lt.2 isName.fits), same, inside]
      rfl

/-- **A joined path goes one step further than the path in front.** -/
theorem follow_join (written : path.spelling.toList ≠ []) (noSlash : '/' ∉ name.toList) :
    project.follow (path.join name) =
      project.follow path >>= (step project.tree · name.toList) := by
  obtain ⟨front, split, joined⟩ := Path.exists_join written name
  rw [follow, follow, startOf, startOf, Path.isAbsolute_join written, joined,
    Path.segments_append, Path.segments_of_noSlash noSlash, List.foldlM_append]
  rcases split with split | split
  · rw [split]
    simp only [List.foldlM_cons, List.foldlM_nil, bind_pure]
  · rw [split, Path.segments_append, List.foldlM_append, bind_assoc]
    simp only [Path.segments, List.foldlM_cons, List.foldlM_nil, bind_pure, step_nil_bind]

/-- Joining names does not help where a path leads nowhere. -/
theorem follow_foldl_join_of_error {names : List String} (written : path.spelling.toList ≠ [])
    (areNames : ∀ name ∈ names, IsEntryName name) (stops : project.follow path = .error problem) :
    project.follow (names.foldl Path.join path) = .error problem := by
  induction names generalizing path with
  | nil => exact stops
  | cons name names ih =>
      obtain ⟨isName, areNames⟩ := List.forall_mem_cons.1 areNames
      refine ih (Path.written_join written name) areNames ?_
      rw [follow_join written isName.noSlash, stops]
      rfl

/-- **Names lead on from a directory** as far as directories may be searched. -/
theorem follow_foldl_join {names : List String} {below : FileTree} (named : tree.IsNamed)
    (written : path.spelling.toList ≠ []) (follows : project.follow path = .ok place)
    (holds : project.tree.get? place = some tree) (inside : tree.get? names = some below) :
    project.follow (names.foldl Path.join path) =
      if tree.admits names then .ok (place ++ names) else .error .permissionDenied := by
  induction names generalizing path place tree with
  | nil => rw [List.foldl_nil, follows, List.append_nil, FileTree.admits, if_pos rfl]
  | cons name names ih =>
      have areNames := FileTree.isEntryName_of_get? named inside
      obtain ⟨entries, access, next, rfl, isName, namedNext, isEntry, inside⟩ :=
        FileTree.exists_entry named inside
      have goesOn : project.follow (path.join name) = step project.tree place name.toList := by
        rw [follow_join written isName.noSlash, follows]
        rfl
      rw [step_name isName holds isEntry] at goesOn
      have admits : (FileTree.directory entries access).admits (name :: names) =
          (access.isSearchable && next.admits names) := by
        change (access.isSearchable && (entries.lookup name).all (FileTree.admits · names)) = _
        rw [isEntry]
        rfl
      rw [List.foldl_cons, admits]
      cases searchable : access.isSearchable with
      | false =>
          rw [searchable] at goesOn
          exact follow_foldl_join_of_error (Path.written_join written name)
            (List.forall_mem_cons.1 areNames).2 goesOn
      | true =>
          rw [searchable] at goesOn
          have holdsNext : project.tree.get? (place ++ [name]) = some next := by
            rw [FileTree.get?_append, holds]
            change (entries.lookup name).bind (·.get? []) = some next
            rw [isEntry]
            rfl
          rw [ih namedNext (Path.written_join written name) goesOn holdsNext inside,
            List.append_assoc]
          rfl

theorem find_of_long (noNull : '\x00' ∉ path.spelling.toList)
    (long : pathLimit < Text.bytes path.spelling.toList) :
    project.find path = .error .nameTooLong := by
  have written : path.spelling.toList ≠ [] := by
    intro empty
    rw [empty] at long
    exact absurd long (Nat.not_lt_zero _)
  rw [find, resolve, if_neg noNull, if_neg written, if_pos long]
  rfl

/-- **What is in a directory is found by joining names**, unless the joined path is too long or a
directory on the way may not be searched. -/
theorem find_foldl_join {names : List String} {below : FileTree} (named : tree.IsNamed)
    (found : project.find path = .ok tree) (inside : tree.get? names = some below) :
    project.find (names.foldl Path.join path) =
      if pathLimit < Text.bytes (names.foldl Path.join path).spelling.toList then
        .error .nameTooLong
      else if tree.admits names then
        .ok below
      else
        .error .permissionDenied := by
  obtain ⟨place, resolved, holds⟩ := find_eq_ok_iff.1 found
  obtain ⟨spelled, follows⟩ := resolve_eq_ok_iff.1 resolved
  have areNames := FileTree.isEntryName_of_get? named inside
  have noNull := Path.noNull_foldl_join spelled.noNull areNames
  split
  · rename_i long
    exact find_of_long noNull long
  · rename_i short
    have spelledJoin : IsSpelled (names.foldl Path.join path) :=
      ⟨noNull, Path.written_foldl_join spelled.written, Nat.not_lt.1 short⟩
    have goesOn := follow_foldl_join named spelled.written follows holds inside
    split
    · rename_i admitted
      rw [if_pos admitted] at goesOn
      refine find_eq_ok_iff.2 ⟨place ++ names, resolve_eq_ok_iff.2 ⟨spelledJoin, goesOn⟩, ?_⟩
      rw [FileTree.get?_append, holds]
      exact inside
    · rename_i denied
      rw [if_neg denied] at goesOn
      exact find_of_follow spelledJoin goesOn

/-- What names lead to is all that can be found where they are joined. -/
theorem eq_of_find_foldl_join {names : List String} {below found : FileTree}
    (named : tree.IsNamed) (top : project.find path = .ok tree)
    (inside : tree.get? names = some below)
    (finds : project.find (names.foldl Path.join path) = .ok found) : found = below := by
  rw [find_foldl_join named top inside] at finds
  split at finds
  · cases finds
  · split at finds
    · exact (Except.ok.inj finds).symm
    · cases finds

theorem list_of_find (found : project.find path = .ok (.directory entries access)) :
    project.list path = if access.isReadable then .ok entries else .error .permissionDenied := by
  rw [list, found]
  rfl

/-- **Why a directory that is searched for files cannot be listed**: its path is too long, a
directory on the way from the path above it may not be searched, or it may not be read itself. -/
theorem fails_listing_iff {paths : List Path} (named : project.tree.IsNamed) :
    ∀ listing ∈ project.listings paths, ∃ tree names entries access,
      project.find listing.1 = .ok tree ∧ tree.get? names = some (.directory entries access) ∧
      listing.2 = names.foldl Path.join listing.1 ∧
      (Fails (project.list listing.2) ↔
        pathLimit < Text.bytes listing.2.spelling.toList ∨ tree.admits names = false ∨
          access.isReadable = false) := by
  intro listing member
  obtain ⟨path, _, member⟩ := List.mem_flatMap.1 member
  obtain ⟨directory, searched, rfl⟩ := List.mem_map.1 member
  unfold Project.searched at searched
  split at searched
  · rename_i tree found
    have namedTree := isNamed_of_find named found
    obtain ⟨names, isSearched, rfl⟩ := List.mem_map.1 searched
    obtain ⟨entries, access, inside⟩ := FileTree.exists_get?_of_searched namedTree isSearched
    refine ⟨tree, names, entries, access, found, inside, rfl, ?_⟩
    have finds := find_foldl_join namedTree found inside
    dsimp only
    by_cases long : pathLimit < Text.bytes (names.foldl Path.join path).spelling.toList
    · rw [if_pos long] at finds
      refine iff_of_true ⟨.nameTooLong, ?_⟩ (.inl long)
      rw [list, finds]
      rfl
    · rw [if_neg long] at finds
      cases admitted : tree.admits names with
      | false =>
          rw [admitted] at finds
          refine iff_of_true ⟨.permissionDenied, ?_⟩ (.inr (.inl rfl))
          rw [list, finds]
          rfl
      | true =>
          rw [admitted] at finds
          rw [list_of_find finds]
          cases access.isReadable with
          | false => exact iff_of_true ⟨_, rfl⟩ (.inr (.inr rfl))
          | true => exact iff_of_false (not_fails_iff.2 ⟨_, rfl⟩) (by simp [long])
  · exact absurd searched List.not_mem_nil

end Project

end ScssLint
