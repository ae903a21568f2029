import ScssLint.Source.Root

/-!
# Paths

A path keeps the spelling in which it was written.  Its components are what that spelling means:
repeated slashes, inner `.` and a slash at the end add nothing, so paths are compared by component.
-/

namespace ScssLint

/-- A file path as it was written. -/
structure Path where
  spelling : String
deriving DecidableEq, Repr

namespace Path

/-- One step of a path. -/
inductive Component where
  /-- The slash that starts an absolute path. -/
  | root
  /-- A leading `.`. -/
  | current
  /-- The parent directory, `..`. -/
  | parent
  /-- An entry of a directory. -/
  | name (text : String)
deriving DecidableEq, Repr

namespace Component

/-- The root comes first, then `.`, then `..`, then the names. -/
def rank : Component → Nat
  | root => 0
  | current => 1
  | parent => 2
  | name _ => 3

/-- How the step is written. -/
def spelling : Component → String
  | root => "/"
  | current => "."
  | parent => ".."
  | name text => text

/-- The order of steps: names are ordered by their characters. -/
def compare : Component → Component → Ordering :=
  compareLex (compareOn rank) (compareOn spelling)

instance : Std.TransCmp Component.compare :=
  inferInstanceAs (Std.TransCmp (compareLex _ _))

end Component

/-- Cut a spelling at its slashes. -/
def segments : Text → List Text
  | [] => [[]]
  | c :: rest =>
      if c = '/' then
        [] :: segments rest
      else
        match segments rest with
        | [] => [[c]]
        | first :: others => (c :: first) :: others

/-- Whether a path starts at the top of the file tree. -/
def isAbsolute (path : Path) : Bool :=
  path.spelling.toList.head? == some '/'

/-- The step that a segment stands for, if it stands for one. -/
def componentOf? (segment : Text) : Option Component :=
  if segment = [] ∨ segment = ['.'] then
    none
  else if segment = ['.', '.'] then
    some .parent
  else
    some (.name (String.ofList segment))

/-- The steps of a path. -/
def components (path : Path) : List Component :=
  let segments := segments path.spelling.toList
  let leading :=
    match segments with
    | [] :: _ :: _ => [Component.root]
    | ['.'] :: _ => [Component.current]
    | _ => []
  leading ++ segments.filterMap componentOf?

/-- The order of paths by their steps, in which different spellings of the same steps are equal. -/
def compare (left right : Path) : Ordering :=
  List.compareLex Component.compare left.components right.components

/-- The order of lists of steps is an order. -/
theorem transCmp_steps : Std.TransCmp (List.compareLex Component.compare) :=
  inferInstance

instance : Std.TransCmp Path.compare where
  eq_swap := transCmp_steps.eq_swap
  isLE_trans := transCmp_steps.isLE_trans

/-- The name of the file or directory that the path leads to, if the path says it. -/
def fileName? (path : Path) : Option String :=
  match path.components.getLast? with
  | some (.name name) => some name
  | _ => none

/-- The part of a file name behind its last dot, if something stands in front of that dot. -/
def extensionOf? (name : String) : Option String :=
  let reversed := name.toList.reverse
  match reversed.dropWhile (· ≠ '.') with
  | [] | [_] => none
  | _ :: _ => some (String.ofList (reversed.takeWhile (· ≠ '.')).reverse)

/-- The extension of the file that the path leads to. -/
def extension? (path : Path) : Option String :=
  path.fileName?.bind extensionOf?

/-- The path of an entry of the directory that a path leads to. -/
def join (path : Path) (name : String) : Path :=
  match path.spelling.toList.getLast? with
  | none => ⟨name⟩
  | some '/' => ⟨path.spelling ++ name⟩
  | some _ => ⟨path.spelling ++ "/" ++ name⟩

/-- Whether a segment behind the first one adds no step. -/
def isIdle (segment : Text) : Bool :=
  segment == [] || segment == ['.']

/-- The spelling that segments give when slashes are put between them. -/
def spell (segments : List Text) : Path :=
  ⟨String.ofList (['/'].intercalate segments)⟩

/-- The paths that are left when the last steps of a path are taken away one by one.  The path is
given by its first segment and the others in reverse; `top` is what comes at the very end. -/
def parents (first : Text) (top : List Path) : List Text → List Path
  | [] => top
  | segment :: rest =>
      if isIdle segment then
        parents first top rest
      else
        let kept := (rest.dropWhile isIdle).reverse
        let parent := if first.isEmpty && kept.isEmpty then ⟨"/"⟩ else spell (first :: kept)
        parent :: parents first top rest

/-- A path and those that are left when its last steps are taken away one by one. -/
def ancestors (path : Path) : List Path :=
  match segments path.spelling.toList with
  | [] => [path]
  | first :: rest => path :: parents first (if first.isEmpty then [] else [⟨""⟩]) rest.reverse

/-- The dialect of the file that the path leads to. -/
def dialect (path : Path) : Dialect :=
  Dialect.ofExtension path.extension?

end Path

end ScssLint
