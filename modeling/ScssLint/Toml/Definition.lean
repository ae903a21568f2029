import ScssLint.Toml.Value

/-!
# Definitions in a TOML document

A document is a sequence of definitions: values for keys, and headers, which start a table or a
further table of an array.  `rootOf?` builds the table that the definitions describe, unless they
define something twice.
-/

namespace ScssLint

namespace Toml

/-! ### Tables in the making -/

/-- An entry of a table that is being built. -/
inductive Item where
  | value (value : Value)
  /-- A table.  It is implicit if only longer keys have named it, and dotted if those keys stood in
  front of an equals sign. -/
  | table (isImplicit isDotted : Bool) (entries : List (String × Item))
  /-- The tables of an array, the last one first. -/
  | tables (latest : List (String × Item)) (earlier : List (List (String × Item)))

/-- The entries of a table that is being built, in order. -/
abbrev Items := List (String × Item)

/-- Replace the entry of a name, or add one at the end; `change` gets the old entry. -/
def changeEntry (name : String) (change : Option Item → Option Item) : Items → Option Items
  | [] => (change none).map fun item => [(name, item)]
  | (other, item) :: rest =>
      if other == name then
        (change (some item)).map fun changed => (other, changed) :: rest
      else
        (changeEntry name change rest).map ((other, item) :: ·)

mutual

/-- The value of an entry once its table is complete. -/
def Item.toValue : Item → Value
  | .value value => value
  | .table _ _ entries => .table (entriesToValues entries)
  | .tables latest earlier =>
      .array (tablesToValues earlier [.table (entriesToValues latest)])

/-- The values of the entries of a complete table. -/
def entriesToValues : List (String × Item) → List (String × Value)
  | [] => []
  | (name, item) :: rest => (name, item.toValue) :: entriesToValues rest

/-- The values of complete tables, the last one first, in front of other values. -/
def tablesToValues : List (List (String × Item)) → List Value → List Value
  | [], behind => behind
  | entries :: rest, behind => tablesToValues rest (.table (entriesToValues entries) :: behind)

end

/-! ### Keys with values -/

/-- A key, cut into its last part and the parts in front of it. -/
structure Key where
  parts : List String
  last : String
deriving DecidableEq, Repr

/-- A value for a key. -/
structure Assignment where
  key : Key
  value : Value

/-- Give a value to the last part of a key in the table that the parts in front name.

These parts name tables that are open to it: those that other dotted keys made, and the latest
tables of arrays on the way to them. -/
def assign (last : String) (value : Value) : List String → Items → Option Items
  | [] => changeEntry last fun
      | none => some (.value value)
      | some _ => none
  | part :: parts => changeEntry part fun
      | none => (assign last value parts []).map (.table true true)
      | some (.table true isDotted entries) =>
          if parts.isEmpty && !isDotted then
            none
          else
            (assign last value parts entries).map (.table true isDotted)
      | some (.tables latest earlier) =>
          if parts.isEmpty then
            none
          else
            (assign last value parts latest).map (.tables · earlier)
      | some _ => none

/-- The entries that some values give to a table with the entries `start`. -/
def assignAll (start : Items) (assignments : List Assignment) : Option Items :=
  assignments.foldlM (fun items assignment =>
    assign assignment.key.last assignment.value assignment.key.parts items) start

/-! ### Headers -/

/-- The start of a table. -/
structure Header where
  /-- Whether the table is a further one of an array. -/
  isArray : Bool
  key : Key
deriving DecidableEq, Repr

/-- Change the table that some parts of a key name; a table that is missing is made. -/
def changeTable (change : Items → Option Items) : List String → Items → Option Items
  | [] => change
  | part :: parts => changeEntry part fun
      | none => (changeTable change parts []).map (.table true false)
      | some (.table isImplicit isDotted entries) =>
          (changeTable change parts entries).map (.table isImplicit isDotted)
      | some (.tables latest earlier) =>
          (changeTable change parts latest).map (.tables · earlier)
      | some (.value _) => none

/-- Open a table that is named for the first time, or that only longer keys have named so far, which
then moves to the end. -/
def openTable (name : String) (assignments : List Assignment) (items : Items) : Option Items := do
  let start ←
    match items.lookup name with
    | none => some []
    | some (.table true false entries) => some entries
    | some _ => none
  let entries ← assignAll start assignments
  return items.filter (·.1 != name) ++ [(name, .table false false entries)]

/-- Add a table to an array of tables. -/
def addTable (name : String) (assignments : List Assignment) : Items → Option Items :=
  changeEntry name fun
    | none => do return .tables (← assignAll [] assignments) []
    | some (.tables latest earlier) => do
        return .tables (← assignAll [] assignments) (latest :: earlier)
    | some _ => none

/-- A header and the values behind it. -/
structure Section where
  header : Header
  assignments : List Assignment

/-- Add a section to the root table. -/
def addSection (root : Items) (part : Section) : Option Items :=
  let change := if part.header.isArray then addTable else openTable
  changeTable (change part.header.key.last part.assignments) part.header.key.parts root

/-! ### Documents -/

/-- A definition. -/
inductive Definition where
  | assignment (assignment : Assignment)
  | header (header : Header)

/-- The values in front of the first header, and the sections behind it. -/
def sections : List Definition → List Assignment × List Section
  | [] => ([], [])
  | .assignment assignment :: rest =>
      let (assignments, others) := sections rest
      (assignment :: assignments, others)
  | .header header :: rest =>
      let (assignments, others) := sections rest
      ([], ⟨header, assignments⟩ :: others)

/-- The root table that some definitions describe. -/
def rootOf? (definitions : List Definition) : Option Entries := do
  let (assignments, others) := sections definitions
  let root ← others.foldlM addSection (← assignAll [] assignments)
  return entriesToValues root

end Toml

end ScssLint
