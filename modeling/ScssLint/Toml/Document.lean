import ScssLint.Toml.Definition
import ScssLint.Toml.Reader

/-!
# TOML documents

`Toml.parse?` reads the definitions of a document and builds the table that they describe.
-/

namespace ScssLint

namespace Toml

open Reader

/-- A key in front of an equals sign or inside a header. -/
def splitKey : Reader Key := do
  let parts ← key
  match parts.getLast? with
  | some last => return ⟨parts.dropLast, last⟩
  | none => failure

/-- A key with its value. -/
def assignment (value : Reader Value) : Reader Assignment := do
  let key ← splitKey
  char '='
  blank
  return ⟨key, ← value⟩

/-- The items of an array between square brackets; a comma may stand behind the last one. -/
def array (value : Reader Value) : Reader Value := do
  char '['
  let items ← optional do
    let items ← separated (do filler; let item ← value; filler; return item) (char ',')
    discard (optional (char ','))
    return items
  filler
  char ']'
  return .array (items.getD [])

/-- A table on one line. -/
def inlineTable (value : Reader Value) : Reader Value := do
  char '\x7B'
  let assignments ← optional
    (separated (do let found ← assignment value; blank; return found) (char ','))
  blank
  char '\x7D'
  match assignAll [] (assignments.getD []) with
  | some items => return .table (entriesToValues items)
  | none => failure

/-- A value inside at most `depth` further arrays and tables. -/
def valueWithin (depth : Nat) : Reader Value :=
  (.string <$> string) <|> (.datetime <$> datetime) <|> (.float <$> float) <|>
    (.integer <$> integer) <|>
    (do word "true"; return .boolean true) <|> (do word "false"; return .boolean false) <|>
    match depth with
    | 0 => failure
    | depth + 1 => array (valueWithin depth) <|> inlineTable (valueWithin depth)

/-- A header between the given brackets. -/
def headerBetween (opening closing : String) (isArray : Bool) : Reader Header := do
  word opening
  let key ← splitKey
  word closing
  return ⟨isArray, key⟩

/-- A definition with the end of its line. -/
def definition : Reader Definition := do
  let found ←
    (.header <$> headerBetween "[[" "]]" true) <|> (.header <$> headerBetween "[" "]" false) <|>
      (.assignment <$> assignment (valueWithin depthLimit))
  lineEnd
  return found

/-- A line without content, which ends in a line feed or holds a comment. -/
def emptyLine : Reader Unit :=
  newline <|> (do comment; newline <|> atEnd)

/-- All definitions of a document. -/
def document : Reader (List Definition) := do
  discard (optional (char '\uFEFF'))
  blank
  let lines ← many do
    let content ← (some <$> definition) <|> (do emptyLine; return none)
    blank
    return content
  atEnd
  return lines.filterMap id

/-- The root table of a document, if the text is one. -/
def parse? (text : Text) : Option Entries := do
  let (definitions, _) ← document text
  rootOf? definitions

end Toml

end ScssLint
