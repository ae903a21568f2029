/-!
# JSON text

The part of JSON that reports need, written over several lines with two blanks for each level.
-/

namespace ScssLint

/-- A JSON value. -/
inductive Json where
  | string (text : String)
  | number (value : Nat)
  | array (items : List Json)
  | object (members : List (String × Json))

namespace Json

/-- A character inside a string. -/
def escape (c : Char) : List Char :=
  match c with
  | '"' => ['\\', '"']
  | '\\' => ['\\', '\\']
  | '\x08' => ['\\', 'b']
  | '\t' => ['\\', 't']
  | '\n' => ['\\', 'n']
  | '\x0C' => ['\\', 'f']
  | '\r' => ['\\', 'r']
  | _ =>
      if c.toNat < 0x20 then
        ['\\', 'u', '0', '0'] ++ (if c.toNat < 0x10 then ['0'] else []) ++
          Nat.toDigits 16 c.toNat
      else
        [c]

/-- A string between quotes. -/
def quote (text : String) : String :=
  String.ofList (['"'] ++ text.toList.flatMap escape ++ ['"'])

/-- The start of a line at a level. -/
def lineStart (level : Nat) : String :=
  String.ofList ('\n' :: List.replicate (2 * level) ' ')

/-- Texts between brackets, each on a line of its own. -/
def block (opening closing : String) (level : Nat) (lines : List String) : String :=
  if lines.isEmpty then
    opening ++ closing
  else
    opening ++ ",".intercalate (lines.map (lineStart (level + 1) ++ ·)) ++ lineStart level ++
      closing

mutual

/-- A value whose lines start at a level. -/
def text (level : Nat) : Json → String
  | string text => quote text
  | number value => toString value
  | array items => block "[" "]" level (itemLines (level + 1) items)
  | object members => block "\x7B" "\x7D" level (memberLines (level + 1) members)

/-- The items of an array. -/
def itemLines (level : Nat) : List Json → List String
  | [] => []
  | item :: rest => item.text level :: itemLines level rest

/-- The members of an object. -/
def memberLines (level : Nat) : List (String × Json) → List String
  | [] => []
  | (name, value) :: rest => (quote name ++ ": " ++ value.text level) :: memberLines level rest

end

end Json

end ScssLint
