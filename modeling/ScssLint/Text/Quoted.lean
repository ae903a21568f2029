import ScssLint.Text.Visible

/-!
# Quoted texts

A text inside a message stands between double quotes.  What would end it, and what would not show,
is written with a backslash.
-/

namespace ScssLint

namespace Quoted

/-- A character between the quotes. -/
def escape (c : Char) : List Char :=
  match c with
  | '"' => ['\\', '"']
  | '\\' => ['\\', '\\']
  | '\n' => ['\\', 'n']
  | '\r' => ['\\', 'r']
  | '\t' => ['\\', 't']
  | '\x00' => ['\\', '0']
  | _ =>
      if isVisible c then
        [c]
      else
        ['\\', 'u', '\x7B'] ++ Nat.toDigits 16 c.toNat ++ ['\x7D']

/-- A text between quotes. -/
def encode (text : String) : String :=
  String.ofList (['"'] ++ text.toList.flatMap escape ++ ['"'])

end Quoted

end ScssLint
