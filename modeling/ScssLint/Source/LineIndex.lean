import ScssLint.Text.Basic

/-!
# Lines and columns

A byte offset is shown to people as a line and a column, both counted from one.  Lines end at line
feeds, columns count characters.  Both are numbers of 32 bits.
-/

namespace ScssLint

/-- Where the lines of a text start. -/
structure LineIndex where
  /-- The offset of each line's first byte, in order. -/
  lineStarts : List Nat
deriving Repr

namespace LineIndex

/-- The offsets behind the line feeds of a text that starts at `offset`. -/
def startsAfter (offset : Nat) : Text → List Nat
  | [] => []
  | c :: rest =>
      let next := offset + c.utf8Size
      if c = '\n' then next :: startsAfter next rest else startsAfter next rest

/-- Index the lines of a text. -/
def ofText (text : Text) : LineIndex :=
  ⟨0 :: startsAfter 0 text⟩

/-- The number of lines; the last one may be empty. -/
def lineCount (index : LineIndex) : Nat :=
  index.lineStarts.length

/-- The line starts at or before an offset. -/
def startsUpTo (index : LineIndex) (offset : Nat) : List Nat :=
  index.lineStarts.filter (· ≤ offset)

/-- What a count is when it starts from one, in 32 bits.  Behind the greatest number of 32 bits
comes zero, as in a build without overflow checks; a build with them would stop there. -/
def fromOne (count : Nat) : Nat :=
  (UInt32.ofNat count + 1).toNat

/-- The line and the column of a byte offset of the indexed text.

An offset past the end counts as the end.  An offset inside a character counts bytes instead of
characters from the start of its line. -/
def lineCol (index : LineIndex) (text : Text) (offset : Nat) : Nat × Nat :=
  let offset := min offset (Text.bytes text)
  let passed := index.startsUpTo offset
  let line := passed.length - 1
  let lineStart := passed.getLastD 0
  let distance := offset - lineStart
  let column := (Text.charsWithin? distance (Text.dropBytes lineStart text)).getD distance
  (fromOne line, fromOne column)

end LineIndex

end ScssLint
