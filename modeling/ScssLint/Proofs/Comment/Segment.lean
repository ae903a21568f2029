import ScssLint.Comment.Basic

/-! # Segments

A stylesheet, taken as a sequence of bytes, is cut from the left into segments: comments, strings,
escapes, unquoted `url(` arguments and single bytes of ordinary text. Each segment starts where the
one before it ends, and its extent is told by what it starts with (`Comment.segmentAt`), so the
segments spell the stylesheet (`Comment.flatMap_bytes_segments`).
-/

namespace ScssLint

namespace Comment

/-- The kind and the place of a comment. -/
def place (comment : Comment) : CommentKind × Span :=
  (comment.kind, comment.span)

/-- What a segment is. A comment is closed unless the end of the text cuts it off. -/
inductive SegmentKind where
  | lineComment (closed : Bool)
  | blockComment (closed : Bool)
  | string
  | escape
  /-- An unquoted `url(` argument with its parentheses. -/
  | urlArgument
  /-- A byte of ordinary text. -/
  | plain
deriving DecidableEq, Repr

/-- A segment at its place. -/
structure Segment where
  kind : SegmentKind
  start : Nat
  bytes : List UInt8
deriving DecidableEq, Repr

/-- How many bytes there are up to the first `sign` and with it. -/
def through (sign : UInt8) : List UInt8 → Nat
  | [] => 0
  | b :: rest => if b = sign then 1 else 1 + through sign rest

/-- How many bytes there are up to the first `*/` and with it, if there is one. -/
def throughCloser? : List UInt8 → Option Nat
  | [] => none
  | b :: rest =>
      if b = '*'.toUInt8 ∧ rest.head? = some '/'.toUInt8 then some 2
      else (throughCloser? rest).map (1 + ·)

/-- How many bytes there are up to the first `quote` that no backslash escapes, and with it.
`escaped` says whether a backslash escapes the first byte. -/
def throughString (quote : UInt8) (escaped : Bool) : List UInt8 → Nat
  | [] => 0
  | b :: rest =>
      if b = quote ∧ escaped = false then 1
      else 1 + throughString quote (!escaped && b == '\\'.toUInt8) rest

/-- Whether a byte can belong to a function name: an ASCII letter or digit, a hyphen or an
underscore. -/
def isNameByte (b : UInt8) : Bool :=
  (Char.ofUInt8 b).isAlphanum || b == '-'.toUInt8 || b == '_'.toUInt8

/-- Whether the longest name in front of a place is `url` in any case; the bytes in front of the
place are given last one first. -/
def namesUrl (before : List UInt8) : Bool :=
  ((before.takeWhile isNameByte).map fun b => (Char.ofUInt8 b).toLower) == ['l', 'r', 'u']

/-- Whether a byte is white space. -/
def isSpaceByte (b : UInt8) : Bool :=
  b == ' '.toUInt8 || b == '\t'.toUInt8 || b == '\n'.toUInt8 || b == '\x0C'.toUInt8 ||
    b == '\r'.toUInt8

/-- Whether the first byte behind white space is a quote. -/
def quoteAhead (bytes : List UInt8) : Bool :=
  (bytes.find? fun b => !isSpaceByte b).any fun b => b == '"'.toUInt8 || b == '\''.toUInt8

/-- The segment that starts with `b`, and how many bytes of `rest` belong to it. -/
def segmentAt (before : List UInt8) (b : UInt8) (rest : List UInt8) : SegmentKind × Nat :=
  if b = '/'.toUInt8 ∧ rest.head? = some '/'.toUInt8 then
    let line := rest.takeWhile (· ≠ '\n'.toUInt8)
    (.lineComment (line.length < rest.length), line.length)
  else if b = '/'.toUInt8 ∧ rest.head? = some '*'.toUInt8 then
    match throughCloser? (rest.drop 1) with
    | some length => (.blockComment true, 1 + length)
    | none => (.blockComment false, rest.length)
  else if b = '"'.toUInt8 ∨ b = '\''.toUInt8 then
    (.string, throughString b false rest)
  else if b = '\\'.toUInt8 then
    (.escape, if rest.head? = none ∨ rest.head? = some '\n'.toUInt8 then 0 else 1)
  else if b = '('.toUInt8 ∧ namesUrl before ∧ ¬ quoteAhead rest then
    (.urlArgument, through ')'.toUInt8 rest)
  else
    (.plain, 0)

/-- The segments of `bytes`, behind the bytes `before`, which are given last one first. -/
def segmentsFrom (before : List UInt8) (bytes : List UInt8) : List Segment :=
  match bytes with
  | [] => []
  | b :: rest =>
      let (kind, more) := segmentAt before b rest
      ⟨kind, before.length, b :: rest.take more⟩ ::
        segmentsFrom ((rest.take more).reverse ++ b :: before) (rest.drop more)
termination_by bytes.length

/-- The segments of a stylesheet. -/
def segments (bytes : List UInt8) : List Segment :=
  segmentsFrom [] bytes

theorem flatMap_bytes_segmentsFrom (before bytes : List UInt8) :
    (segmentsFrom before bytes).flatMap (·.bytes) = bytes := by
  fun_induction segmentsFrom before bytes with
  | case1 => rfl
  | case2 before b rest kind more _ ih =>
      rw [List.flatMap_cons, ih, List.cons_append, List.take_append_drop]

/-- Nothing is lost and nothing is added: the segments spell the stylesheet. -/
theorem flatMap_bytes_segments (bytes : List UInt8) :
    (segments bytes).flatMap (·.bytes) = bytes :=
  flatMap_bytes_segmentsFrom [] bytes

namespace Segment

/-- The number of bytes of a segment that are handed out as a comment: all but a carriage return in
front of the line break that closes a line comment. -/
def commentLength (segment : Segment) : Nat :=
  if segment.kind = .lineComment true ∧ segment.bytes.getLast? = some '\r'.toUInt8 then
    segment.bytes.length - 1
  else
    segment.bytes.length

/-- The kind and the place of the comment that a segment is: a line comment always, a closed block
comment on request. -/
def comment? (blocks : Bool) (segment : Segment) : Option (CommentKind × Span) :=
  let span : Span := ⟨segment.start, segment.start + segment.commentLength⟩
  match segment.kind with
  | .lineComment _ => some (.doubleSlash, span)
  | .blockComment true => if blocks then some (.block, span) else none
  | _ => none

end Segment

end Comment

end ScssLint
