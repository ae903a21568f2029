import ScssLint.Source.Span
import ScssLint.Text.Basic

/-!
# Comments

What is known of a comment of a stylesheet: its kind, its place, its text, and whether code stands
on the same line before or after it.
-/

namespace ScssLint

/-- The two ways to write a comment. -/
inductive CommentKind where
  /-- Two slashes, up to the end of the line. -/
  | doubleSlash
  /-- Between `/*` and `*/`. -/
  | block
deriving DecidableEq, Repr

/-- A comment of a stylesheet. -/
structure Comment where
  kind : CommentKind
  /-- The whole comment with its markers; a line comment stops before the line break. -/
  span : Span
  /-- What stands between the markers, without the white space around it. -/
  text : Text
  /-- Code stands before the comment on its line. -/
  inlineBefore : Bool
  /-- Code stands behind the comment on its line; never so for a line comment. -/
  inlineAfter : Bool
deriving DecidableEq, Repr

namespace Comment

/-- The comment shares its line with code. -/
def isInline (comment : Comment) : Bool :=
  comment.inlineBefore || comment.inlineAfter

/-- The comment has its line, or its lines, for itself. -/
def isStandalone (comment : Comment) : Bool :=
  !comment.isInline

end Comment

end ScssLint
