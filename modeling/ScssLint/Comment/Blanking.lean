import ScssLint.Comment.Scanner

/-!
# Blanking line comments

Style languages without line comments can read a stylesheet once its line comments are overwritten
with spaces.  The blanked text has the same length, so offsets into it are offsets into the
text itself.
-/

namespace ScssLint

/-- Overwrite the bytes of ascending spans with spaces, in a text that starts at `offset`. -/
def blankSpans (offset : Nat) (text : Text) : List Span → Text
  | [] => text
  | span :: spans =>
      Text.takeBytes (span.start - offset) text ++ List.replicate span.length ' ' ++
        blankSpans span.stop (Text.dropBytes (span.stop - offset) text) spans

/-- The text with spaces in place of its line comments. -/
def blankLineComments (text : Text) : Text :=
  blankSpans 0 text ((Comment.lineComments text).map (·.span))

end ScssLint
