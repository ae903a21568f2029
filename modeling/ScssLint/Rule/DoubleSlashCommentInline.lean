import ScssLint.Diagnostic

/-!
# The rule `scss/double-slash-comment-inline`

Line comments either always share their line with code or never do.
-/

namespace ScssLint

/-- Where line comments are to stand. -/
inductive Expectation where
  /-- On a line with code. -/
  | always
  /-- On a line of their own. -/
  | never
deriving DecidableEq, Repr

namespace DoubleSlashCommentInline

def name : String := "scss/double-slash-comment-inline"

def description : String := "Require or disallow //-comments to be inline comments"

/-- How a comment begins that is a command to a linter. -/
def commandStart : Text :=
  ['s', 't', 'y', 'l', 'e', 'l', 'i', 'n', 't', '-']

/-- The problem with a comment, if there is one. -/
def problem? (expectation : Expectation) (isInline : Bool) : Option String :=
  match expectation, isInline with
  | .always, false => some "Expected //-comment to be inline comment"
  | .never, true => some "Unexpected inline //-comment"
  | _, _ => none

/-- The line comments in the wrong place.  With `ignoreCommands` commands to a linter may stand
anywhere. -/
def check (expectation : Expectation) (ignoreCommands : Bool) (site : Site) : List Diagnostic :=
  (Comment.lineComments site.root.text).filterMap fun comment =>
    if ignoreCommands && Text.startsWith commandStart comment.text then
      none
    else
      (problem? expectation comment.isInline).map fun message =>
        site.error name message comment.span.start

end DoubleSlashCommentInline

end ScssLint
