import ScssLint.Proofs.Comment.Overwriting
import ScssLint.Proofs.Stylesheet.Nesting

/-! # Documents

A document is a stylesheet before it is written: declarations, at-rules and rules in their nesting,
with white space and comments in the gaps between them. `Document.text` writes it down,
`Document.nesting` gives the statements that it stands for. The gaps can be written in two ways,
with line comments as they are and with spaces in their place (`GapPart.text`, `GapPart.blanked`).
-/

namespace ScssLint

/-- Whether a text is a lower-case identifier. -/
def isIdentifier : Text → Bool
  | [] => false
  | c :: rest => c.isLower && rest.all fun d => d.isLower || d.isDigit || d == '-' || d == '_'

/-- A lower-case identifier. -/
structure Identifier where
  text : Text
  sound : isIdentifier text = true

/-- What may stand in a gap. A line comment takes the line break behind it along. -/
inductive GapPart where
  | space (c : Char) (sound : isSpace c = true)
  | block (body : Text) (sound : ¬ ['*', '/'] <:+: body)
  | line (body : Text) (sound : '\n' ∉ body)

namespace GapPart

def text : GapPart → Text
  | space c _ => [c]
  | block body _ => '/' :: '*' :: (body ++ ['*', '/'])
  | line body _ => '/' :: '/' :: (body ++ ['\n'])

/-- The text with spaces in place of a line comment. -/
def blanked : GapPart → Text
  | line body _ =>
      List.replicate (Text.bytes (Comment.marked (Comment.withoutReturn body))) ' ' ++
        Comment.lineEnd body
  | part => part.text

end GapPart

/-- White space and comments. -/
abbrev Gap := List GapPart

/-- An interpolation of a variable. -/
def slotText (name : Identifier) : Text :=
  ['#', '\x7B', '$'] ++ name.text ++ ['\x7D']

/-- An identifier, perhaps with an interpolation behind it. -/
structure Word where
  name : Identifier
  slot? : Option Identifier

def Word.text (word : Word) : Text :=
  word.name.text ++ word.slot?.elim [] slotText

/-- One or more words with a space in front of each but the first. -/
structure Words where
  first : Word
  others : List Word

def Words.text (words : Words) : Text :=
  words.first.text ++ words.others.flatMap fun word => ' ' :: word.text

/-- `name`, `$name` or `--name` -/
inductive Property where
  | plain (name : Identifier)
  | variable (name : Identifier)
  | custom (name : Identifier)

def Property.text : Property → Text
  | plain name => name.text
  | .variable name => '$' :: name.text
  | custom name => '-' :: '-' :: name.text

/-- `.name`, `&-name` or `.name:name` -/
inductive Compound where
  | class (name : Identifier)
  | suffix (name : Identifier)
  | pseudo (name state : Identifier)

def Compound.text : Compound → Text
  | .class name => '.' :: name.text
  | suffix name => '&' :: '-' :: name.text
  | pseudo name state => '.' :: (name.text ++ ':' :: state.text)

/-- `@name`, perhaps with parameters. -/
structure AtRule where
  name : Identifier
  params? : Option Words

namespace AtRule

def text (rule : AtRule) : Text :=
  '@' :: (rule.name.text ++ rule.params?.elim [] fun params => ' ' :: params.text)

def statement (rule : AtRule) (hasBlock : Bool) : Statement :=
  .atRule rule.name.text (rule.params?.elim [] (·.text)) hasBlock

end AtRule

/-- A statement without a block. -/
inductive Line where
  | declaration (property : Property) (value : Words)
  | at (atRule : AtRule)

namespace Line

def text : Line → Text
  | declaration property value => property.text ++ ':' :: ' ' :: value.text
  | .at atRule => atRule.text

def statement : Line → Statement
  | declaration property value => .declaration property.text value.text
  | .at atRule => atRule.statement false

end Line

/-- What stands in front of a block. -/
inductive Header where
  | rule (compound : Compound) (slot? : Option Identifier)
  | at (atRule : AtRule)

namespace Header

def text : Header → Text
  | rule compound slot? => compound.text ++ slot?.elim [] slotText
  | .at atRule => atRule.text

def statement : Header → Statement
  | rule compound slot? => .rule (compound.text ++ slot?.elim [] slotText)
  | .at atRule => atRule.statement true

end Header

/-- Statements in their nesting, with a gap in front of each and behind the last one. -/
inductive Document where
  | done (gap : Gap)
  /-- The last statement may go without a semicolon. -/
  | last (gap : Gap) (line : Line) (behind : Gap)
  | item (gap : Gap) (line : Line) (behind : Gap) (rest : Document)
  | block (gap : Gap) (header : Header) (behind : Gap) (inside rest : Document)

namespace Document

/-- The document with its gaps written as `spell` says. -/
def write (spell : GapPart → Text) : Document → Text
  | done gap => gap.flatMap spell
  | last gap line behind => gap.flatMap spell ++ (line.text ++ behind.flatMap spell)
  | item gap line behind rest =>
      gap.flatMap spell ++ (line.text ++ (behind.flatMap spell ++ ';' :: rest.write spell))
  | block gap header behind inside rest =>
      gap.flatMap spell ++ (header.text ++ (behind.flatMap spell ++
        '\x7B' :: (inside.write spell ++ '\x7D' :: rest.write spell)))

def text (document : Document) : Text :=
  document.write GapPart.text

/-- The statements of the document. -/
def nesting : Document → Nesting
  | done _ => .nil
  | last _ line _ => .node line.statement .nil .nil
  | item _ line _ rest => .node line.statement .nil rest.nesting
  | block _ header _ inside rest => .node header.statement inside.nesting rest.nesting

end Document

end ScssLint
