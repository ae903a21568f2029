import ScssLint.Css.Forest
import ScssLint.Selector.Basic

/-!
# Reading selector lists

The grammar is loose.  It knows the additions of SCSS (`&`, `%name` and interpolations) and keeps
what it does not know as it is written, so it refuses only empty selectors and marks (a dot, a
percent sign, a colon) without the name that belongs to them; `SelectorFault` lists the reasons.

Comments never count, but the text of a node starts right behind the node in front of it, so it
includes the comments between the two.
-/

namespace ScssLint

/-- Why a text is no selector list. -/
inductive SelectorFault where
  | emptySelector
  | emptySelectorInList
  | trailingComma
  | missingClassName
  | missingPlaceholderName
  | missingPseudoClassName
  | missingPseudoElementName
deriving DecidableEq, Repr

namespace SelectorFault

/-- The fault in words. -/
def message : SelectorFault → String
  | emptySelector => "Empty selector"
  | emptySelectorInList => "Empty selector in list"
  | trailingComma => "Trailing comma in selector list"
  | missingClassName => "Expected class name after '.'"
  | missingPlaceholderName => "Expected placeholder name after '%'"
  | missingPseudoClassName => "Expected pseudo-class name after ':'"
  | missingPseudoElementName => "Expected pseudo-element name after '::'"

end SelectorFault

namespace SelectorList

open Css

/-- Whether a piece is a sign that starts no longer token. -/
def isDelim (sign : Char) (piece : Piece) : Bool :=
  piece.token == .delim sign

/-- Whether a piece is a block in curly brackets. -/
def isCurlyBlock (piece : Piece) : Bool :=
  piece.token == .opening .curly

/-- Whether a piece can carry on a name behind an interpolation. -/
def carriesOnName (piece : Piece) : Bool :=
  match piece.token with
  | .ident _ | .number | .dimension => true
  | _ => false

/-- How many pieces belong to a name that ends in front of them: interpolations, each perhaps with
more of the name behind it. -/
def tailLength : List Piece → Nat
  | hash :: block :: rest =>
      if isDelim '#' hash && isCurlyBlock block then
        match rest with
        | [] => 2
        | piece :: more =>
            if carriesOnName piece then 3 + tailLength more else 2 + tailLength (piece :: more)
      else
        0
  | _ => 0

/-- How many pieces the name at the start of `pieces` takes: an identifier or an interpolation, with
its tail. -/
def nameLength? (pieces : List Piece) : Option Nat :=
  match pieces with
  | [] => none
  | piece :: rest =>
      match piece.token with
      | .ident _ => some (1 + tailLength rest)
      | .delim '#' =>
          match rest with
          | block :: more => if isCurlyBlock block then some (2 + tailLength more) else none
          | [] => none
      | _ => none

/-- The text without the square brackets around it. -/
def withoutBrackets (text : Text) : Text :=
  match text with
  | '[' :: inside => if inside.getLast? = some ']' then inside.dropLast else inside
  | _ => text

/-- The component that starts with `piece`, which is no colon, and how many of the pieces behind it
belong to it. -/
def component (piece : Piece) (rest : List Piece) : Except SelectorFault (Component × Nat) :=
  let glued := fun count => piecesText (piece :: rest.take count)
  match piece.token with
  | .delim '>' => .ok (.combinator .child, 0)
  | .delim '+' => .ok (.combinator .adjacentSibling, 0)
  | .delim '~' => .ok (.combinator .generalSibling, 0)
  | .delim '&' => .ok (.nesting, 0)
  | .delim '*' => .ok (.universal, 0)
  | .delim '.' =>
      match nameLength? rest with
      | some count => .ok (.className (piecesText (rest.take count)), count)
      | none => .error .missingClassName
  | .delim '%' =>
      match nameLength? rest with
      | some count => .ok (.other (glued count), count)
      | none => .error .missingPlaceholderName
  | .delim '#' =>
      let block := if rest.head?.any isCurlyBlock then 1 else 0
      let count := block + tailLength (rest.drop block)
      .ok (.other (glued count), count)
  | .ident _ => .ok (.tag (glued (tailLength rest)), tailLength rest)
  | .idHash => .ok (.identifier ((glued (tailLength rest)).drop 1), tailLength rest)
  | .opening .square => .ok (.attr (Text.trim (withoutBrackets piece.text)), 0)
  | _ => .ok (.other piece.text, 0)

/-- The name of the pseudo-class and the piece of its argument, if the pieces behind a colon start
with a function that takes selectors. -/
def selectorFunction? (pieces : List Piece) : Option (Text × Piece) :=
  match pieces with
  | [] => none
  | piece :: _ =>
      match piece.token with
      | .function name => if takesSelectors name then some (name, piece) else none
      | _ => none

theorem selectorFunction?_eq_some {pieces : List Piece} {name : Text} {piece : Piece}
    (hfunction : selectorFunction? pieces = some (name, piece)) :
    ∃ rest, pieces = piece :: rest := by
  cases pieces with
  | nil => simp [selectorFunction?] at hfunction
  | cons first rest =>
      simp only [selectorFunction?] at hfunction
      split at hfunction <;> try split at hfunction
      all_goals simp_all

/-- The name of the pseudo-element that the pieces behind two colons start with. -/
def elementName? (pieces : List Piece) : Option Text :=
  match pieces with
  | [] => none
  | piece :: _ =>
      match piece.token with
      | .ident name | .function name => some name
      | _ => none

/-- The component behind a colon, when its argument is no selector list, and how many pieces behind
the colon belong to it. -/
def pseudo (rest : List Piece) : Except SelectorFault (Component × Nat) :=
  match rest with
  | [] => .error .missingPseudoClassName
  | piece :: more =>
      match piece.token with
      | .colon =>
          match elementName? more with
          | some name => .ok (.pseudoElement name, 2)
          | none => .error .missingPseudoElementName
      | .ident name =>
          if isSingleColonElement name then
            .ok (.pseudoElement name, 1)
          else
            .ok (.pseudoClass name .absent, 1)
      | .function name => .ok (.pseudoClass name (.raw (Text.trim piece.body.text)), 1)
      | _ => .error .missingPseudoClassName

/-- The pieces in front of the first comma, and those behind it. -/
def splitAtComma : List Piece → List Piece × Option (List Piece)
  | [] => ([], none)
  | piece :: rest =>
      if piece.token = .comma then
        ([], some rest)
      else
        (piece :: (splitAtComma rest).1, (splitAtComma rest).2)

theorem weight_before_le {pieces before : List Piece} {behind? : Option (List Piece)}
    (hsplit : splitAtComma pieces = (before, behind?)) :
    weight before ≤ weight pieces := by
  induction pieces generalizing before with
  | nil => simp_all [splitAtComma]
  | cons piece rest ih =>
      unfold splitAtComma at hsplit
      split at hsplit
      · simp_all
      · simp only [Prod.mk.injEq] at hsplit
        have hrest : weight (splitAtComma rest).1 ≤ weight rest := ih (Prod.ext rfl hsplit.2)
        simp only [← hsplit.1, weight_cons]
        omega

theorem weight_behind_lt {pieces before behind : List Piece}
    (hsplit : splitAtComma pieces = (before, some behind)) :
    weight behind < weight pieces := by
  induction pieces generalizing before with
  | nil => simp [splitAtComma] at hsplit
  | cons piece rest ih =>
      unfold splitAtComma at hsplit
      split at hsplit
      · simp only [Prod.mk.injEq, Option.some.injEq] at hsplit
        simp only [weight_cons, Piece.weight, hsplit.2]
        omega
      · simp only [Prod.mk.injEq] at hsplit
        have := ih (Prod.ext rfl hsplit.2)
        simp only [weight_cons]
        omega

/-- A node, behind the descendant combinator that the white space at `gap?` stands for. -/
def behindGap (gap? : Option Nat) (node : SelectorNode) : Selector :=
  match gap? with
  | none => [node]
  | some gap =>
      if node.component.isCombinator then
        [node]
      else
        [⟨.combinator .descendant, gap⟩, node]

mutual

/-- Read selectors between commas; `first` says that no comma stands in front. -/
def readSelectors (first : Bool) (pieces : List Piece) : Except SelectorFault SelectorList :=
  match _hsplit : splitAtComma pieces with
  | (segment, none) =>
      match readNodes false none segment with
      | .error fault => .error fault
      | .ok [] => .error (if first then .emptySelector else .trailingComma)
      | .ok selector => .ok [selector]
  | (segment, some behind) =>
      match readNodes false none segment with
      | .error fault => .error fault
      | .ok [] => .error .emptySelectorInList
      | .ok selector =>
          match readSelectors false behind with
          | .error fault => .error fault
          | .ok selectors => .ok (selector :: selectors)
termination_by 2 * weight pieces + 1
decreasing_by
  · have := weight_before_le _hsplit
    omega
  · have := weight_before_le _hsplit
    omega
  · have := weight_behind_lt _hsplit
    omega

/-- Read the nodes of one selector.  White space is pending at `gap?` if it can become a descendant
combinator, which it can only behind a simple selector. -/
def readNodes (behindSimple : Bool) (gap? : Option Nat) (pieces : List Piece) :
    Except SelectorFault Selector :=
  match pieces with
  | [] => .ok []
  | piece :: rest =>
      if piece.token = .whitespace then
        readNodes behindSimple (gap? <|> if behindSimple then some piece.start else none) rest
      else
        let component? :=
          if piece.token = .colon then
            match _hfunction : selectorFunction? rest with
            | some (name, argument) =>
                match readSelectors true argument.body.pieces with
                | .error fault => .error fault
                | .ok list => .ok (.pseudoClass name (.selectors list), 1)
            | none => pseudo rest
          else
            component piece rest
        match component? with
        | .error fault => .error fault
        | .ok (component, count) =>
            match readNodes (!component.isCombinator) none (rest.drop count) with
            | .error fault => .error fault
            | .ok nodes => .ok (behindGap gap? ⟨component, piece.start⟩ ++ nodes)
termination_by 2 * weight pieces
decreasing_by
  · simp only [weight_cons, Piece.weight]
    omega
  · obtain ⟨more, hrest⟩ := selectorFunction?_eq_some _hfunction
    have := Forest.weight_pieces_body_lt argument
    simp only [hrest, weight_cons, Piece.weight] at this ⊢
    omega
  · have := weight_drop_le count rest
    simp only [weight_cons, Piece.weight]
    omega

end

/-- Read a selector list. -/
def ofText (text : Text) : Except SelectorFault SelectorList :=
  readSelectors true (Forest.ofText text).pieces

end SelectorList

/-- A text that is no selector list. -/
structure InvalidSelector where
  /-- The text without the white space around it. -/
  text : Text
  fault : SelectorFault
deriving DecidableEq, Repr

namespace InvalidSelector

/-- The text and its fault in words. -/
def message (error : InvalidSelector) : String :=
  s!"Invalid selector '{String.ofList error.text}': {error.fault.message}"

end InvalidSelector

namespace SelectorList

/-- Read a selector list; a failure names the text. -/
def parse (text : Text) : Except InvalidSelector SelectorList :=
  (ofText text).mapError fun fault => ⟨Text.trim text, fault⟩

end SelectorList

end ScssLint
