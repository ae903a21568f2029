import ScssLint.Proofs.Css.Grouping
import ScssLint.Proofs.Css.Lexing

/-! # Statements in parts

What is written of a statement in front of its end consists of single tokens and of interpolations
(`Css.Part`). Where each token is cut off at its end (`Css.Separated`), the lexer finds the tokens
of the parts and leaves no bracket open (`Css.Separated.reads`), and the pieces of the parts spell
their text (`Css.Separated.piecesText`). A gap leaves nothing but white space behind among the
pieces (`Css.Forest.piecesBehind_leaves`).
-/

namespace ScssLint

namespace Css

/-- The tokens that neither end a statement nor open or close a block, white space among them. -/
def Token.isSimple : Token → Bool
  | ident _ | atKeyword _ | whitespace | colon => true
  | delim sign => sign != '#'
  | _ => false

inductive Part where
  | token (token : Token) (text : Text)
  | slot (name : Identifier)

def Part.text : Part → Text
  | token _ text => text
  | slot name => slotText name

def partsText (parts : List Part) : Text :=
  parts.flatMap Part.text

theorem partsText_cons (part : Part) (parts : List Part) :
    partsText (part :: parts) = part.text ++ partsText parts := rfl

theorem partsText_append (parts others : List Part) :
    partsText (parts ++ others) = partsText parts ++ partsText others :=
  List.flatMap_append

/-- What the brackets of an interpolation hold. -/
def slotBody (offset : Nat) (name : Identifier) : Forest :=
  .leaf ⟨.delim '$', offset, ['$']⟩ (.leaf ⟨.ident name.text, offset + 1, name.text⟩ .nil)

def slotClose (offset : Nat) (name : Identifier) : Lexeme :=
  ⟨.closing .curly, offset + 1 + Text.bytes name.text, ['\x7D']⟩

/-- An interpolation at `offset` and what follows it. -/
def slotForest (offset : Nat) (name : Identifier) (rest : Forest) : Forest :=
  .leaf ⟨.delim '#', offset, ['#']⟩
    (.block ⟨.opening .curly, offset + 1, ['\x7B']⟩ (slotBody (offset + 2) name)
      (some (slotClose (offset + 2) name)) rest)

/-- The pieces of an interpolation. -/
def slotPieces (offset : Nat) (name : Identifier) : List Piece :=
  [⟨[], ⟨.delim '#', offset, ['#']⟩, none⟩,
    ⟨[], ⟨.opening .curly, offset + 1, ['\x7B']⟩,
      some (slotBody (offset + 2) name, some (slotClose (offset + 2) name))⟩]

/-- The tokens of some parts from `offset` on. -/
def Forest.ofParts (offset : Nat) : List Part → Forest
  | [] => .nil
  | .token token text :: parts =>
      .leaf ⟨token, offset, text⟩ (ofParts (offset + Text.bytes text) parts)
  | .slot name :: parts =>
      slotForest offset name (ofParts (offset + Text.bytes (slotText name)) parts)

/-- Whether the lexer cuts off each token among some parts where it ends when `rest` follows. -/
inductive Separated (rest : Text) : List Part → Prop
  | nil : Separated rest []
  | token {token : Token} {text : Text} {parts : List Part} : token.isSimple = true →
      Lexes token text (partsText parts ++ rest) → Separated rest parts →
      Separated rest (.token token text :: parts)
  | slot {name : Identifier} {parts : List Part} : Separated rest parts →
      Separated rest (.slot name :: parts)

theorem ne_comment_of_isSimple {token : Token} (simple : token.isSimple = true) :
    token ≠ .comment := by
  rintro rfl
  exact Bool.noConfusion simple

theorem Forest.piecesBehind_leaf {lexeme : Lexeme} {lead : List Lexeme} {rest : Forest}
    (noComment : lexeme.token ≠ .comment) :
    (leaf lexeme rest).piecesBehind lead = ⟨lead, lexeme, none⟩ :: rest.pieces := by
  rw [piecesBehind, if_neg noComment]
  rfl

theorem pieces_token {token : Token} (simple : token.isSimple = true) (offset : Nat) (text : Text)
    (parts : List Part) :
    (Forest.ofParts offset (.token token text :: parts)).pieces =
      ⟨[], ⟨token, offset, text⟩, none⟩ ::
        (Forest.ofParts (offset + Text.bytes text) parts).pieces :=
  Forest.piecesBehind_leaf (ne_comment_of_isSimple simple)

theorem pieces_slot (offset : Nat) (name : Identifier) (parts : List Part) :
    (Forest.ofParts offset (.slot name :: parts)).pieces =
      slotPieces offset name ++
        (Forest.ofParts (offset + Text.bytes (slotText name)) parts).pieces :=
  rfl

/-- An interpolation is cut into its tokens wherever it stands. -/
theorem lexemesFrom_slot (offset : Nat) (name : Identifier) (rest : Text) :
    lexemesFrom offset (slotText name ++ rest) =
      (slotForest offset name .nil).lexemes ++
        lexemesFrom (offset + Text.bytes (slotText name)) rest := by
  have dollar : Lexes (.delim '$') ['$'] (name.text ++ (['\x7D'] ++ rest)) := by
    obtain ⟨c, tail, same, lower, _⟩ := exists_identifier name
    rw [same]
    exact lexes_dollar lower
  have named : Lexes (.ident name.text) name.text (['\x7D'] ++ rest) := lexes_identifier name rfl
  have order : slotText name ++ rest =
      ['#'] ++ (['\x7B'] ++ (['$'] ++ (name.text ++ (['\x7D'] ++ rest)))) := by
    simp [slotText]
  have length : offset + 3 + Text.bytes name.text + Text.bytes ['\x7D'] =
      offset + Text.bytes (slotText name) := by
    have sizes : Text.bytes ['#', '\x7B', '$'] = 3 := rfl
    rw [slotText, Text.bytes_append, Text.bytes_append, sizes]
    omega
  have hash : Lexes (.delim '#') ['#'] (['\x7B'] ++ (['$'] ++ (name.text ++ (['\x7D'] ++ rest)))) :=
    lexes_hash _
  have behindHash : offset + Text.bytes ['#'] = offset + 1 := rfl
  have behindOpening : offset + 1 + Text.bytes ['\x7B'] = offset + 2 := rfl
  have behindDollar : offset + 2 + Text.bytes ['$'] = offset + 3 := rfl
  rw [← length, order, hash offset, behindHash, lexes_opening _ (offset + 1), behindOpening,
    dollar (offset + 2), behindDollar, named (offset + 3),
    lexes_closing rest (offset + 3 + Text.bytes name.text)]
  simp only [slotForest, slotBody, slotClose, Forest.lexemes, List.cons_append, List.nil_append,
    Option.toList_some]

namespace Separated

variable {rest : Text} {parts : List Part}

theorem append {others : List Part} (first : Separated (partsText others ++ rest) parts)
    (second : Separated rest others) : Separated rest (parts ++ others) := by
  induction first with
  | nil => exact second
  | @token token text parts simple cut _ ih =>
      refine .token simple ?_ ih
      rwa [← List.append_assoc, ← partsText_append] at cut
  | slot _ ih => exact .slot ih

theorem isClosed (separated : Separated rest parts) (offset : Nat) :
    (Forest.ofParts offset parts).IsClosed := by
  induction separated generalizing offset with
  | nil => exact .nil
  | @token token _ _ simple _ _ ih =>
      refine .leaf ?_ ?_ (ih _)
      · cases token <;> first | rfl | exact Bool.noConfusion simple
      · cases token <;> first | rfl | exact Bool.noConfusion simple
  | slot _ ih => exact .leaf rfl rfl (.block rfl rfl (.leaf rfl rfl (.leaf rfl rfl .nil)) (ih _))

theorem lexemesFrom (separated : Separated rest parts) (offset : Nat) :
    lexemesFrom offset (partsText parts ++ rest) =
      (Forest.ofParts offset parts).lexemes ++
        Css.lexemesFrom (offset + Text.bytes (partsText parts)) rest := by
  induction separated generalizing offset with
  | nil => rfl
  | @token token text parts _ cut _ ih =>
      rw [partsText_cons, Part.text, List.append_assoc, cut offset, ih, Text.bytes_append,
        Nat.add_assoc]
      rfl
  | @slot name parts _ ih =>
      rw [partsText_cons, Part.text, List.append_assoc, lexemesFrom_slot, ih, Text.bytes_append,
        Nat.add_assoc]
      simp only [Forest.ofParts, slotForest, slotBody, slotClose, Forest.lexemes, List.cons_append,
        List.nil_append, List.append_assoc]

/-- **The tokens of separated parts are found in front of what follows.** -/
theorem reads (separated : Separated rest parts) (offset : Nat) :
    Reads offset (partsText parts) rest (Forest.ofParts offset parts) :=
  ⟨separated.isClosed offset, separated.lexemesFrom offset⟩

/-- The pieces of the parts come in front of those that follow. -/
theorem pieces_append (separated : Separated rest parts) (offset : Nat) (behind : Forest) :
    ((Forest.ofParts offset parts).append behind).pieces =
      (Forest.ofParts offset parts).pieces ++ behind.pieces := by
  induction separated generalizing offset with
  | nil => rfl
  | @token token text parts simple _ _ ih =>
      rw [pieces_token simple, List.cons_append, ← ih]
      exact Forest.piecesBehind_leaf (ne_comment_of_isSimple simple)
  | @slot name parts _ ih =>
      rw [pieces_slot, List.append_assoc, ← ih]
      rfl

/-- **The pieces of separated parts spell them.** -/
theorem piecesText (separated : Separated rest parts) (offset : Nat) :
    Css.piecesText (Forest.ofParts offset parts).pieces = partsText parts := by
  induction separated generalizing offset with
  | nil => rfl
  | @token token text parts simple _ _ ih =>
      have first : (⟨[], ⟨token, offset, text⟩, none⟩ : Piece).text = text :=
        List.append_nil text
      rw [pieces_token simple, Css.piecesText, List.flatMap_cons, first]
      exact congrArg (text ++ ·) (ih _)
  | @slot name parts _ ih =>
      have first : Css.piecesText (slotPieces offset name) = slotText name := by
        simp [Css.piecesText, slotPieces, Piece.text, Piece.lexemes, slotBody, slotClose,
          Forest.lexemes, slotText]
      rw [pieces_slot, Css.piecesText, List.flatMap_append]
      exact congr (congrArg (· ++ ·) first) (ih _)

end Separated

/-- Whether some tokens are white space and comments. -/
def AreBlank (tokens : List Lexeme) : Prop :=
  ∀ lexeme ∈ tokens, lexeme.token = .whitespace ∨ lexeme.token = .comment

namespace Reads

variable {offset : Nat} {text rest : Text}

theorem nil : Reads offset [] rest .nil :=
  ⟨.nil, rfl⟩

theorem token {token : Token} (cut : Lexes token text rest) (opensNone : token.opens? = none)
    (closesNone : token.closes? = none) :
    Reads offset text rest (.leaf ⟨token, offset, text⟩ .nil) :=
  ⟨.leaf opensNone closesNone .nil, cut offset⟩

/-- A block is read around what it holds. -/
theorem enclose {opener close : Token} {bracket : Bracket} {opens inside closes : Text}
    {body : Forest} (openerCut : Lexes opener opens (inside ++ (closes ++ rest)))
    (closeCut : Lexes close closes rest) (isOpener : opener.opens? = some bracket)
    (isClose : close.closes? = some bracket)
    (reads : Reads (offset + Text.bytes opens) inside (closes ++ rest) body) :
    Reads offset (opens ++ (inside ++ closes)) rest
      (.block ⟨opener, offset, opens⟩ body
        (some ⟨close, offset + Text.bytes opens + Text.bytes inside, closes⟩) .nil) := by
  refine ⟨.block isOpener isClose reads.closed .nil, ?_⟩
  rw [List.append_assoc, List.append_assoc, openerCut offset, reads.found, closeCut,
    Text.bytes_append, Text.bytes_append, ← Nat.add_assoc, ← Nat.add_assoc]
  simp only [Forest.lexemes, Option.toList_some, List.append_nil, List.append_assoc,
    List.cons_append, List.nil_append]

/-- What stands in curly brackets. -/
theorem block {inside : Text} {body : Forest}
    (reads : Reads (offset + 1) inside ('\x7D' :: rest) body) :
    Reads offset ('\x7B' :: (inside ++ ['\x7D'])) rest
      (.block ⟨.opening .curly, offset, ['\x7B']⟩ body
        (some ⟨.closing .curly, offset + 1 + Text.bytes inside, ['\x7D']⟩) .nil) :=
  enclose (lexes_opening _) (lexes_closing rest) rfl rfl reads

theorem gap {gap : Text} (isGap : IsGap gap) (stops : ∀ d ∈ rest.head?, isSpace d = false) :
    ∃ tokens, Reads offset gap rest (Forest.leaves tokens) ∧ AreBlank tokens := by
  obtain ⟨tokens, found, all⟩ := isGap.lexes stops offset
  refine ⟨tokens, ⟨.leaves fun lexeme member => ?_, ?_⟩, all⟩
  · rcases all lexeme member with same | same <;> rw [same] <;> exact ⟨rfl, rfl⟩
  · rw [found, Forest.lexemes_leaves]

end Reads

/-- White space and comments in front of other tokens leave pieces of white space, and the comments
behind the last of them to what follows. -/
theorem Forest.piecesBehind_leaves {tokens : List Lexeme} (all : AreBlank tokens)
    (lead : List Lexeme) (behind : Forest) :
    ∃ spaces later, (∀ piece ∈ spaces, piece.token = .whitespace) ∧
      ((leaves tokens).append behind).piecesBehind lead = spaces ++ behind.piecesBehind later := by
  induction tokens generalizing lead with
  | nil => exact ⟨[], lead, by simp, rfl⟩
  | cons lexeme tokens ih =>
      obtain ⟨first, others⟩ := List.forall_mem_cons.1 all
      by_cases comment : lexeme.token = .comment
      · obtain ⟨spaces, later, blank, same⟩ := ih others (lead ++ [lexeme])
        refine ⟨spaces, later, blank, Eq.trans ?_ same⟩
        exact if_pos comment
      · obtain ⟨spaces, later, blank, same⟩ := ih others []
        refine ⟨⟨lead, lexeme, none⟩ :: spaces, later,
          List.forall_mem_cons.2 ⟨first.resolve_right comment, blank⟩, ?_⟩
        rw [List.cons_append, ← same]
        exact piecesBehind_leaf comment

end Css

end ScssLint
