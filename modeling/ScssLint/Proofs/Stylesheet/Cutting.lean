import ScssLint.Proofs.Stylesheet.Spelling
import ScssLint.Stylesheet.Outline

/-! # Cutting statements

White space and the parts of a statement are passed over by a cut (`Outline.cutStatement_spaces`,
`Outline.cutStatement_parts`), so it ends where the statement does. The white space in front of the
end is dropped (`Outline.withoutTrailingSpace_append`), since no statement ends in white space
itself (`IsTight`).
-/

namespace ScssLint

open Css

section Tight

variable {α : Type} {blank : α → Bool} {items others : List α}

/-- Whether a list does not end in what counts as blank. -/
def IsTight (blank : α → Bool) (items : List α) : Prop :=
  ∀ item ∈ items.getLast?, blank item = false

namespace IsTight

theorem of_forall (dark : ∀ item ∈ items, blank item = false) : IsTight blank items :=
  fun item last => dark item (List.mem_of_getLast? last)

theorem append (first : IsTight blank items) (second : IsTight blank others) :
    IsTight blank (items ++ others) := by
  intro item member
  rw [List.getLast?_append, Option.mem_def, Option.or_eq_some_iff] at member
  rcases member with last | ⟨_, last⟩
  · exact second item last
  · exact first item last

theorem cons {item : α} (more : items ≠ []) (tight : IsTight blank items) :
    IsTight blank (item :: items) := by
  obtain ⟨next, items, rfl⟩ := List.exists_cons_of_ne_nil more
  intro last member
  rw [List.getLast?_cons_cons] at member
  exact tight last member

theorem tail {item : α} (tight : IsTight blank (item :: items)) : IsTight blank items := by
  intro last member
  apply tight last
  rw [List.getLast?_cons, member]
  rfl

/-- What counts as blank is dropped from the end up to a tight list. -/
theorem dropBlanks (tight : IsTight blank items) (blanks : ∀ item ∈ others, blank item = true) :
    ((items ++ others).reverse.dropWhile blank).reverse = items := by
  have dropped : ∀ item ∈ others.reverse, blank item = true :=
    fun item member => blanks item (List.mem_reverse.1 member)
  have kept : items.reverse.dropWhile blank = items.reverse := by
    cases shape : items.reverse with
    | nil => rfl
    | cons item rest =>
        have last : items.getLast? = some item := by
          rw [← List.head?_reverse, shape]
          rfl
        have dark : ¬ blank item = true := by
          rw [tight item last]
          exact Bool.noConfusion
        exact List.dropWhile_cons_of_neg dark
  rw [List.reverse_append, List.dropWhile_append_of_pos dropped, kept, List.reverse_reverse]

end IsTight

end Tight

namespace Outline

/-- A cut in front of which more pieces are found. -/
def Cut.behind (pieces : List Piece) (cut : Cut) : Cut :=
  ⟨pieces ++ cut.before, cut.ending, cut.rest⟩

theorem cutStatement_simple {piece : Piece} (simple : piece.token.isSimple = true)
    (rest : List Piece) :
    cutStatement false (piece :: rest) = (cutStatement false rest).behind [piece] := by
  have other {token : Token} (special : token.isSimple = false) : piece.token ≠ token := by
    intro same
    rw [same, special] at simple
    exact Bool.noConfusion simple
  have noHash : (piece.token == .delim '#') = false := beq_eq_false_iff_ne.2 (other rfl)
  rw [cutStatement, if_neg (other rfl), if_neg fun found => other rfl found.1, noHash]
  rfl

theorem cutStatement_spaces {spaces : List Piece}
    (blank : ∀ piece ∈ spaces, piece.token = .whitespace) (tail : List Piece) :
    cutStatement false (spaces ++ tail) = (cutStatement false tail).behind spaces := by
  induction spaces with
  | nil => rfl
  | cons piece spaces ih =>
      obtain ⟨first, others⟩ := List.forall_mem_cons.1 blank
      have simple : piece.token.isSimple = true := by
        rw [first]
        rfl
      rw [List.cons_append, cutStatement_simple simple, ih others]
      rfl

/-- **No statement ends inside separated parts.** The block of an interpolation is glued to its
hash. -/
theorem cutStatement_parts {rest : Text} {parts : List Part} (separated : Separated rest parts)
    (offset : Nat) (tail : List Piece) :
    cutStatement false ((Forest.ofParts offset parts).pieces ++ tail) =
      (cutStatement false tail).behind (Forest.ofParts offset parts).pieces := by
  induction separated generalizing offset with
  | nil => rfl
  | @token token text parts simple _ _ ih =>
      have passed := @cutStatement_simple ⟨[], ⟨token, offset, text⟩, none⟩ simple
      rw [pieces_token simple, List.cons_append, passed, ih]
      rfl
  | @slot name parts _ ih =>
      have slot (tail : List Piece) : cutStatement false (slotPieces offset name ++ tail) =
          (cutStatement false tail).behind (slotPieces offset name) := rfl
      rw [pieces_slot, List.append_assoc, slot, ih]
      simp only [Cut.behind, List.append_assoc]

/-- Whether a part is white space. -/
def isSpacePart : Part → Bool
  | .token .whitespace _ => true
  | _ => false

theorem pieces_ne_nil {rest : Text} {part : Part} {parts : List Part}
    (separated : Separated rest (part :: parts)) (offset : Nat) :
    (Forest.ofParts offset (part :: parts)).pieces ≠ [] := by
  cases separated with
  | token simple _ _ =>
      rw [pieces_token simple]
      exact List.cons_ne_nil _ _
  | slot _ =>
      rw [pieces_slot]
      exact List.cons_ne_nil _ _

/-- A token with tight pieces behind it. -/
theorem isTight_cons {rest : Text} {parts : List Part} {token : Token} {text : Text}
    (separated : Separated rest parts) (tight : IsTight isSpacePart (.token token text :: parts))
    (lead : List Lexeme) (start offset : Nat)
    (behind : IsTight (·.token == .whitespace) (Forest.ofParts offset parts).pieces) :
    IsTight (·.token == .whitespace)
      (⟨lead, ⟨token, start, text⟩, none⟩ :: (Forest.ofParts offset parts).pieces) := by
  cases parts with
  | nil =>
      have dark := tight _ rfl
      refine .of_forall fun piece member => ?_
      obtain rfl := List.mem_singleton.1 member
      cases token <;> first | rfl | exact Bool.noConfusion dark
  | cons part parts => exact .cons (pieces_ne_nil separated offset) behind

theorem isTight_pieces {rest : Text} {parts : List Part} (separated : Separated rest parts)
    (tight : IsTight isSpacePart parts) (offset : Nat) :
    IsTight (·.token == .whitespace) (Forest.ofParts offset parts).pieces := by
  induction separated generalizing offset with
  | nil => exact .of_forall fun piece member => absurd member List.not_mem_nil
  | token simple _ separated ih =>
      rw [pieces_token simple]
      exact isTight_cons separated tight [] offset _ (ih tight.tail _)
  | slot _ ih =>
      rw [pieces_slot]
      exact .append (.of_forall (by simp [slotPieces, Piece.token])) (ih tight.tail _)

theorem withoutTrailingSpace_append {pieces spaces : List Piece}
    (tight : IsTight (·.token == .whitespace) pieces)
    (blank : ∀ piece ∈ spaces, piece.token = .whitespace) :
    withoutTrailingSpace (pieces ++ spaces) = pieces := by
  apply tight.dropBlanks
  intro piece member
  rw [blank piece member]
  rfl

/-- Whether only white space stands in front of the end of a statement. -/
def EndsStatement (behind : Forest) (ending : Ending) (later : List Piece) : Prop :=
  ∃ spaces tail, (∀ piece ∈ spaces, piece.token = .whitespace) ∧ behind.pieces = spaces ++ tail ∧
    cutStatement false tail = ⟨[], ending, later⟩

section Cuts

variable {rest text : Text} {token : Token} {parts : List Part} {behind : Forest} {ending : Ending}
  {later : List Piece}

/-- The cut behind separated parts. -/
theorem exists_cut (separated : Separated rest parts) (tight : IsTight isSpacePart parts)
    (ends : EndsStatement behind ending later) (offset : Nat) :
    ∃ before, cutStatement false ((Forest.ofParts offset parts).pieces ++ behind.pieces) =
        ⟨before, ending, later⟩ ∧
      piecesText (withoutTrailingSpace before) = partsText parts := by
  obtain ⟨spaces, tail, blank, split, ended⟩ := ends
  refine ⟨(Forest.ofParts offset parts).pieces ++ spaces, ?_, ?_⟩
  · rw [split, cutStatement_parts separated, cutStatement_spaces blank, ended]
    simp only [Cut.behind, List.append_nil]
  · rw [withoutTrailingSpace_append (isTight_pieces separated tight offset) blank,
      separated.piecesText]

/-- The cut behind separated parts, with comments in front of the first token. -/
theorem exists_cut_lead (simple : token.isSimple = true) (separated : Separated rest parts)
    (tight : IsTight isSpacePart (.token token text :: parts))
    (ends : EndsStatement behind ending later) (lead : List Lexeme) (start offset : Nat) :
    ∃ before, cutStatement false (⟨lead, ⟨token, start, text⟩, none⟩ ::
          ((Forest.ofParts offset parts).pieces ++ behind.pieces)) = ⟨before, ending, later⟩ ∧
      withoutTrailingSpace before ≠ [] ∧
      bareText (withoutTrailingSpace before) = partsText (.token token text :: parts) := by
  obtain ⟨spaces, tail, blank, split, ended⟩ := ends
  have dropped := withoutTrailingSpace_append
    (isTight_cons separated tight lead start offset (isTight_pieces separated tight.tail offset))
    blank
  refine ⟨⟨lead, ⟨token, start, text⟩, none⟩ ::
    ((Forest.ofParts offset parts).pieces ++ spaces), ?_, ?_, ?_⟩
  · have passed := @cutStatement_simple ⟨lead, ⟨token, start, text⟩, none⟩ simple
    rw [split, passed, cutStatement_parts separated, cutStatement_spaces blank, ended]
    simp only [Cut.behind, List.append_nil, List.singleton_append]
  · rw [← List.cons_append, dropped]
    exact List.cons_ne_nil _ _
  · rw [← List.cons_append, dropped, bareText, separated.piecesText]
    exact congrArg (· ++ partsText parts) (List.append_nil text)

end Cuts

/-- What stands between two statements is passed over. -/
theorem ofPieces_gap {piece : Piece} (between : piece.token = .whitespace ∨ piece.token = .semicolon)
    (rest : List Piece) : ofPieces (piece :: rest) = ofPieces rest := by
  rcases between with same | same
  · rw [ofPieces, same]
  · rw [ofPieces, same]

theorem ofPieces_stray {piece : Piece} (closes : piece.token = .closing .curly)
    (rest : List Piece) :
    ofPieces (piece :: rest) = .warning (.unmatchedBrace piece.head.start) (ofPieces rest) := by
  rw [ofPieces, closes]

theorem ofPieces_spaces {spaces : List Piece}
    (blank : ∀ piece ∈ spaces, piece.token = .whitespace) (tail : List Piece) :
    ofPieces (spaces ++ tail) = ofPieces tail := by
  induction spaces with
  | nil => rfl
  | cons piece spaces ih =>
      obtain ⟨first, others⟩ := List.forall_mem_cons.1 blank
      rw [List.cons_append, ofPieces_gap (.inl first), ih others]

section Statements

variable {piece block : Piece} {before rest later : List Piece} {ending : Ending} {name : Text}

/-- An at-rule without a block. -/
theorem ofPieces_atRule (named : piece.token = .atKeyword name)
    (cut : cutStatement false rest = ⟨before, ending, later⟩)
    (noBlock : ∀ block, ending ≠ .block block) :
    ofPieces (piece :: rest) =
      .node (.atRule name (Text.trim (piecesText (withoutTrailingSpace before))) false)
        ⟨piece.head.start, stopFrom piece.stop (withoutTrailingSpace before)⟩ .nil
        (ofPieces later) := by
  rw [ofPieces, named]
  simp only [cut]
  split
  · rename_i block same
    rw [cut] at same
    exact absurd same (noBlock block)
  · rfl

theorem ofPieces_atBlock (named : piece.token = .atKeyword name)
    (cut : cutStatement false rest = ⟨before, .block block, later⟩) :
    ofPieces (piece :: rest) =
      .node (.atRule name (Text.trim (piecesText (withoutTrailingSpace before))) true)
        ⟨piece.head.start, block.stop⟩ (ofPieces block.body.pieces) (ofPieces later) := by
  rw [ofPieces, named]
  simp only [cut]
  split
  · rename_i found same
    rw [cut] at same
    obtain rfl := Ending.block.inj same
    rfl
  · rename_i none
    exact absurd (congrArg Cut.ending cut) (none block)

/-- The tokens that a declaration or a rule can start with. -/
def startsStatement : Token → Bool
  | .whitespace | .semicolon | .closing .curly | .atKeyword _ => false
  | _ => true

theorem startsStatement_of_other {token : Token} (noSpace : token ≠ .whitespace)
    (noSemicolon : token ≠ .semicolon) (noClosing : token ≠ .closing .curly)
    (noAt : ∀ name, token ≠ .atKeyword name) : startsStatement token = true := by
  unfold startsStatement
  split
  case h_1 => exact absurd rfl noSpace
  case h_2 => exact absurd rfl noSemicolon
  case h_3 => exact absurd rfl noClosing
  case h_4 name => exact absurd rfl (noAt name)
  case h_5 => rfl

theorem ofPieces_declaration {property value : Text}
    (cut : cutStatement false (piece :: rest) = ⟨before, ending, later⟩)
    (starts : startsStatement piece.token = true) (noBlock : ∀ block, ending ≠ .block block)
    (declares : splitDeclaration? (bareText (withoutTrailingSpace before)) =
      some (property, value)) :
    ofPieces (piece :: rest) =
      .node (.declaration property value)
        ⟨piece.head.start, stopFrom piece.head.start (withoutTrailingSpace before)⟩ .nil
        (ofPieces later) := by
  rw [ofPieces]
  split
  case h_1 same | h_2 same | h_3 same | h_4 same =>
    rw [same] at starts
    exact Bool.noConfusion starts
  case h_5 =>
    simp only [cut, declares]
    split
    · rename_i block same
      rw [cut] at same
      exact absurd same (noBlock block)
    · rfl

/-- What is neither a declaration nor in front of a block is skipped. -/
theorem ofPieces_unknown
    (cut : cutStatement false (piece :: rest) = ⟨before, ending, later⟩)
    (starts : startsStatement piece.token = true) (noBlock : ∀ block, ending ≠ .block block)
    (declaresNone : splitDeclaration? (bareText (withoutTrailingSpace before)) = none) :
    ofPieces (piece :: rest) =
      .warning (.unknownStatement piece.head.start (bareText (withoutTrailingSpace before)))
        (ofPieces later) := by
  rw [ofPieces]
  split
  case h_1 same | h_2 same | h_3 same | h_4 same =>
    rw [same] at starts
    exact Bool.noConfusion starts
  case h_5 =>
    simp only [cut, declaresNone]
    split
    · rename_i block same
      rw [cut] at same
      exact absurd same (noBlock block)
    · rfl

/-- A block with a statement in front. -/
theorem ofPieces_block {statement : Statement} {opened : Bool}
    (cut : cutStatement false (piece :: rest) = ⟨before, .block block, later⟩)
    (starts : startsStatement piece.token = true) (written : withoutTrailingSpace before ≠ [])
    (made : blockStatement (bareText (withoutTrailingSpace before)) block = (statement, opened)) :
    ofPieces (piece :: rest) =
      .node statement ⟨piece.head.start, block.stop⟩
        (if opened then ofPieces block.body.pieces else .nil) (ofPieces later) := by
  rw [ofPieces]
  split
  case h_1 same | h_2 same | h_3 same | h_4 same =>
    rw [same] at starts
    exact Bool.noConfusion starts
  case h_5 =>
    simp only [cut]
    split
    · rename_i found same
      rw [cut] at same
      obtain rfl := Ending.block.inj same
      rw [if_neg (by rwa [List.isEmpty_iff]), made]
    · rename_i none
      exact absurd (congrArg Cut.ending cut) (none block)

/-- A block with nothing in front. -/
theorem ofPieces_bare
    (cut : cutStatement false (piece :: rest) = ⟨before, .block block, later⟩)
    (starts : startsStatement piece.token = true) (noParts : withoutTrailingSpace before = []) :
    ofPieces (piece :: rest) =
      .warning (.blockWithoutSelector piece.head.start) (ofPieces later) := by
  rw [ofPieces]
  split
  case h_1 same | h_2 same | h_3 same | h_4 same =>
    rw [same] at starts
    exact Bool.noConfusion starts
  case h_5 =>
    simp only [cut]
    split
    · rw [if_pos (List.isEmpty_iff.2 noParts)]
    · rename_i none
      exact absurd (congrArg Cut.ending cut) (none block)

end Statements

end Outline

end ScssLint
