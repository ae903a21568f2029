import ScssLint.Proofs.Stylesheet.Blanking
import ScssLint.Proofs.Stylesheet.Nesting

/-! # Recovering documents

The tree of a document is the document: each statement is read back with its parts, in its place and
at its depth, and nothing is warned of (`Document.nesting_stylesheet`). The induction runs along the
document and holds in front of the end of the text and in front of a closing bracket alike
(`Document.isRead`).
-/

namespace ScssLint

open Css

open Outline (ofPieces EndsStatement Ending)

namespace Outline

/-- Whether an outline consists of the statements of a document without a warning. -/
def Recovers (outline : Outline) (document : Document) : Prop :=
  outline.nesting = document.nesting ∧ outline.warnings = []

section Endings

variable {tokens : List Lexeme} (blank : AreBlank tokens)

include blank

theorem endsStatement_nothing : EndsStatement (Forest.leaves tokens) .nothing [] := by
  obtain ⟨spaces, _, white, same⟩ := Forest.piecesBehind_leaves blank [] .nil
  rw [Forest.append_nil] at same
  exact ⟨spaces, [], white, same, rfl⟩

theorem endsStatement_semicolon {semicolon : Lexeme} (ends : semicolon.token = .semicolon)
    (behind : Forest) :
    ∃ piece, EndsStatement ((Forest.leaves tokens).append (.leaf semicolon behind))
      (.semicolon piece) behind.pieces := by
  obtain ⟨spaces, lead, white, same⟩ :=
    Forest.piecesBehind_leaves blank [] (.leaf semicolon behind)
  have noComment : semicolon.token ≠ .comment := by
    rw [ends]
    exact Token.noConfusion
  rw [Forest.piecesBehind_leaf noComment] at same
  refine ⟨⟨lead, semicolon, none⟩, spaces, _, white, same, ?_⟩
  exact if_pos ends

theorem endsStatement_block {opener : Lexeme} (opens : opener.token = .opening .curly)
    (body : Forest) (close? : Option Lexeme) (behind : Forest) :
    ∃ piece, piece.body = body ∧
      EndsStatement ((Forest.leaves tokens).append (.block opener body close? behind))
        (.block piece) behind.pieces := by
  obtain ⟨spaces, lead, white, same⟩ :=
    Forest.piecesBehind_leaves blank [] (.block opener body close? behind)
  refine ⟨⟨lead, opener, some (body, close?)⟩, rfl, spaces, _, white, same, ?_⟩
  have noEnd : opener.token ≠ .semicolon := by
    rw [opens]
    exact Token.noConfusion
  change (if opener.token = .semicolon then _ else _) = _
  rw [if_neg noEnd]
  exact if_pos ⟨opens, rfl⟩

end Endings

end Outline

/-- No statement starts with white space. -/
theorem Line.noSpace (line : Line) (rest : Text) :
    ∀ c ∈ (partsText line.parts ++ rest).head?, isSpace c = false := by
  rw [partsText_line]
  cases line with
  | declaration property value =>
      cases property with
      | plain name =>
          obtain ⟨first, tail, same, lower, _⟩ := exists_identifier name
          intro c member
          rw [Line.text, Property.text, same] at member
          obtain rfl : first = c := Option.some.inj member
          exact isSpace_of_isLower lower
      | «variable» name => exact fun c member => Option.some.inj member ▸ rfl
      | custom name => exact fun c member => Option.some.inj member ▸ rfl
  | «at» rule => exact fun c member => Option.some.inj member ▸ rfl

theorem Header.noSpace (header : Header) (rest : Text) :
    ∀ c ∈ (partsText header.parts ++ rest).head?, isSpace c = false := by
  rw [partsText_header]
  cases header with
  | rule compound slot? => cases compound <;> exact fun c member => Option.some.inj member ▸ rfl
  | «at» rule => exact fun c member => Option.some.inj member ▸ rfl

/-- White space and comments in front of a statement are passed over. -/
theorem ofPieces_leaves {tokens : List Lexeme} (blank : AreBlank tokens) (lead : List Lexeme)
    (behind : Forest) :
    ∃ later, ofPieces (((Forest.leaves tokens).append behind).piecesBehind lead) =
      ofPieces (behind.piecesBehind later) := by
  obtain ⟨spaces, later, white, same⟩ := Forest.piecesBehind_leaves blank lead behind
  refine ⟨later, ?_⟩
  rw [same, Outline.ofPieces_spaces white]

/-- A statement is read in its gap, in front of what is read behind it. -/
theorem exists_reads_statement {parts : List Part} {tail rest : Text} {among : Forest → Prop}
    (separated : ∀ rest, stopsName rest = true → Separated rest parts)
    (dark : ∀ rest, ∀ c ∈ (partsText parts ++ rest).head?, isSpace c = false)
    (reads : ∀ offset, ∃ last, Reads offset tail rest last ∧ among last)
    (stops : stopsName (tail ++ rest) = true)
    (darkBehind : ∀ c ∈ (tail ++ rest).head?, isSpace c = false) (gap behind : Gap)
    (offset : Nat) :
    ∃ front start back last,
      Reads offset (gap.flatMap GapPart.blanked ++
          (partsText parts ++ (behind.flatMap GapPart.blanked ++ tail))) rest
        ((Forest.leaves front).append
          ((Forest.ofParts start parts).append ((Forest.leaves back).append last))) ∧
      AreBlank front ∧ AreBlank back ∧ among last := by
  have isGap := IsGap.flatMap_blanked behind
  have stopsParts := isGap.stopsName stops
  rw [← List.append_assoc] at stopsParts
  have darkParts := dark ((behind.flatMap GapPart.blanked ++ tail) ++ rest)
  rw [← List.append_assoc] at darkParts
  obtain ⟨front, readsFront, blankFront⟩ := Reads.gap (IsGap.flatMap_blanked gap) darkParts
  have readsParts := (separated _ stopsParts).reads
    (offset + Text.bytes (gap.flatMap GapPart.blanked))
  obtain ⟨back, readsBack, blankBack⟩ := Reads.gap isGap darkBehind
  obtain ⟨last, readsLast, found⟩ := reads _
  have whole := readsFront.append (readsParts.append (readsBack.append readsLast))
  exact ⟨front, _, back, last, whole, blankFront, blankBack, found⟩

theorem dark_head {c : Char} (dark : isSpace c = false) (text : Text) :
    ∀ d ∈ (c :: text).head?, isSpace d = false := by
  intro d member
  obtain rfl : c = d := Option.some.inj member
  exact dark

namespace Document

/-- Whether a document can end in front of a text. -/
def EndsBefore (rest : Text) : Prop :=
  ∀ c ∈ rest.head?, c = '\x7D'

/-- Whether a document is read in front of `rest` as a forest from which its statements are
recovered. -/
def IsRead (document : Document) (rest : Text) : Prop :=
  ∀ offset, ∃ forest, Reads offset (document.write GapPart.blanked) rest forest ∧
    ∀ lead, (ofPieces (forest.piecesBehind lead)).Recovers document

section Cases

variable {rest : Text}

theorem stopsName_of_endsBefore (ends : EndsBefore rest) : stopsName rest = true := by
  cases rest with
  | nil => rfl
  | cons c rest =>
      rw [ends c rfl]
      rfl

theorem dark_of_endsBefore (ends : EndsBefore rest) : ∀ c ∈ rest.head?, isSpace c = false := by
  intro c member
  rw [ends c member]
  rfl

theorem isRead_done (ends : EndsBefore rest) (gap : Gap) : (done gap).IsRead rest := by
  intro offset
  obtain ⟨tokens, reads, blank⟩ :=
    Reads.gap (IsGap.flatMap_blanked gap) (dark_of_endsBefore ends)
  refine ⟨Forest.leaves tokens, reads, fun lead => ?_⟩
  obtain ⟨later, same⟩ := ofPieces_leaves blank lead .nil
  rw [Forest.append_nil] at same
  rw [same, Forest.piecesBehind, ofPieces]
  exact ⟨rfl, rfl⟩

theorem isRead_last (ends : EndsBefore rest) (gap : Gap) (line : Line) (behind : Gap) :
    (last gap line behind).IsRead rest := by
  intro offset
  have readsTail (offset : Nat) : ∃ last, Reads offset [] rest last ∧ last = .nil :=
    ⟨.nil, .nil, rfl⟩
  obtain ⟨front, start, back, _, reads, blankFront, blankBack, rfl⟩ :=
    exists_reads_statement (fun _ => line.separated) line.noSpace readsTail
      (stopsName_of_endsBefore ends) (dark_of_endsBefore ends) gap behind offset
  rw [List.append_nil, partsText_line, Forest.append_nil] at reads
  refine ⟨_, reads, fun lead => ?_⟩
  obtain ⟨later, same⟩ := ofPieces_leaves blankFront lead
    ((Forest.ofParts start line.parts).append (Forest.leaves back))
  obtain ⟨span, outline⟩ := line.exists_outline (Outline.endsStatement_nothing blankBack)
    (fun _ => Ending.noConfusion) start later
  rw [same, outline, ofPieces]
  exact ⟨rfl, rfl⟩

theorem isRead_item (gap : Gap) (line : Line) (behind : Gap) {others : Document}
    (isRead : others.IsRead rest) : (item gap line behind others).IsRead rest := by
  intro offset
  have readsTail (offset : Nat) : ∃ last,
      Reads offset (';' :: others.write GapPart.blanked) rest last ∧
        ∃ semicolon forest, last = .leaf semicolon forest ∧ semicolon.token = .semicolon ∧
          ∀ lead, (ofPieces (forest.piecesBehind lead)).Recovers others := by
    obtain ⟨forest, reads, recovers⟩ := isRead (offset + Text.bytes [';'])
    have whole := (Reads.token (lexes_semicolon _) rfl rfl).append reads
    exact ⟨_, whole, _, forest, rfl, rfl, recovers⟩
  obtain ⟨front, start, back, _, reads, blankFront, blankBack, semicolon, forest, rfl, ends,
    recovers⟩ := exists_reads_statement (fun _ => line.separated) line.noSpace readsTail rfl
      (dark_head rfl _) gap behind offset
  rw [partsText_line] at reads
  refine ⟨_, reads, fun lead => ?_⟩
  obtain ⟨later, same⟩ := ofPieces_leaves blankFront lead
    ((Forest.ofParts start line.parts).append
      ((Forest.leaves back).append (.leaf semicolon forest)))
  obtain ⟨piece, ended⟩ := Outline.endsStatement_semicolon blankBack ends forest
  obtain ⟨span, outline⟩ := line.exists_outline ended (fun _ => Ending.noConfusion) start later
  obtain ⟨nesting, warnings⟩ := recovers []
  rw [same, outline]
  exact ⟨congrArg (Nesting.node line.statement .nil) nesting, warnings⟩

theorem isRead_block (gap : Gap) (header : Header) (behind : Gap) {inside others : Document}
    (isReadInside : inside.IsRead ('\x7D' :: (others.write GapPart.blanked ++ rest)))
    (isRead : others.IsRead rest) : (block gap header behind inside others).IsRead rest := by
  intro offset
  have readsTail (offset : Nat) : ∃ last,
      Reads offset ('\x7B' :: (inside.write GapPart.blanked ++
        '\x7D' :: others.write GapPart.blanked)) rest last ∧
        ∃ opener body close? forest, last = .block opener body close? forest ∧
          opener.token = .opening .curly ∧ (ofPieces body.pieces).Recovers inside ∧
            ∀ lead, (ofPieces (forest.piecesBehind lead)).Recovers others := by
    obtain ⟨body, readsInside, recoversInside⟩ := isReadInside (offset + 1)
    obtain ⟨forest, readsBehind, recovers⟩ :=
      isRead (offset + Text.bytes ('\x7B' :: (inside.write GapPart.blanked ++ ['\x7D'])))
    have whole := readsInside.block.append readsBehind
    rw [List.cons_append, List.append_assoc] at whole
    exact ⟨_, whole, _, body, _, forest, rfl, rfl, recoversInside [], recovers⟩
  obtain ⟨front, start, back, _, reads, blankFront, blankBack, opener, body, close?, forest, rfl,
    opens, ⟨nestingInside, warningsInside⟩, recovers⟩ :=
      exists_reads_statement (fun _ => header.separated) header.noSpace readsTail rfl
        (dark_head rfl _) gap behind offset
  rw [partsText_header] at reads
  refine ⟨_, reads, fun lead => ?_⟩
  obtain ⟨later, same⟩ := ofPieces_leaves blankFront lead
    ((Forest.ofParts start header.parts).append
      ((Forest.leaves back).append (.block opener body close? forest)))
  obtain ⟨piece, held, ended⟩ := Outline.endsStatement_block blankBack opens body close? forest
  obtain ⟨span, outline⟩ := header.exists_outline ended start later
  obtain ⟨nesting, warnings⟩ := recovers []
  rw [same, outline, held]
  constructor
  · rw [Outline.nesting, nestingInside, Document.nesting, ← nesting]
    rfl
  · rw [Outline.warnings, warningsInside]
    exact warnings

end Cases

/-- **A document is read up to the end of the text or of its block.** -/
theorem isRead (document : Document) {rest : Text} (ends : EndsBefore rest) :
    document.IsRead rest := by
  induction document generalizing rest with
  | done gap => exact isRead_done ends gap
  | last gap line behind => exact isRead_last ends gap line behind
  | item gap line behind others ih => exact isRead_item gap line behind (ih ends)
  | block gap header behind inside others inner outer =>
      refine isRead_block gap header behind (inner ?_) (outer ends)
      intro c member
      exact (Option.some.inj member).symm

/-- The outline of a document holds its statements. -/
theorem recovers (document : Document) : (Outline.ofText document.text).Recovers document := by
  have ended : EndsBefore [] := fun c member => absurd member (Option.not_mem_none c)
  obtain ⟨forest, reads, recovers⟩ := document.isRead ended 0
  rw [Outline.ofText, document.blankLineComments_text, reads.ofText]
  exact recovers []

/-- **The tree of a document is the document.** -/
theorem nesting_stylesheet (document : Document) :
    (Stylesheet.ofText document.text).nesting 0 = document.nesting ∧
      (Stylesheet.ofText document.text).size = 1 + document.nesting.count ∧
      (Outline.ofText document.text).warnings = [] := by
  obtain ⟨nesting, warnings⟩ := document.recovers
  obtain ⟨tree, size⟩ := Stylesheet.nesting_ofText document.text
  rw [nesting] at tree size
  exact ⟨tree, size, warnings⟩

-- The bracket in the line comment closes nothing.
example : (Stylesheet.ofText ".a \x7B // \x7D\n  b: c#\x7B$d\x7D \x7D".toList).nesting 0 =
    .node (.rule ".a".toList)
      (.node (.declaration "b".toList "c#\x7B$d\x7D".toList) .nil .nil) .nil := by
  decide +kernel

end Document

end ScssLint
