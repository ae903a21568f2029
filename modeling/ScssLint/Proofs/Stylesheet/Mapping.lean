import ScssLint.Proofs.Css.Mapping
import ScssLint.Proofs.Rule.Findings
import ScssLint.Proofs.Stylesheet.Cutting
import ScssLint.Proofs.Stylesheet.Sections

/-! # Statements of changed tokens

A change of the tokens that keeps what they are changes no place where a statement is cut
(`Outline.cutStatement_map`), so the changed pieces are read in the same steps
(`Outline.readsBoth_ofPieces`). A passage that stands elsewhere holds the same statements, moved
(`Outline.ofPieces_shift`), and the same is said of them there (`Outline.remarks_shift`).
-/

namespace ScssLint

open Css

namespace Outline

section Cuts

variable {change : Lexeme → Lexeme}

def Ending.map (change : Lexeme → Lexeme) : Ending → Ending
  | block piece => block (piece.map change)
  | semicolon piece => semicolon (piece.map change)
  | nothing => nothing

/-- The cut of the changed pieces. -/
def Cut.map (change : Lexeme → Lexeme) (cut : Cut) : Cut :=
  ⟨cut.before.map (.map change), cut.ending.map change, cut.rest.map (.map change)⟩

/-- **Changed tokens are cut at the same places.** -/
theorem cutStatement_map (keeps : KeepsTokens change) (behindHash : Bool) (pieces : List Piece) :
    cutStatement behindHash (pieces.map (.map change)) =
      (cutStatement behindHash pieces).map change := by
  induction pieces generalizing behindHash with
  | nil => rfl
  | cons piece rest ih =>
      rw [List.map_cons, cutStatement, cutStatement, piece.token_map keeps]
      by_cases ends : piece.token = .semicolon
      · rw [if_pos ends, if_pos ends]
        rfl
      · rw [if_neg ends, if_neg ends]
        by_cases opens : piece.token = .opening .curly ∧ behindHash = false
        · rw [if_pos opens, if_pos opens]
          rfl
        · rw [if_neg opens, if_neg opens, ih]
          rfl

theorem withoutTrailingSpace_map (keeps : KeepsTokens change) (pieces : List Piece) :
    withoutTrailingSpace (pieces.map (.map change)) =
      (withoutTrailingSpace pieces).map (.map change) := by
  have blank : (fun piece : Piece => piece.token == .whitespace) ∘ Piece.map change =
      fun piece => piece.token == .whitespace :=
    funext fun piece => congrArg (· == Token.whitespace) (piece.token_map keeps)
  rw [withoutTrailingSpace, ← List.map_reverse, List.dropWhile_map, blank, ← List.map_reverse,
    withoutTrailingSpace]

end Cuts

end Outline

namespace Outline

/-! ### Two readings -/

/-- The outline of an at-rule without a block. -/
def ofAtRule (name : Text) (first : Piece) (more : List Piece) (rest : Outline) : Outline :=
  node (.atRule name (Text.trim (piecesText more)) false) (extent first more) nil rest

/-- The outline of an at-rule with a block that holds `inside`. -/
def ofAtBlock (name : Text) (first : Piece) (more : List Piece) (block : Piece)
    (inside rest : Outline) : Outline :=
  node (.atRule name (Text.trim (piecesText more)) true) ⟨first.head.start, block.stop⟩ inside rest

/-- The outline of what stands on a line of its own and is no at-rule. -/
def ofLine (first : Piece) (more : List Piece) (rest : Outline) : Outline :=
  match splitDeclaration? (bareText (first :: more)) with
  | some (property, value) => node (.declaration property value) (extent first more) nil rest
  | none => warning (.unknownStatement first.head.start (bareText (first :: more))) rest

/-- The outline of what stands in front of a block that holds `inside`. -/
def ofBlock (first : Piece) (more : List Piece) (block : Piece) (inside rest : Outline) : Outline :=
  let (statement, opened) := blockStatement (bareText (first :: more)) block
  node statement ⟨first.head.start, block.stop⟩ (if opened then inside else nil) rest

/-- Whether one outline is read off some pieces and another one in the same steps off the changed
pieces. -/
inductive ReadsBoth (change : Lexeme → Lexeme) : List Piece → Outline → Outline → Prop
  | done : ReadsBoth change [] nil nil
  | gap {piece : Piece} {rest : List Piece} {outline outline' : Outline} :
      ReadsBoth change rest outline outline' → ReadsBoth change (piece :: rest) outline outline'
  | stray {piece : Piece} {rest : List Piece} {outline outline' : Outline} :
      ReadsBoth change rest outline outline' →
      ReadsBoth change (piece :: rest) (warning (.unmatchedBrace piece.head.start) outline)
        (warning (.unmatchedBrace (change piece.head).start) outline')
  | bare {piece : Piece} {rest : List Piece} {outline outline' : Outline} :
      ReadsBoth change rest outline outline' →
      ReadsBoth change (piece :: rest) (warning (.blockWithoutSelector piece.head.start) outline)
        (warning (.blockWithoutSelector (change piece.head).start) outline')
  | atRule {name : Text} {first : Piece} {more ending rest : List Piece}
      {outline outline' : Outline} :
      ReadsBoth change rest outline outline' →
      ReadsBoth change (first :: more ++ ending ++ rest) (ofAtRule name first more outline)
        (ofAtRule name (first.map change) (more.map (.map change)) outline')
  | atBlock {name : Text} {first block : Piece} {more spaces rest : List Piece}
      {inside inside' outline outline' : Outline} : block.token = .opening .curly →
      ReadsBoth change block.body.pieces inside inside' → ReadsBoth change rest outline outline' →
      ReadsBoth change (first :: more ++ spaces ++ [block] ++ rest)
        (ofAtBlock name first more block inside outline)
        (ofAtBlock name (first.map change) (more.map (.map change)) (block.map change) inside'
          outline')
  | line {first : Piece} {more ending rest : List Piece} {outline outline' : Outline} :
      ReadsBoth change rest outline outline' →
      ReadsBoth change (first :: more ++ ending ++ rest) (ofLine first more outline)
        (ofLine (first.map change) (more.map (.map change)) outline')
  | block {first block : Piece} {more spaces rest : List Piece}
      {inside inside' outline outline' : Outline} : block.token = .opening .curly →
      ReadsBoth change block.body.pieces inside inside' → ReadsBoth change rest outline outline' →
      ReadsBoth change (first :: more ++ spaces ++ [block] ++ rest)
        (ofBlock first more block inside outline)
        (ofBlock (first.map change) (more.map (.map change)) (block.map change) inside' outline')

section Readings

variable {change : Lexeme → Lexeme}

/-- The cut of changed pieces, in parts. -/
theorem cutStatement_changed (keeps : KeepsTokens change) {pieces before rest : List Piece}
    {ending : Ending} (cut : cutStatement false pieces = ⟨before, ending, rest⟩) :
    cutStatement false (pieces.map (.map change)) =
      ⟨before.map (.map change), ending.map change, rest.map (.map change)⟩ := by
  rw [cutStatement_map keeps, cut]
  rfl

theorem Ending.noBlock_map {ending : Ending} (noBlock : ∀ block, ending ≠ .block block) :
    ∀ block, ending.map change ≠ .block block := by
  cases ending with
  | block piece => exact absurd rfl (noBlock piece)
  | semicolon piece => exact fun _ => Ending.noConfusion
  | nothing => exact fun _ => Ending.noConfusion

/-- A statement on a line of its own, whether it is a declaration or not. -/
theorem ofPieces_line {piece : Piece} {before rest later more : List Piece} {ending : Ending}
    (cut : cutStatement false (piece :: rest) = ⟨before, ending, later⟩)
    (starts : startsStatement piece.token = true) (noBlock : ∀ block, ending ≠ .block block)
    (parts : withoutTrailingSpace before = piece :: more) :
    ofPieces (piece :: rest) = ofLine piece more (ofPieces later) := by
  unfold ofLine
  cases declares : splitDeclaration? (bareText (piece :: more)) with
  | none =>
      rw [ofPieces_unknown cut starts noBlock (parts ▸ declares), parts]
  | some found =>
      rw [ofPieces_declaration cut starts noBlock (parts ▸ declares), parts, stopFrom_cons]
      rfl

theorem readsBoth_line (keeps : KeepsTokens change) {piece : Piece} {rest : List Piece}
    (starts : startsStatement piece.token = true)
    (noBlock : ∀ block, (cutStatement false (piece :: rest)).ending ≠ .block block)
    (later : ReadsBoth change (cutStatement false (piece :: rest)).rest
      (ofPieces (cutStatement false (piece :: rest)).rest)
      (ofPieces ((cutStatement false (piece :: rest)).rest.map (.map change)))) :
    ReadsBoth change (piece :: rest) (ofPieces (piece :: rest))
      (ofPieces ((piece :: rest).map (.map change))) := by
  have other {token : Token} (special : startsStatement token = false) : piece.token ≠ token := by
    intro same
    rw [same, special] at starts
    exact Bool.noConfusion starts
  obtain ⟨spaces, _, _, whole⟩ := exists_spaces (piece :: rest)
  obtain ⟨more, kept⟩ := exists_parts (other rfl) (before_ne_nil (other rfl) noBlock)
  have kept' :
      withoutTrailingSpace ((cutStatement false (piece :: rest)).before.map (.map change)) =
        piece.map change :: more.map (.map change) :=
    (withoutTrailingSpace_map keeps _).trans (congrArg _ kept)
  have starts' : startsStatement (piece.map change).token = true := piece.token_map keeps ▸ starts
  rw [kept, List.append_assoc (piece :: more)] at whole
  have both : ReadsBoth change (piece :: more ++
      (spaces ++ (cutStatement false (piece :: rest)).ending.pieces) ++
        (cutStatement false (piece :: rest)).rest) _ _ := .line later
  rw [whole] at both
  rwa [List.map_cons, ofPieces_line rfl starts noBlock kept,
    ofPieces_line (@cutStatement_changed _ keeps (piece :: rest) _ _ _ rfl) starts'
      (Ending.noBlock_map noBlock) kept']

/-- **Changed pieces are read in the same steps**, though not as the same statements. -/
theorem readsBoth_ofPieces (keeps : KeepsTokens change) (pieces : List Piece) :
    ReadsBoth change pieces (ofPieces pieces) (ofPieces (pieces.map (.map change))) := by
  have trimmed (pieces : List Piece) := withoutTrailingSpace_map keeps pieces
  have bodies (block : Piece) : (block.map change).body.pieces =
      block.body.pieces.map (.map change) := by
    rw [Piece.body_map, Forest.pieces_map keeps]
  have same (piece : Piece) : (piece.map change).token = piece.token := piece.token_map keeps
  fun_induction ofPieces pieces with
  | case1 =>
      rw [List.map_nil, ofPieces]
      exact .done
  | case2 piece rest blank ih =>
      rw [List.map_cons, ofPieces_gap (.inl ((same piece).trans blank))]
      exact .gap ih
  | case3 piece rest semicolon ih =>
      rw [List.map_cons, ofPieces_gap (.inr ((same piece).trans semicolon))]
      exact .gap ih
  | case4 piece rest start closes ih =>
      rw [List.map_cons, ofPieces_stray ((same piece).trans closes)]
      exact .stray ih
  | case5 piece rest start name named cut parts params block ending inner later =>
      have cut' : cutStatement false rest = ⟨cut.before, .block block, cut.rest⟩ := by
        rw [← ending]
      obtain ⟨spaces, _, _, (whole : parts ++ spaces ++ cut.ending.pieces ++ cut.rest = rest)⟩ :=
        exists_spaces rest
      have opens := (isBlockBehind_cutStatement ending).1.1
      rw [List.map_cons,
        ofPieces_atBlock ((same piece).trans named) (cutStatement_changed keeps cut'), bodies,
        trimmed, ← whole, ending]
      exact .atBlock opens inner later
  | case6 piece rest start name named cut parts params noBlock later =>
      have cut' : cutStatement false rest = ⟨cut.before, cut.ending, cut.rest⟩ := rfl
      obtain ⟨spaces, _, _, (whole : parts ++ spaces ++ cut.ending.pieces ++ cut.rest = rest)⟩ :=
        exists_spaces rest
      rw [List.map_cons, ofPieces_atRule ((same piece).trans named)
        (cutStatement_changed keeps cut') (Ending.noBlock_map noBlock), trimmed, ← whole,
        List.append_assoc parts]
      exact .atRule later
  | case7 piece rest start cut parts block ending noParts noSpace noSemicolon noClosing noAt
      later =>
      have starts : startsStatement (piece.map change).token = true :=
        same piece ▸ startsStatement_of_other noSpace noSemicolon noClosing noAt
      have cut' : cutStatement false (piece :: rest) = ⟨cut.before, .block block, cut.rest⟩ := by
        rw [← ending]
      have noParts' : withoutTrailingSpace (cut.before.map (.map change)) = [] := by
        rw [trimmed, List.map_eq_nil_iff]
        exact List.isEmpty_iff.1 noParts
      obtain ⟨_, (behind : cut.rest = rest)⟩ := bare_cutStatement noSpace noParts ending
      rw [List.map_cons, ofPieces_bare (cutStatement_changed keeps cut') starts noParts']
      rw [behind] at later ⊢
      exact .bare later
  | case8 piece rest start cut parts text block ending someParts statement opened made noSpace
      noSemicolon noClosing noAt inner later =>
      have starts : startsStatement (piece.map change).token = true :=
        same piece ▸ startsStatement_of_other noSpace noSemicolon noClosing noAt
      have cut' : cutStatement false (piece :: rest) = ⟨cut.before, .block block, cut.rest⟩ := by
        rw [← ending]
      obtain ⟨spaces, _, _, (whole : parts ++ spaces ++ cut.ending.pieces ++ cut.rest = _)⟩ :=
        exists_spaces (piece :: rest)
      have written : cut.before ≠ [] := fun noBefore =>
        someParts (List.isEmpty_iff.2 (congrArg withoutTrailingSpace noBefore))
      obtain ⟨more, kept : parts = piece :: more⟩ := exists_parts noSpace written
      have kept' : withoutTrailingSpace (cut.before.map (.map change)) =
          (piece :: more).map (.map change) := (trimmed _).trans (congrArg _ kept)
      rw [kept, ending] at whole
      rw [List.map_cons, ofPieces_block (cutStatement_changed keeps cut') starts
        (kept' ▸ List.cons_ne_nil _ _) rfl, bodies, kept', ← whole]
      have read : ofBlock piece more block (ofPieces block.body.pieces) (ofPieces cut.rest) =
          node statement ⟨start, block.stop⟩
            (if opened = true then ofPieces block.body.pieces else nil) (ofPieces cut.rest) := by
        rw [ofBlock, ← kept, show blockStatement (bareText parts) block = _ from made]
      rw [← read]
      exact .block (isBlockBehind_cutStatement ending).1.1 inner later
  | case9 piece rest start cut parts text property value declares noSpace noSemicolon noClosing noAt
      noBlock later =>
      have starts := startsStatement_of_other noSpace noSemicolon noClosing noAt
      have both := readsBoth_line keeps starts noBlock later
      rwa [ofPieces_declaration rfl starts noBlock declares] at both
  | case10 piece rest start cut parts text noDeclaration noSpace noSemicolon noClosing noAt noBlock
      later =>
      have starts := startsStatement_of_other noSpace noSemicolon noClosing noAt
      have both := readsBoth_line keeps starts noBlock later
      rwa [ofPieces_unknown rfl starts noBlock noDeclaration] at both

end Readings

end Outline

theorem Span.shift_eq (distance start stop : Nat) :
    (⟨distance + start, distance + stop⟩ : Span) = (⟨start, stop⟩ : Span).shift distance := by
  rw [shift, Nat.add_comm, Nat.add_comm distance stop]

def ParseWarning.shift (distance : Nat) : ParseWarning → ParseWarning
  | unmatchedBrace offset => unmatchedBrace (distance + offset)
  | blockWithoutSelector offset => blockWithoutSelector (distance + offset)
  | unknownStatement offset statement => unknownStatement (distance + offset) statement

namespace Css.Piece

variable (distance : Nat)

theorem text_shift (piece : Piece) : (piece.map (.shift distance)).text = piece.text := by
  rw [text, lexemes_map, List.flatMap_map]
  rfl

theorem bytes_shift (piece : Piece) : (piece.map (.shift distance)).bytes = piece.bytes := by
  rw [← bytes_text, text_shift, bytes_text]

theorem start_shift (piece : Piece) :
    (piece.map (.shift distance)).start = distance + piece.start := by
  obtain ⟨lead, head, block?⟩ := piece
  cases lead <;> rfl

theorem stop_shift (piece : Piece) :
    (piece.map (.shift distance)).stop = distance + piece.stop := by
  rw [stop, start_shift, bytes_shift, stop, Nat.add_assoc]

theorem piecesText_shift (pieces : List Piece) :
    piecesText (pieces.map (.map (.shift distance))) = piecesText pieces := by
  rw [piecesText, List.flatMap_map]
  exact congrArg pieces.flatMap (funext (text_shift distance))

end Css.Piece

namespace Outline

/-- The outline in a text with `distance` more bytes in front. -/
def shift (distance : Nat) : Outline → Outline
  | nil => nil
  | node statement span inside rest =>
      node statement (span.shift distance) (inside.shift distance) (rest.shift distance)
  | warning found rest => warning (found.shift distance) (rest.shift distance)

section Shifts

variable (distance : Nat)

theorem bareText_shift (pieces : List Piece) :
    bareText (pieces.map (.map (.shift distance))) = bareText pieces := by
  cases pieces with
  | nil => rfl
  | cons piece rest =>
      have first := Piece.text_shift distance { piece with lead := [] }
      have others := Piece.piecesText_shift distance rest
      rw [List.map_cons, bareText, others, bareText, ← first]
      rfl

theorem stopFrom_shift (start : Nat) (pieces : List Piece) :
    stopFrom (distance + start) (pieces.map (.map (.shift distance))) =
      distance + stopFrom start pieces := by
  rw [stopFrom, stopFrom, List.getLast?_map]
  cases pieces.getLast? with
  | none => rfl
  | some piece => exact piece.stop_shift distance

theorem blockStatement_shift (text : Text) (block : Piece) :
    blockStatement text (block.map (.shift distance)) = blockStatement text block := by
  have held := bareText_shift distance [block]
  rw [List.map_singleton] at held
  rw [blockStatement, blockStatement, held]

variable {distance}

theorem extent_shift (first : Piece) (more : List Piece) :
    extent (first.map (.shift distance)) (more.map (.map (.shift distance))) =
      (extent first more).shift distance := by
  rw [extent, Piece.stop_shift, stopFrom_shift]
  exact Span.shift_eq distance _ _

theorem ofAtRule_shift (name : Text) (first : Piece) (more : List Piece) (rest : Outline) :
    ofAtRule name (first.map (.shift distance)) (more.map (.map (.shift distance)))
        (rest.shift distance) =
      (ofAtRule name first more rest).shift distance := by
  rw [ofAtRule, extent_shift, Piece.piecesText_shift]
  rfl

theorem ofAtBlock_shift (name : Text) (first : Piece) (more : List Piece) (block : Piece)
    (inside rest : Outline) :
    ofAtBlock name (first.map (.shift distance)) (more.map (.map (.shift distance)))
        (block.map (.shift distance)) (inside.shift distance) (rest.shift distance) =
      (ofAtBlock name first more block inside rest).shift distance := by
  rw [ofAtBlock, Piece.piecesText_shift, Piece.stop_shift]
  exact congrArg (node _ · _ _) (Span.shift_eq distance _ _)

theorem ofLine_shift (first : Piece) (more : List Piece) (rest : Outline) :
    ofLine (first.map (.shift distance)) (more.map (.map (.shift distance)))
        (rest.shift distance) =
      (ofLine first more rest).shift distance := by
  rw [ofLine, ← List.map_cons, bareText_shift, extent_shift, ofLine]
  cases splitDeclaration? (bareText (first :: more)) <;> rfl

theorem ofBlock_shift (first : Piece) (more : List Piece) (block : Piece)
    (inside rest : Outline) :
    ofBlock (first.map (.shift distance)) (more.map (.map (.shift distance)))
        (block.map (.shift distance)) (inside.shift distance) (rest.shift distance) =
      (ofBlock first more block inside rest).shift distance := by
  rw [ofBlock, ← List.map_cons, bareText_shift, blockStatement_shift, Piece.stop_shift, ofBlock]
  obtain ⟨statement, opened⟩ := blockStatement (bareText (first :: more)) block
  cases opened <;> exact congrArg (node _ · _ _) (Span.shift_eq distance _ _)

/-- What is read off moved pieces is moved. -/
theorem ReadsBoth.eq_shift {pieces : List Piece} {outline outline' : Outline}
    (both : ReadsBoth (.shift distance) pieces outline outline') :
    outline' = outline.shift distance := by
  induction both with
  | done => rfl
  | gap _ ih => exact ih
  | stray _ ih | bare _ ih =>
      rw [ih]
      rfl
  | atRule _ ih => rw [ih, ofAtRule_shift]
  | atBlock _ _ _ inner later => rw [inner, later, ofAtBlock_shift]
  | line _ ih => rw [ih, ofLine_shift]
  | block _ _ _ inner later => rw [inner, later, ofBlock_shift]

/-- **A passage that stands elsewhere holds the same statements, moved.** -/
theorem ofPieces_shift (pieces : List Piece) :
    ofPieces (pieces.map (.map (.shift distance))) = (ofPieces pieces).shift distance :=
  (readsBoth_ofPieces (keepsTokens_shift distance) pieces).eq_shift

end Shifts

end Outline

/-- Whether the same is said of a statement wherever it stands. -/
def MovesAlong (remark : Remark) : Prop :=
  ∀ (distance : Nat) (enclosing? : Option Text) (isTop : Bool) (statement : Statement)
    (start : Nat), remark enclosing? isTop statement (distance + start) =
      (remark enclosing? isTop statement start).map (.shift distance)

/-- **The same is said of statements that are moved**, at the place to which they are moved. -/
theorem Outline.remarks_shift {remark : Remark} (moves : MovesAlong remark) (distance : Nat)
    (enclosing? : Option Text) (isTop : Bool) (outline : Outline) :
    (outline.shift distance).remarks remark enclosing? isTop =
      (outline.remarks remark enclosing? isTop).map (.shift distance) := by
  induction outline generalizing enclosing? isTop with
  | nil => rfl
  | node statement span inside rest inner later =>
      have own : remark enclosing? isTop statement (span.shift distance).start =
          (remark enclosing? isTop statement span.start).map (.shift distance) := by
        rw [← moves]
        exact congrArg _ (Nat.add_comm span.start distance)
      rw [shift, remarks, remarks, own, inner, later, List.map_append, List.map_append]
  | warning found rest later => exact later enclosing? isTop

theorem SelectorNoUnionClassName.movesAlong_remark : MovesAlong remark := by
  intro distance enclosing? isTop statement start
  unfold remark
  split
  · split
    · unfold ruleRemark
      split
      · rfl
      · split
        · rfl
        · rw [List.map_map]
          refine List.map_congr_left fun ref _ => ?_
          simp only [Function.comp, Finding.shift, Nat.add_assoc]
    · rfl
  · rfl

end ScssLint
