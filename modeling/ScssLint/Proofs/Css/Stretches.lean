import ScssLint.Proofs.Css.Fitting
import ScssLint.Proofs.Css.Respelling
import ScssLint.Proofs.Css.Seams

/-! # Stretches of pieces

A stretch is a sequence of pieces that stand next to each other in a text, inside a block of some
kind (`Css.Stretch`). The pieces of a text are one (`Css.exists_stretch_ofText`). A stretch that is
written elsewhere is read as the same pieces if what follows it there follows it as in the text
(`Css.Stretch.exists_piecesIn`).
-/

namespace ScssLint

namespace Css

/-- The token in the text that starts at `there` instead of `here`. -/
def Lexeme.moved (here there : Nat) (lexeme : Lexeme) : Lexeme :=
  { lexeme with start := there + (lexeme.start - here) }

theorem keepsTokens_moved (here there : Nat) : KeepsTokens (.moved here there) :=
  fun _ => rfl

theorem lexemesFrom_moved (here there : Nat) (text : Text) :
    lexemesFrom there text = (lexemesFrom here text).map (.moved here there) := by
  rw [lexemesFrom_eq_map here, lexemesFrom_eq_map there, List.map_map]
  refine List.map_congr_left fun lexeme _ => ?_
  simp only [Function.comp, Lexeme.shift, Lexeme.moved, Nat.add_sub_cancel_left]

theorem spelling_moved (here there : Nat) (tokens : List Lexeme) :
    spelling (tokens.map (.moved here there)) = spelling tokens := by
  rw [spelling, List.flatMap_map]
  rfl

theorem spelling_lexemes (pieces : List Piece) :
    spelling (pieces.flatMap Piece.lexemes) = piecesText pieces := by
  rw [spelling, List.flatMap_assoc]
  rfl

theorem piecesText_moved (here there : Nat) (pieces : List Piece) :
    piecesText (pieces.map (.map (.moved here there))) = piecesText pieces := by
  rw [← spelling_lexemes, ← spelling_lexemes, List.flatMap_map]
  have lexemes : pieces.flatMap (fun piece => (piece.map (.moved here there)).lexemes) =
      (pieces.flatMap Piece.lexemes).map (.moved here there) := by
    simp only [Piece.lexemes_map, List.map_flatMap]
  rw [lexemes, spelling_moved]

/-- Whether nothing in a text is left open, neither a token nor a block. -/
def isWhole (text : Text) : Bool :=
  (lexemes text).all Lexeme.isFinished && (Forest.ofText text).isShut

/-- Whether some tokens are those that a text is cut into. -/
def AreCut (tokens : List Lexeme) : Prop :=
  ∃ offset, lexemesFrom offset (spelling tokens) = tokens

theorem areCut_lexemes (text : Text) : AreCut (lexemes text) :=
  ⟨0, congrArg (lexemesFrom 0) (spelling_lexemesFrom 0 text)⟩

theorem AreCut.tail {tokens more : List Lexeme} (cut : AreCut (tokens ++ more)) : AreCut more := by
  obtain ⟨offset, cut⟩ := cut
  exact ⟨_, (lexemesFrom_split cut).symm⟩

/-- A forest that is written elsewhere is read as the same forest, if it does not go on into what
follows it there and nothing is left open in it. -/
theorem exists_readsIn {opened : List Bracket} {forest : Forest} {trail : List Lexeme} {next : Text}
    (fits : forest.FitsIn opened.head?) (cut : AreCut (forest.lexemes ++ trail))
    (shut : forest.isShut = true) (finished : ∀ lexeme ∈ forest.lexemes, lexeme.isFinished = true)
    (settled : IsSettled forest.text next) (follows : Follows (spelling trail) next)
    (dark : ∀ last ∈ forest.lexemes.getLast?, last.isDark) (offset : Nat) :
    ∃ here, ReadsIn opened offset forest.text next (forest.map (.moved here offset)) := by
  obtain ⟨here, cut⟩ := cut
  have found : lexemesFrom offset (forest.text ++ spelling trail) =
      forest.lexemes.map (.moved here offset) ++
        lexemesFrom (offset + Text.bytes forest.text) (spelling trail) := by
    have whole := lexemesFrom_moved here offset (spelling (forest.lexemes ++ trail))
    rw [cut, List.map_append] at whole
    have behind := lexemesFrom_split whole
    rw [spelling_moved, spelling_moved] at behind
    change _ = lexemesFrom (offset + Text.bytes forest.text) _ at behind
    rw [← behind, ← whole, spelling_append]
    rfl
  refine ⟨here, .of_fitsIn ?_ (fits.map (keepsTokens_moved here offset)) (.inl ?_)⟩
  · rw [Forest.lexemes_map]
    refine lexemesFrom_follows settled follows found (fun last isLast => ?_)
      fun lexeme member => .inl ?_
    · rw [List.getLast?_map, Option.mem_def, Option.map_eq_some_iff] at isLast
      obtain ⟨old, isLast, rfl⟩ := isLast
      exact dark old isLast
    · obtain ⟨old, among, rfl⟩ := List.mem_map.1 member
      exact finished old among
  · rw [Forest.isShut_map, shut]

/-- Whether some pieces stand inside a block of the kind `inside?`, or outside all blocks, with the
tokens `trail` behind them. -/
structure Stretch (inside? : Option Bracket) (pieces : List Piece) (trail : List Lexeme) : Prop where
  fits : (Forest.ofPieces pieces).FitsIn inside?
  proper : ∀ piece ∈ pieces, piece.IsProper
  cut : AreCut (pieces.flatMap Piece.lexemes ++ trail)
  shut : (Forest.ofPieces pieces).isShut = true ∨ trail = []

/-- The pieces of a forest, with the comments behind the last of them. -/
theorem exists_stretch {inside? : Option Bracket} {forest : Forest} {behind : List Lexeme}
    (fits : forest.FitsIn inside?) (cut : AreCut (forest.lexemes ++ behind))
    (shut : forest.isShut = true ∨ behind = []) :
    ∃ last, (∀ lexeme ∈ last, lexeme.token = .comment) ∧
      Stretch inside? forest.pieces (last ++ behind) := by
  obtain ⟨last, whole, comments, proper⟩ := forest.exists_ofPieces (List.forall_mem_nil _)
  change forest = (Forest.ofPieces forest.pieces).append (Forest.leaves last) at whole
  have lexemes : forest.lexemes = forest.pieces.flatMap Piece.lexemes ++ last := by
    have spelled := congrArg Forest.lexemes whole
    rwa [Forest.lexemes_append, Forest.lexemes_ofPieces, Forest.lexemes_leaves] at spelled
  rw [whole] at fits shut
  rw [Forest.isShut_append, Bool.and_eq_true] at shut
  obtain ⟨front, _, ends⟩ := fits.split
  rw [lexemes, List.append_assoc] at cut
  refine ⟨last, comments, front, proper, cut, ?_⟩
  rcases ends with isShut | nothing
  · exact .inl isShut
  · refine shut.imp And.left fun noBehind => ?_
    have none := Forest.lexemes_leaves last
    rw [nothing] at none
    rw [noBehind, ← none]
    rfl

/-- **The pieces of a text are a stretch.** -/
theorem exists_stretch_ofText (text : Text) :
    ∃ last, (∀ lexeme ∈ last, lexeme.token = .comment) ∧
      Stretch none (Forest.ofText text).pieces last := by
  have cut : AreCut ((Forest.ofText text).lexemes ++ []) := by
    rw [List.append_nil, Forest.ofText, Forest.lexemes_ofLexemes]
    exact areCut_lexemes text
  obtain ⟨last, comments, stretch⟩ := exists_stretch (Forest.fitsIn_ofLexemes _) cut (.inr rfl)
  rw [List.append_nil] at stretch
  exact ⟨last, comments, stretch⟩

namespace Stretch

variable {inside? : Option Bracket} {pieces more : List Piece} {piece : Piece} {trail : List Lexeme}

/-- The second part of a stretch stands behind the first one. -/
theorem split (stretch : Stretch inside? (pieces ++ more) trail) :
    Stretch inside? pieces (more.flatMap Piece.lexemes ++ trail) ∧
      Stretch inside? more trail := by
  obtain ⟨fits, proper, cut, shut⟩ := stretch
  rw [Forest.ofPieces_append] at fits shut
  rw [Forest.isShut_append, Bool.and_eq_true] at shut
  obtain ⟨front, back, ends⟩ := fits.split
  obtain ⟨properFront, properBack⟩ := List.forall_mem_append.1 proper
  rw [List.flatMap_append, List.append_assoc] at cut
  refine ⟨⟨front, properFront, cut, ?_⟩, back, properBack, cut.tail, shut.imp_left And.right⟩
  rcases ends with isShut | nothing
  · exact .inl isShut
  · refine shut.imp And.left fun noTrail => ?_
    have none := Forest.lexemes_ofPieces more
    rw [nothing] at none
    rw [noTrail, ← none]
    rfl

/-- A stretch without the comments in front of it. -/
theorem bare (stretch : Stretch inside? (piece :: more) trail) :
    Stretch inside? ({ piece with lead := [] } :: more) trail := by
  obtain ⟨fits, proper, cut, shut⟩ := stretch
  obtain ⟨first, others⟩ := List.forall_mem_cons.1 proper
  rw [List.flatMap_cons, Piece.lexemes_eq, List.append_assoc, List.append_assoc] at cut
  rw [Forest.ofPieces_cons, Forest.behindPiece, Forest.isShut_append, Bool.and_eq_true] at shut
  refine ⟨fits.split.2.1, List.forall_mem_cons.2 ⟨⟨List.forall_mem_nil _, first.single⟩, others⟩,
    ?_, shut.imp_left And.right⟩
  rw [List.flatMap_cons, List.append_assoc]
  exact cut.tail

/-- The last token of a single piece that is closed. -/
theorem exists_last (stretch : Stretch inside? [piece] trail)
    (shut : (Forest.ofPieces [piece]).isShut = true) (dark : piece.token ≠ .whitespace) :
    ∃ front last, piece.lexemes = front ++ [last] ∧ last.isDark := by
  have fits := stretch.bare.fits
  rw [Forest.ofPieces_cons, Forest.behindPiece, Forest.isShut_append, Bool.and_eq_true] at shut
  obtain ⟨_, shut⟩ := shut
  obtain ⟨lead, head, block?⟩ := piece
  rcases block? with _ | ⟨body, _ | close⟩
  · refine ⟨lead, head, rfl, dark, fun named function => ?_⟩
    cases fits with
    | leaf opensNone _ _ =>
        change head.token.opens? = none at opensNone
        rw [function] at opensNone
        exact absurd opensNone (Option.some_ne_none _)
  · exact Bool.noConfusion shut
  · obtain ⟨bracket, _, _, closes, _⟩ := fits.block_inv
    have isClose := Token.eq_closing (closes close rfl).1
    refine ⟨lead ++ head :: body.lexemes, close, ?_, ?_, fun named => ?_⟩
    · simp [Piece.lexemes]
    · rw [isClose]
      exact Token.noConfusion
    · rw [isClose]
      exact Token.noConfusion

/-- The last token of a closed stretch neither is white space nor starts a function. -/
theorem isDark_getLast? (stretch : Stretch inside? pieces trail)
    (shut : (Forest.ofPieces pieces).isShut = true)
    (dark : ∀ last ∈ pieces.getLast?, last.token ≠ .whitespace) :
    ∀ last ∈ (pieces.flatMap Piece.lexemes).getLast?, last.isDark := by
  intro last isLast
  rcases List.eq_nil_or_concat pieces with rfl | ⟨front, piece, rfl⟩
  · exact absurd isLast (Option.not_mem_none _)
  · rw [List.concat_eq_append] at stretch shut dark isLast
    rw [Forest.ofPieces_append, Forest.isShut_append, Bool.and_eq_true] at shut
    obtain ⟨before, found, own, isDark⟩ := stretch.split.2.exists_last shut.2
      (dark piece (by rw [List.getLast?_concat]; rfl))
    rw [List.flatMap_append, List.flatMap_singleton, own, ← List.append_assoc,
      List.getLast?_concat] at isLast
    obtain rfl := Option.some.inj isLast
    exact isDark

/-- **A stretch that is written elsewhere is read as the same pieces**, if it does not go on into
what follows it there and nothing is left open in it. -/
theorem exists_piecesIn {opened : List Bracket} {next : Text}
    (stretch : Stretch opened.head? pieces trail)
    (shut : (Forest.ofPieces pieces).isShut = true)
    (finished : ∀ lexeme ∈ pieces.flatMap Piece.lexemes, lexeme.isFinished = true)
    (settled : IsSettled (piecesText pieces) next) (follows : Follows (spelling trail) next)
    (dark : ∀ last ∈ pieces.getLast?, last.token ≠ .whitespace) (offset : Nat) :
    ∃ here, PiecesIn opened offset (piecesText pieces) next
      (pieces.map (.map (.moved here offset))) := by
  have spelled : (Forest.ofPieces pieces).text = piecesText pieces := by
    rw [← spelling_lexemes, ← Forest.lexemes_ofPieces]
    rfl
  have cut := stretch.cut
  have last := stretch.isDark_getLast? shut dark
  rw [← Forest.lexemes_ofPieces] at cut finished last
  rw [← spelled] at settled
  obtain ⟨here, reads⟩ := exists_readsIn stretch.fits cut shut finished settled follows last offset
  rw [spelled, Forest.ofPieces_map] at reads
  refine ⟨here, _, reads, Forest.pieces_ofPieces_append fun piece member => ?_⟩
  obtain ⟨old, among, rfl⟩ := List.mem_map.1 member
  exact (stretch.proper old among).map (keepsTokens_moved here offset)

end Stretch

end Css

end ScssLint
