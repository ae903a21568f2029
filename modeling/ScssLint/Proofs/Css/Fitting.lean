import ScssLint.Proofs.Css.Mapping
import ScssLint.Proofs.Css.Passages
import ScssLint.Proofs.Css.Pieces

/-! # Forests inside a block

What stands directly inside a block holds no bracket that closes the block, and a block that is not
closed comes last in it (`Css.Forest.FitsIn`). The blocks of a text are like that
(`Css.Forest.fitsIn_ofLexemes`), and the tokens of such a forest are grouped in the same way inside
any block of the same kind (`Css.Forest.FitsIn.levels_append`). So a text is read as some pieces
inside open blocks wherever its tokens are found (`Css.PiecesIn`).
-/

namespace ScssLint

namespace Css

namespace Forest

/-- Whether every block of a forest is closed. -/
def isShut : Forest → Bool
  | nil => true
  | leaf _ rest => rest.isShut
  | block _ body close? rest => close?.isSome && body.isShut && rest.isShut

/-- Whether a forest can stand directly inside a block of the kind `inside?`, or outside all blocks:
no bracket of it closes the block, and nothing stands behind a block that is not closed. -/
inductive FitsIn : Option Bracket → Forest → Prop
  | nil {inside? : Option Bracket} : FitsIn inside? nil
  | leaf {inside? : Option Bracket} {lexeme : Lexeme} {rest : Forest} :
      lexeme.token.opens? = none →
      (∀ bracket ∈ inside?, lexeme.token.closes? ≠ some bracket) → FitsIn inside? rest →
      FitsIn inside? (leaf lexeme rest)
  | closed {inside? : Option Bracket} {opener close : Lexeme} {body rest : Forest}
      {bracket : Bracket} : opener.token.opens? = some bracket →
      close.token.closes? = some bracket → FitsIn (some bracket) body → body.isShut = true →
      FitsIn inside? rest → FitsIn inside? (block opener body (some close) rest)
  | unclosed {inside? : Option Bracket} {opener : Lexeme} {body : Forest} {bracket : Bracket} :
      opener.token.opens? = some bracket → FitsIn (some bracket) body →
      FitsIn inside? (block opener body none nil)

variable {inside? : Option Bracket} {forest behind : Forest}

theorem isShut_append (forest behind : Forest) :
    (forest.append behind).isShut = (forest.isShut && behind.isShut) := by
  induction forest with
  | nil => rfl
  | leaf lexeme rest ih => exact ih
  | block opener body close? rest _ ih =>
      rw [append, isShut, ih, isShut]
      exact (Bool.and_assoc _ _ _).symm

theorem isShut_map (change : Lexeme → Lexeme) (forest : Forest) :
    (forest.map change).isShut = forest.isShut := by
  induction forest with
  | nil => rfl
  | leaf lexeme rest ih => exact ih
  | block opener body close? rest inner later =>
      rw [map, isShut, inner, later, isShut, Option.isSome_map]

namespace FitsIn

theorem map {change : Lexeme → Lexeme} (keeps : KeepsTokens change)
    (fits : FitsIn inside? forest) : FitsIn inside? (forest.map change) := by
  induction fits with
  | nil => exact .nil
  | leaf opensNone apart _ ih => exact .leaf ((keeps _).symm ▸ opensNone) ((keeps _).symm ▸ apart) ih
  | closed opens closes _ shut _ inner later =>
      exact .closed ((keeps _).symm ▸ opens) ((keeps _).symm ▸ closes) inner
        ((isShut_map change _).trans shut) later
  | unclosed opens _ inner => exact .unclosed ((keeps _).symm ▸ opens) inner

/-- What fits inside a block fits outside all blocks, too. -/
theorem outside (fits : FitsIn inside? forest) : FitsIn none forest := by
  induction fits with
  | nil => exact .nil
  | leaf opensNone _ _ ih =>
      exact .leaf opensNone (fun bracket none => absurd none (Option.not_mem_none _)) ih
  | closed opens closes body shut _ _ ih => exact .closed opens closes body shut ih
  | unclosed opens body _ => exact .unclosed opens body

/-- What is known of a block and what stands behind it. -/
theorem block_inv {opener : Lexeme} {body rest : Forest} {close? : Option Lexeme}
    (fits : FitsIn inside? (block opener body close? rest)) :
    ∃ bracket, opener.token.opens? = some bracket ∧ FitsIn (some bracket) body ∧
      (∀ close ∈ close?, close.token.closes? = some bracket ∧ body.isShut = true) ∧
      (close? = none → rest = Forest.nil) ∧ FitsIn inside? rest := by
  cases fits with
  | @closed _ _ close _ _ bracket opens closes body shut rest =>
      refine ⟨bracket, opens, body, fun found member => ?_,
        fun none => absurd none (Option.some_ne_none _), rest⟩
      obtain rfl := Option.some.inj member
      exact ⟨closes, shut⟩
  | @unclosed _ _ _ bracket opens body =>
      exact ⟨bracket, opens, body, fun close member => absurd member (Option.not_mem_none _),
        fun _ => rfl, .nil⟩

/-- The two parts of a forest. The first one is closed if there is a second one. -/
theorem split (fits : FitsIn inside? (forest.append behind)) :
    FitsIn inside? forest ∧ FitsIn inside? behind ∧ (forest.isShut = true ∨ behind = Forest.nil) := by
  induction forest with
  | nil => exact ⟨.nil, fits, .inl rfl⟩
  | leaf lexeme rest ih =>
      cases fits with
      | leaf opensNone apart fits =>
          obtain ⟨first, second, shut⟩ := ih fits
          exact ⟨.leaf opensNone apart first, second, shut⟩
  | block opener body close? rest _ ih =>
      rw [append] at fits
      generalize same : rest.append behind = later at fits
      cases fits with
      | closed opens closes bodyFits bodyShut fits =>
          obtain ⟨first, second, shut⟩ := ih (same ▸ fits)
          refine ⟨.closed opens closes bodyFits bodyShut first, second, shut.imp_left fun shut => ?_⟩
          rw [isShut, bodyShut, shut]
          rfl
      | unclosed opens bodyFits =>
          cases rest with
          | nil =>
              obtain rfl : behind = Forest.nil := same
              exact ⟨.unclosed opens bodyFits, .nil, .inr rfl⟩
          | leaf lexeme rest => cases same
          | block opener body close? rest => cases same

/-- **The tokens of such a forest are grouped in the same way** in front of other tokens, or of none
if a block is not closed. -/
theorem levels_append (fits : FitsIn inside? forest) {opened : List Bracket}
    {rest : List Lexeme} (within : opened.head? = inside?) (ends : forest.isShut = true ∨ rest = []) :
    levels opened (forest.lexemes ++ rest) =
      (forest.append (levels opened rest).1, (levels opened rest).2) := by
  induction fits generalizing opened rest with
  | nil => rfl
  | @leaf inside? lexeme tail opensNone apart _ ih =>
      rw [lexemes, List.cons_append, levels_stray opensNone (within ▸ apart), ih within ends]
      rfl
  | @closed inside? opener close body tail bracket opens closes _ bodyShut _ inner later =>
      have tailEnds : tail.isShut = true ∨ rest = [] := by
        refine ends.imp_left fun shut => ?_
        rw [isShut, bodyShut] at shut
        exact shut
      have order : (block opener body (some close) tail).lexemes ++ rest =
          opener :: (body.lexemes ++ close :: (tail.lexemes ++ rest)) := by
        simp [lexemes]
      have inside := @inner (bracket :: opened) (close :: (tail.lexemes ++ rest)) rfl (.inl bodyShut)
      rw [levels_close closes, later within tailEnds, append_nil] at inside
      rw [order, levels_open opens inside, append]
  | @unclosed inside? opener body bracket opens _ inner =>
      obtain rfl : rest = [] := ends.resolve_left Bool.noConfusion
      have order : (block opener body none Forest.nil).lexemes = opener :: body.lexemes := by
        simp [lexemes]
      have inside : levels (bracket :: opened) (body.lexemes ++ []) = _ := inner rfl (.inr rfl)
      rw [List.append_nil, levels, append_nil] at inside
      rw [order, List.append_nil, levels_open opens inside]
      rfl

end FitsIn

/-- Whether what stands inside open blocks fits there. A block is closed if something stands behind
it. -/
def AreFit : List Bracket → Forest → List (Option Lexeme × Forest) → Prop
  | [], forest, [] => FitsIn none forest
  | bracket :: opened, forest, (close?, inner) :: outer =>
      FitsIn (some bracket) forest ∧
        (∀ close ∈ close?, close.token.closes? = some bracket ∧ forest.isShut = true) ∧
        (close? = none → inner = nil ∧ ∀ entry ∈ outer, entry = (none, nil)) ∧
        AreFit opened inner outer
  | _, _, _ => False

theorem areFit_nil (opened : List Bracket) :
    AreFit opened nil (opened.map fun _ => (none, nil)) := by
  induction opened with
  | nil => exact .nil
  | cons bracket opened ih =>
      refine ⟨.nil, fun close member => absurd member (Option.not_mem_none close),
        fun _ => ⟨rfl, fun entry member => ?_⟩, ih⟩
      obtain ⟨_, _, rfl⟩ := List.mem_map.1 member
      rfl

/-- Something in front of the innermost forest. -/
theorem AreFit.front {opened : List Bracket} {forest longer : Forest}
    {outer : List (Option Lexeme × Forest)} (fit : AreFit opened forest outer)
    (fits : FitsIn opened.head? forest → FitsIn opened.head? longer)
    (shut : forest.isShut = true → longer.isShut = true) : AreFit opened longer outer := by
  cases opened with
  | nil =>
      cases outer with
      | nil => exact fits fit
      | cons entry outer => exact fit.elim
  | cons bracket opened =>
      cases outer with
      | nil => exact fit.elim
      | cons entry outer =>
          obtain ⟨inside, closes, last, behind⟩ := fit
          exact ⟨fits inside, fun close member => (closes close member).imp_right shut, last, behind⟩

theorem areFit_levels (opened : List Bracket) (tokens : List Lexeme) :
    AreFit opened (levels opened tokens).1 (levels opened tokens).2 := by
  induction tokens generalizing opened with
  | nil => exact areFit_nil opened
  | cons lexeme rest ih =>
      unfold levels
      split
      · rename_i closes
        cases opened with
        | nil => exact Bool.noConfusion closes.1
        | cons bracket opened =>
            refine ⟨.nil, fun close member => ?_, fun none => absurd none (Option.some_ne_none _),
              ih opened⟩
            obtain rfl := Option.some.inj member
            exact ⟨closes.2, rfl⟩
      · rename_i stays
        split
        · rename_i opensNone
          refine (ih opened).front (.leaf opensNone fun bracket inside closes => ?_) id
          exact stays ⟨Option.isSome_iff_exists.2 ⟨bracket, inside⟩, closes.trans inside.symm⟩
        · rename_i bracket opens
          have found := ih (bracket :: opened)
          split
          · rename_i body close? inner outer read
            rw [read] at found
            obtain ⟨inside, closes, last, behind⟩ := found
            cases close? with
            | some close =>
                obtain ⟨isClose, shut⟩ := closes close rfl
                refine behind.front (.closed opens isClose inside shut) fun shut' => ?_
                rw [isShut, shut, shut']
                rfl
            | none =>
                obtain ⟨rfl, empty⟩ := last rfl
                dsimp only
                cases opened with
                | nil =>
                    cases outer with
                    | nil => exact .unclosed opens inside
                    | cons entry outer => exact behind.elim
                | cons bracket' opened =>
                    cases outer with
                    | nil => exact behind.elim
                    | cons entry outer =>
                        obtain ⟨rfl, empty⟩ := List.forall_mem_cons.1 empty
                        obtain ⟨_, _, last', behind⟩ := behind
                        exact ⟨.unclosed opens inside,
                          fun close member => absurd member (Option.not_mem_none close), last', behind⟩
          · rename_i body read
            rw [read] at found
            exact found.elim

/-- **The blocks of some tokens fit where they stand.** -/
theorem fitsIn_ofLexemes (tokens : List Lexeme) : FitsIn none (ofLexemes tokens) := by
  have fit := areFit_levels [] tokens
  have none := length_levels [] tokens
  rw [List.length_nil, List.length_eq_zero_iff] at none
  rw [none] at fit
  exact fit

/-- A piece in front of a forest. -/
def behindPiece (piece : Piece) (behind : Forest) : Forest :=
  (leaves piece.lead).append
    (match piece.block? with
      | none => leaf piece.head behind
      | some (body, close?) => block piece.head body close? behind)

/-- The forest of some pieces. -/
def ofPieces (pieces : List Piece) : Forest :=
  pieces.foldr behindPiece nil

theorem append_behindPiece (piece : Piece) (forest behind : Forest) :
    (behindPiece piece forest).append behind = behindPiece piece (forest.append behind) := by
  obtain ⟨lead, head, block?⟩ := piece
  cases block? <;> exact append_assoc _ _ _

theorem lexemes_behindPiece (piece : Piece) (behind : Forest) :
    (behindPiece piece behind).lexemes = piece.lexemes ++ behind.lexemes := by
  obtain ⟨lead, head, block?⟩ := piece
  cases block? <;> simp [behindPiece, lexemes_append, Piece.lexemes, lexemes]

theorem ofPieces_cons (piece : Piece) (pieces : List Piece) :
    ofPieces (piece :: pieces) = behindPiece piece (ofPieces pieces) := rfl

theorem ofPieces_append (first second : List Piece) :
    ofPieces (first ++ second) = (ofPieces first).append (ofPieces second) := by
  induction first with
  | nil => rfl
  | cons piece first ih =>
      rw [List.cons_append, ofPieces_cons, ih, ofPieces_cons, append_behindPiece]

theorem lexemes_ofPieces (pieces : List Piece) :
    (ofPieces pieces).lexemes = pieces.flatMap Piece.lexemes := by
  induction pieces with
  | nil => rfl
  | cons piece pieces ih => rw [ofPieces_cons, lexemes_behindPiece, ih, List.flatMap_cons]

theorem map_append (change : Lexeme → Lexeme) (forest behind : Forest) :
    (forest.append behind).map change = (forest.map change).append (behind.map change) := by
  induction forest with
  | nil => rfl
  | leaf lexeme rest ih => rw [append, map, ih, map, append]
  | block opener body close? rest _ ih => rw [append, map, ih, map, append]

theorem leaves_append (first second : List Lexeme) :
    leaves (first ++ second) = (leaves first).append (leaves second) := by
  induction first with
  | nil => rfl
  | cons lexeme first ih =>
      change leaf lexeme (leaves (first ++ second)) = _
      rw [ih]
      rfl

theorem map_leaves (change : Lexeme → Lexeme) (tokens : List Lexeme) :
    (leaves tokens).map change = leaves (tokens.map change) := by
  induction tokens with
  | nil => rfl
  | cons lexeme tokens ih =>
      change leaf (change lexeme) ((leaves tokens).map change) = _
      rw [ih]
      rfl

theorem ofPieces_map (change : Lexeme → Lexeme) (pieces : List Piece) :
    (ofPieces pieces).map change = ofPieces (pieces.map (.map change)) := by
  induction pieces with
  | nil => rfl
  | cons piece pieces ih =>
      obtain ⟨lead, head, block?⟩ := piece
      rw [List.map_cons, ofPieces_cons, ofPieces_cons, ← ih, behindPiece, map_append, map_leaves]
      cases block? <;> rfl

end Forest

/-- Whether comments stand in front of a piece, and the piece is none. -/
structure Piece.IsProper (piece : Piece) : Prop where
  lead : ∀ lexeme ∈ piece.lead, lexeme.token = .comment
  single : piece.block? = none → piece.token ≠ .comment

theorem Piece.IsProper.map {change : Lexeme → Lexeme} {piece : Piece} (keeps : KeepsTokens change)
    (proper : piece.IsProper) : (piece.map change).IsProper := by
  refine ⟨fun lexeme member => ?_, fun none => ?_⟩
  · obtain ⟨old, among, rfl⟩ := List.mem_map.1 member
    exact (keeps old).trans (proper.lead old among)
  · rw [Piece.token_map keeps]
    exact proper.single (Option.map_eq_none_iff.1 none)

namespace Forest

theorem piecesBehind_comments {tokens : List Lexeme}
    (comments : ∀ lexeme ∈ tokens, lexeme.token = .comment) (lead : List Lexeme) (behind : Forest) :
    ((leaves tokens).append behind).piecesBehind lead = behind.piecesBehind (lead ++ tokens) := by
  induction tokens generalizing lead with
  | nil =>
      rw [List.append_nil]
      rfl
  | cons lexeme tokens ih =>
      obtain ⟨isComment, others⟩ := List.forall_mem_cons.1 comments
      change (leaf lexeme ((leaves tokens).append behind)).piecesBehind lead = _
      rw [piecesBehind, if_pos isComment, ih others, List.append_assoc]
      rfl

theorem pieces_behindPiece {piece : Piece} (proper : piece.IsProper) (behind : Forest) :
    (behindPiece piece behind).pieces = piece :: behind.pieces := by
  rw [behindPiece, pieces, piecesBehind_comments proper.lead]
  obtain ⟨lead, head, block?⟩ := piece
  cases block? with
  | none => exact if_neg (proper.single rfl)
  | some block => rfl

theorem pieces_ofPieces_append {pieces : List Piece} (proper : ∀ piece ∈ pieces, piece.IsProper)
    (behind : Forest) : ((ofPieces pieces).append behind).pieces = pieces ++ behind.pieces := by
  induction pieces with
  | nil => rfl
  | cons piece pieces ih =>
      obtain ⟨first, others⟩ := List.forall_mem_cons.1 proper
      rw [ofPieces_cons, append_behindPiece, pieces_behindPiece first, ih others, List.cons_append]

/-- **A forest consists of its pieces and comments behind the last of them.** -/
theorem exists_ofPieces (forest : Forest) {lead : List Lexeme}
    (comments : ∀ lexeme ∈ lead, lexeme.token = .comment) :
    ∃ last, (leaves lead).append forest =
        (ofPieces (forest.piecesBehind lead)).append (leaves last) ∧
      (∀ lexeme ∈ last, lexeme.token = .comment) ∧
      ∀ piece ∈ forest.piecesBehind lead, piece.IsProper := by
  induction forest generalizing lead with
  | nil => exact ⟨lead, append_nil _, comments, List.forall_mem_nil _⟩
  | leaf lexeme rest ih =>
      unfold piecesBehind
      split
      · rename_i isComment
        obtain ⟨last, whole, areComments, proper⟩ := ih (List.forall_mem_append.2
          ⟨comments, List.forall_mem_singleton.2 isComment⟩)
        refine ⟨last, ?_, areComments, proper⟩
        rw [← whole, leaves_append, append_assoc]
        rfl
      · rename_i noComment
        obtain ⟨last, whole, areComments, proper⟩ := ih (List.forall_mem_nil _)
        refine ⟨last, ?_, areComments, List.forall_mem_cons.2 ⟨⟨comments, fun _ => noComment⟩, proper⟩⟩
        rw [ofPieces_cons, append_behindPiece, ← whole]
        rfl
  | block opener body close? rest _ ih =>
      obtain ⟨last, whole, areComments, proper⟩ := ih (List.forall_mem_nil _)
      refine ⟨last, ?_, areComments, List.forall_mem_cons.2
        ⟨⟨comments, fun none => absurd none (Option.some_ne_none _)⟩, proper⟩⟩
      rw [piecesBehind, ofPieces_cons, append_behindPiece, ← whole]
      rfl

end Forest

/-! ### Reading inside open blocks -/

variable {opened : List Bracket} {offset : Nat} {text rest : Text}

/-- Whether a text that starts at `offset` inside the blocks `opened` is read as a forest when `rest`
follows. -/
def ReadsIn (opened : List Bracket) (offset : Nat) (text rest : Text) (forest : Forest) : Prop :=
  Forest.levels opened (lexemesFrom offset (text ++ rest)) =
    (forest.append (Forest.levels opened (lexemesFrom (offset + Text.bytes text) rest)).1,
      (Forest.levels opened (lexemesFrom (offset + Text.bytes text) rest)).2)

/-- Whether a text that starts at `offset` inside the blocks `opened` is read as some pieces when
`rest` follows. -/
def PiecesIn (opened : List Bracket) (offset : Nat) (text rest : Text) (pieces : List Piece) :
    Prop :=
  ∃ forest, ReadsIn opened offset text rest forest ∧
    ∀ behind, (forest.append behind).pieces = pieces ++ behind.pieces

namespace ReadsIn

variable {forest : Forest}

theorem of_fitsIn
    (cut : lexemesFrom offset (text ++ rest) =
      forest.lexemes ++ lexemesFrom (offset + Text.bytes text) rest)
    (fits : forest.FitsIn opened.head?) (ends : forest.isShut = true ∨ rest = []) :
    ReadsIn opened offset text rest forest := by
  rw [ReadsIn, cut]
  refine fits.levels_append rfl (ends.imp_right ?_)
  rintro rfl
  rw [lexemesFrom]

theorem append {more : Text} {later : Forest} (first : ReadsIn opened offset text (more ++ rest) forest)
    (second : ReadsIn opened (offset + Text.bytes text) more rest later) :
    ReadsIn opened offset (text ++ more) rest (forest.append later) := by
  rw [ReadsIn, List.append_assoc, first, second, Text.bytes_append, Forest.append_assoc,
    Nat.add_assoc]

/-- A forest that is read spells the text. -/
theorem text_eq (reads : ReadsIn opened offset text rest forest) : forest.text = text := by
  have whole := Forest.lexemes_levels opened (lexemesFrom offset (text ++ rest))
  rw [reads, Forest.Levels.lexemes, Forest.lexemes_append, List.append_assoc] at whole
  have behind := Forest.lexemes_levels opened (lexemesFrom (offset + Text.bytes text) rest)
  rw [Forest.Levels.lexemes] at behind
  rw [behind] at whole
  have spelled := congrArg spelling whole
  rw [spelling_append, spelling_lexemesFrom, spelling_lexemesFrom] at spelled
  exact List.append_cancel_right spelled

/-- A block is read where its brackets and what stands between them is. -/
theorem enclose {opener close : Token} {bracket : Bracket} {opens inside closes : Text}
    (openerCut : Lexes opener opens (inside ++ (closes ++ rest)))
    (closeCut : Lexes close closes rest) (isOpener : opener.opens? = some bracket)
    (isClose : close.closes? = some bracket)
    (reads : ReadsIn (bracket :: opened) (offset + Text.bytes opens) inside (closes ++ rest) forest) :
    ReadsIn opened offset (opens ++ (inside ++ closes)) rest
      (.block ⟨opener, offset, opens⟩ forest
        (some ⟨close, offset + Text.bytes opens + Text.bytes inside, closes⟩) .nil) := by
  have closed := @Forest.levels_close ⟨close, offset + Text.bytes opens + Text.bytes inside, closes⟩
    bracket isClose opened
    (lexemesFrom (offset + Text.bytes opens + Text.bytes inside + Text.bytes closes) rest)
  rw [ReadsIn, closeCut, closed, Forest.append_nil] at reads
  rw [ReadsIn, List.append_assoc, List.append_assoc, openerCut,
    @Forest.levels_open ⟨opener, offset, opens⟩ bracket isOpener _ _ _ _ _ _ reads,
    Text.bytes_append, Text.bytes_append, ← Nat.add_assoc, ← Nat.add_assoc]
  rfl

end ReadsIn

namespace PiecesIn

variable {pieces : List Piece}

theorem nil : PiecesIn opened offset [] rest [] :=
  ⟨.nil, rfl, fun _ => rfl⟩

theorem append {more : Text} {later : List Piece}
    (first : PiecesIn opened offset text (more ++ rest) pieces)
    (second : PiecesIn opened (offset + Text.bytes text) more rest later) :
    PiecesIn opened offset (text ++ more) rest (pieces ++ later) := by
  obtain ⟨forest, reads, front⟩ := first
  obtain ⟨forest', reads', back⟩ := second
  refine ⟨forest.append forest', reads.append reads', fun behind => ?_⟩
  rw [Forest.append_assoc, front, back, List.append_assoc]

/-- A block is one piece. -/
theorem enclose {opener close : Token} {bracket : Bracket} {opens inside closes : Text}
    {forest : Forest} (openerCut : Lexes opener opens (inside ++ (closes ++ rest)))
    (closeCut : Lexes close closes rest) (isOpener : opener.opens? = some bracket)
    (isClose : close.closes? = some bracket)
    (reads : ReadsIn (bracket :: opened) (offset + Text.bytes opens) inside (closes ++ rest) forest) :
    ∃ piece : Piece, PiecesIn opened offset (opens ++ (inside ++ closes)) rest [piece] ∧
      piece.token = opener ∧ piece.body = forest ∧ piece.text = opens ++ (inside ++ closes) := by
  have spelled : forest.lexemes.flatMap (·.text) = inside := reads.text_eq
  refine ⟨⟨[], ⟨opener, offset, opens⟩, some (forest, some ⟨close, _, closes⟩)⟩,
    ⟨_, reads.enclose openerCut closeCut isOpener isClose, fun behind => rfl⟩, rfl, rfl, ?_⟩
  simp [Piece.text, Piece.lexemes, spelled]

theorem of_readsPieces (reads : ReadsPieces offset text rest pieces) :
    PiecesIn opened offset text rest pieces := by
  obtain ⟨forest, reads, front⟩ := reads
  refine ⟨forest, ?_, front⟩
  rw [ReadsIn, reads.found, Forest.levels_append reads.closed]

/-- **A text is read as its pieces.** -/
theorem ofText (reads : PiecesIn [] 0 text [] pieces) : (Forest.ofText text).pieces = pieces := by
  obtain ⟨forest, reads, front⟩ := reads
  have found : Forest.ofText text = forest := by
    rw [ReadsIn, List.append_nil] at reads
    have ended : lexemesFrom (0 + Text.bytes text) [] = [] := by
      rw [lexemesFrom]
    rw [Forest.ofText, Forest.ofLexemes, lexemes, reads, ended]
    exact Forest.append_nil forest
  have whole := front .nil
  rw [Forest.append_nil] at whole
  rw [found, whole]
  exact List.append_nil pieces

end PiecesIn

end Css

end ScssLint
