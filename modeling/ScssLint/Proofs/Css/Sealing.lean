import ScssLint.Proofs.Comment.Ahead
import ScssLint.Proofs.Css.Stretches

/-! # Sealed stretches

A stretch is sealed if nothing is left open in it and its tokens keep to themselves: white space, a
backslash or an open escape is found at the end of none of them (`Css.Sealed`). Such a stretch is
read as the same pieces wherever what follows it goes on in the same way
(`Css.Sealed.exists_piecesIn`), and so is what its blocks hold without the white space around it
(`Css.exists_readsIn_trim`).
-/

namespace ScssLint

namespace Css

/-- Whether a token keeps to itself: nothing that is written behind it is taken for a part of an
escape at its end, and it is not trimmed away, nor a part of it, unless it is white space. -/
structure Lexeme.IsSolid (lexeme : Lexeme) : Prop where
  noEscape : lexeme.text.getLast? ≠ some '\\'
  calm : endsInEscape lexeme.text = false
  first : lexeme.token ≠ .whitespace → ∀ c ∈ lexeme.text.head?, isBlank c = false
  last : lexeme.token ≠ .whitespace → ∀ c ∈ lexeme.text.getLast?, isBlank c = false

instance (lexeme : Lexeme) : Decidable lexeme.IsSolid :=
  decidable_of_iff (lexeme.text.getLast? ≠ some '\\' ∧ endsInEscape lexeme.text = false ∧
      (lexeme.token ≠ .whitespace → lexeme.text.head?.any isBlank = false) ∧
      (lexeme.token ≠ .whitespace → lexeme.text.getLast?.any isBlank = false)) <| by
    simp only [Option.any_eq_false]
    exact ⟨fun ⟨noEscape, calm, first, last⟩ => ⟨noEscape, calm, first, last⟩,
      fun ⟨noEscape, calm, first, last⟩ => ⟨noEscape, calm, first, last⟩⟩

/-! ### What tokens are made of -/

/-- The tokens in front of which every token ends, whatever it is. -/
def Token.isApart : Token → Bool
  | whitespace | comma | colon | idHash | opening .square => true
  | delim sign => ['.', '&', '*', '>', '+', '~'].contains sign
  | _ => false

/-- What the kind of a token says about its characters and those behind it. -/
def Token.IsMade (text rest : Text) : Token → Prop
  | .whitespace => ∀ c ∈ text, isSpace c = true
  | .idHash => text.head? = some '#'
  | .comment => text.head? = some '/'
  | .opening .square => text = ['[']
  | .closing .parenthesis => text = [')']
  | .closing .square => text = [']']
  | .closing .curly => text = ['\x7D']
  | .colon => text = [':']
  | .comma => text = [',']
  | .delim sign => text = [sign] ∧ (sign = '.' ∨ sign = '+' → digits rest = 0)
  | _ => True

theorem isMade_munchNumber (text taken rest : Text) :
    (munchNumber text).1.IsMade taken rest := by
  simp only [munchNumber]
  repeat' split
  all_goals trivial

theorem isMade_munchIdent (text taken rest : Text) :
    (munchIdent text).1.IsMade taken rest := by
  rcases munchIdent_token text with ⟨named, same | same⟩ | same | same <;> rw [same] <;> trivial

/-- **A token is made after its kind.** -/
theorem isMade_munch (c : Char) (rest : Text) :
    (munch c rest).1.IsMade (c :: rest.take (munch c rest).2) (rest.drop (munch c rest).2) := by
  have cut := munches c rest
  generalize munch c rest = munched at cut
  cases cut with
  | space space =>
      refine List.forall_mem_cons.2 ⟨space, fun d member => ?_⟩
      rw [← List.prefix_iff_eq_take.1 (List.takeWhile_prefix isSpace)] at member
      exact List.all_eq_true.1 List.all_takeWhile d member
  | string _ => dsimp only; split <;> trivial
  | hash isHash kind => rcases kind with rfl | rfl <;> first | trivial | exact congrArg some isHash
  | matcher _ => trivial
  | sign named =>
      unfold signToken? at named
      split at named <;> first | exact absurd named.symm (Option.some_ne_none _) |
        (obtain rfl := Option.some.inj named; trivial)
  | number _ => exact isMade_munchNumber _ _ _
  | commentClose _ _ => trivial
  | commentOpen _ _ => trivial
  | comment isSlash _ => exact congrArg some isSlash
  | atKeyword _ => trivial
  | ident _ => exact isMade_munchIdent _ _ _
  | delim noNumber _ =>
      refine ⟨rfl, fun sign => ?_⟩
      rw [List.drop_zero]
      refine Classical.byContradiction fun some => noNumber ?_
      rcases sign with rfl | rfl
      · exact .inr (.inr ⟨rfl, some⟩)
      · refine .inr (.inl ⟨.inl rfl, ?_⟩)
        rw [startsNumber, Bool.or_eq_true]
        exact .inl (bne_iff_ne.2 some)

/-- A token that is cut off is written, and made after its kind. -/
theorem AreCut.isMade {front back : List Lexeme} {lexeme : Lexeme}
    (cut : AreCut (front ++ lexeme :: back)) :
    lexeme.text ≠ [] ∧ lexeme.token.IsMade lexeme.text (spelling back) := by
  obtain ⟨offset, cut⟩ := cut.tail
  cases whole : spelling (lexeme :: back) with
  | nil =>
      rw [whole, lexemesFrom] at cut
      exact absurd cut.symm (List.cons_ne_nil _ _)
  | cons c rest =>
      rw [whole, lexemesFrom_cons] at cut
      obtain ⟨rfl, rfl⟩ := List.cons.inj cut
      rw [spelling_lexemesFrom]
      exact ⟨List.cons_ne_nil _ _, isMade_munch c rest⟩

/-- The tokens in front of which others end: those that are apart, comments and closing brackets. -/
def Token.startsAfresh (token : Token) : Prop :=
  token.isApart = true ∨ token = .comment ∨ ∃ bracket, token = .closing bracket

theorem endsToken_of_isSpace {c : Char} (space : isSpace c = true) (rest : Text) :
    endsToken (c :: rest) = true := by
  simp only [isSpace, Bool.or_eq_true, beq_iff_eq] at space
  rcases space with (((rfl | rfl) | rfl) | rfl) | rfl <;> rfl

/-- **Other tokens end in front of such a token.** -/
theorem endsToken_of_isMade {token : Token} {text rest : Text} (afresh : token.startsAfresh)
    (written : text ≠ []) (made : token.IsMade text rest) : endsToken (text ++ rest) = true := by
  obtain ⟨c, tail, rfl⟩ := List.exists_cons_of_ne_nil written
  rcases afresh with apart | rfl | ⟨bracket, rfl⟩
  · cases token with
    | whitespace => exact endsToken_of_isSpace (made c List.mem_cons_self) _
    | comma | colon =>
        obtain ⟨rfl, rfl⟩ := List.cons.inj made
        rfl
    | idHash =>
        obtain rfl := Option.some.inj made
        rfl
    | opening bracket =>
        cases bracket with
        | square =>
            obtain ⟨rfl, rfl⟩ := List.cons.inj made
            rfl
        | _ => exact Bool.noConfusion apart
    | delim sign =>
        obtain ⟨same, noDigits⟩ := made
        obtain ⟨rfl, rfl⟩ := List.cons.inj same
        simp only [Token.isApart, List.contains_iff_mem, List.mem_cons, List.not_mem_nil, or_false] at apart
        rcases apart with rfl | rfl | rfl | rfl | rfl | rfl
        · simp only [List.cons_append, List.nil_append, endsToken, noDigits (.inl rfl)]
          rfl
        · rfl
        · rfl
        · rfl
        · simp only [List.cons_append, List.nil_append, endsToken, noDigits (.inr rfl)]
          rfl
        · rfl
    | _ => exact Bool.noConfusion apart
  · obtain rfl := Option.some.inj made
    rfl
  · cases bracket <;> (obtain ⟨rfl, rfl⟩ := List.cons.inj made; rfl)

theorem AreCut.endsToken {lexeme : Lexeme} {tokens : List Lexeme} (cut : AreCut (lexeme :: tokens))
    (afresh : lexeme.token.startsAfresh) : Css.endsToken (spelling (lexeme :: tokens)) = true := by
  obtain ⟨written, made⟩ := @AreCut.isMade [] tokens lexeme cut
  rw [spelling_cons]
  exact endsToken_of_isMade afresh written made

/-! ### Solid tokens -/

section Solid

variable {tokens : List Lexeme}

theorem noEscape_of_isSolid (solid : ∀ lexeme ∈ tokens, lexeme.IsSolid) :
    (spelling tokens).getLast? ≠ some '\\' := by
  induction tokens with
  | nil => exact (Option.some_ne_none _).symm
  | cons lexeme tokens ih =>
      obtain ⟨first, others⟩ := List.forall_mem_cons.1 solid
      rw [spelling_cons]
      exact getLast?_append_ne first.noEscape (ih others)

theorem calm_of_isSolid (solid : ∀ lexeme ∈ tokens, lexeme.IsSolid) :
    endsInEscape (spelling tokens) = false := by
  induction tokens with
  | nil => rfl
  | cons lexeme tokens ih =>
      obtain ⟨first, others⟩ := List.forall_mem_cons.1 solid
      rw [spelling_cons]
      refine Bool.eq_false_iff.2 fun escape => ?_
      rcases endsInEscape_append escape with later | ⟨here, _⟩
      · rw [ih others] at later
        exact Bool.noConfusion later
      · rw [first.calm] at here
        exact Bool.noConfusion here

theorem isSettled_of_isSolid {next : Text} (solid : ∀ lexeme ∈ tokens, lexeme.IsSolid)
    (noComment : (spelling tokens).getLast? = some '/' → next.head? ≠ some '*') :
    IsSettled (spelling tokens) next := by
  refine ⟨noEscape_of_isSolid solid, fun escape => ?_, noComment⟩
  rw [calm_of_isSolid solid] at escape
  exact Bool.noConfusion escape

end Solid

/-! ### Sealed stretches -/

/-- Whether nothing is left open in a stretch and its tokens keep to themselves. -/
structure Sealed (inside? : Option Bracket) (pieces : List Piece) (trail : List Lexeme) : Prop where
  stretch : Stretch inside? pieces trail
  shut : (Forest.ofPieces pieces).isShut = true
  finished : ∀ lexeme ∈ pieces.flatMap Piece.lexemes, lexeme.isFinished = true
  solid : ∀ lexeme ∈ pieces.flatMap Piece.lexemes, lexeme.IsSolid

namespace Sealed

variable {inside? : Option Bracket} {pieces more : List Piece} {piece : Piece} {trail : List Lexeme}

theorem split (stands : Sealed inside? (pieces ++ more) trail) :
    Sealed inside? pieces (more.flatMap Piece.lexemes ++ trail) ∧ Sealed inside? more trail := by
  obtain ⟨stretch, shut, finished, solid⟩ := stands
  obtain ⟨front, back⟩ := stretch.split
  rw [Forest.ofPieces_append, Forest.isShut_append, Bool.and_eq_true] at shut
  rw [List.flatMap_append] at finished solid
  obtain ⟨finished, finished'⟩ := List.forall_mem_append.1 finished
  obtain ⟨solid, solid'⟩ := List.forall_mem_append.1 solid
  exact ⟨⟨front, shut.1, finished, solid⟩, ⟨back, shut.2, finished', solid'⟩⟩

theorem drop (stands : Sealed inside? pieces trail) (count : Nat) :
    Sealed inside? (pieces.drop count) trail := by
  rw [← List.take_append_drop count pieces] at stands
  exact stands.split.2

theorem bare (stands : Sealed inside? (piece :: more) trail) :
    Sealed inside? ({ piece with lead := [] } :: more) trail := by
  obtain ⟨stretch, shut, finished, solid⟩ := stands
  have fewer : ∀ lexeme ∈ ({ piece with lead := [] } :: more).flatMap Piece.lexemes,
      lexeme ∈ (piece :: more).flatMap Piece.lexemes := by
    intro lexeme member
    rw [List.flatMap_cons, Piece.lexemes_eq, List.append_assoc]
    exact List.mem_append_right _ member
  rw [Forest.ofPieces_cons, Forest.behindPiece, Forest.isShut_append, Bool.and_eq_true] at shut
  exact ⟨stretch.bare, shut.2, fun lexeme member => finished lexeme (fewer lexeme member),
    fun lexeme member => solid lexeme (fewer lexeme member)⟩

/-- **A sealed stretch that is written elsewhere is read as the same pieces.** -/
theorem exists_piecesIn {opened : List Bracket} {next : Text}
    (stands : Sealed opened.head? pieces trail) (follows : Follows (spelling trail) next)
    (noComment : (piecesText pieces).getLast? = some '/' → next.head? ≠ some '*')
    (dark : ∀ last ∈ pieces.getLast?, last.token ≠ .whitespace) (offset : Nat) :
    ∃ here, PiecesIn opened offset (piecesText pieces) next
      (pieces.map (.map (.moved here offset))) := by
  have settled : IsSettled (piecesText pieces) next := by
    rw [← spelling_lexemes] at noComment ⊢
    exact isSettled_of_isSolid stands.solid noComment
  exact stands.stretch.exists_piecesIn stands.shut stands.finished settled follows dark offset

/-- The tokens of a piece without the comments in front of it are cut off in front of the others. -/
theorem areCut_own (stands : Sealed inside? (piece :: more) trail) :
    AreCut (piece.own ++ (more.flatMap Piece.lexemes ++ trail)) := by
  have cut := stands.bare.stretch.cut
  rwa [List.flatMap_cons, List.append_assoc] at cut

/-- The first token of a piece is made after its kind. -/
theorem isMade (stands : Sealed inside? (piece :: more) trail) :
    piece.head.text ≠ [] ∧ piece.token.IsMade piece.head.text
      (spelling (piece.own.tail ++ (more.flatMap Piece.lexemes ++ trail))) :=
  @AreCut.isMade [] _ _ stands.areCut_own

/-- Tokens end in front of a piece that is apart, or of the comments in front of it. -/
theorem endsToken (stands : Sealed inside? (piece :: more) trail)
    (apart : piece.token.isApart = true) :
    Css.endsToken (piecesText (piece :: more) ++ spelling trail) = true := by
  have cut := stands.stretch.cut
  rw [← spelling_lexemes, ← spelling_append]
  cases lead : piece.lead with
  | nil =>
      rw [List.flatMap_cons, Piece.lexemes_eq, lead, List.nil_append, List.append_assoc] at cut ⊢
      exact cut.endsToken (.inl apart)
  | cons comment comments =>
      rw [List.flatMap_cons, Piece.lexemes_eq, lead, List.cons_append, List.cons_append,
        List.cons_append] at cut ⊢
      exact cut.endsToken (.inr (.inl ((stands.stretch.proper piece List.mem_cons_self).lead
        comment (by rw [lead]; exact List.mem_cons_self))))

/-- A piece that opens no block is a single token. -/
theorem own_of_opensNone (stands : Sealed inside? (piece :: more) trail)
    (opensNone : piece.token.opens? = none) : piece.own = [piece.head] := by
  have fits := stands.bare.stretch.fits
  obtain ⟨lead, head, block?⟩ := piece
  rcases block? with _ | ⟨body, close?⟩
  · rfl
  · obtain ⟨bracket, opens, _⟩ := Forest.FitsIn.block_inv fits
    exact absurd (opens.symm.trans opensNone) (Option.some_ne_none _)

/-- A piece that opens a block is one that is closed. -/
theorem exists_block (stands : Sealed inside? (piece :: more) trail) {bracket : Bracket}
    (opens : piece.token.opens? = some bracket) :
    ∃ close : Lexeme, piece.own = piece.head :: (piece.body.lexemes ++ [close]) ∧
      close.token = .closing bracket ∧ piece.body.FitsIn (some bracket) ∧
      piece.body.isShut = true := by
  obtain ⟨stretch, shut, _, _⟩ := stands.bare
  have fits := stretch.fits
  obtain ⟨lead, head, block?⟩ := piece
  rcases block? with _ | ⟨body, _ | close⟩
  · cases fits with
    | leaf opensNone _ _ => exact absurd (opens.symm.trans opensNone) (Option.some_ne_none _)
  · exact Bool.noConfusion shut
  · obtain ⟨bracket', opens', bodyFits, closes, _⟩ := Forest.FitsIn.block_inv fits
    obtain rfl : bracket = bracket' := Option.some.inj (opens.symm.trans opens')
    obtain ⟨isClose, bodyShut⟩ := closes close rfl
    exact ⟨close, rfl, Token.eq_closing isClose, bodyFits, bodyShut⟩

/-- **The pieces of a block are sealed**, with comments and the closing bracket behind them. -/
theorem exists_body (stands : Sealed inside? (piece :: more) trail) {bracket : Bracket}
    (opens : piece.token.opens? = some bracket) :
    ∃ behind, Sealed (some bracket) piece.body.pieces behind ∧
      Css.endsToken (spelling behind) = true := by
  obtain ⟨close, own, isClose, fits, shut⟩ := stands.exists_block opens
  have cut := stands.areCut_own
  rw [own, List.cons_append, List.append_assoc, List.singleton_append] at cut
  obtain ⟨last, comments, stretch⟩ :=
    exists_stretch fits (@AreCut.tail [piece.head] _ cut) (.inl shut)
  obtain ⟨last', whole, _⟩ := piece.body.exists_ofPieces (List.forall_mem_nil _)
  have bodyShut := shut
  change piece.body = (Forest.ofPieces piece.body.pieces).append (Forest.leaves last') at whole
  rw [whole, Forest.isShut_append, Bool.and_eq_true] at bodyShut
  have fewer : ∀ lexeme ∈ piece.body.pieces.flatMap Piece.lexemes,
      lexeme ∈ (piece :: more).flatMap Piece.lexemes := by
    intro lexeme member
    have inBody : lexeme ∈ piece.body.lexemes := by
      rw [whole, Forest.lexemes_append, Forest.lexemes_ofPieces]
      exact List.mem_append_left _ member
    rw [List.flatMap_cons, Piece.lexemes_eq, own]
    simp [inBody]
  refine ⟨_, ⟨stretch, bodyShut.1, fun lexeme member => stands.finished lexeme (fewer lexeme member),
    fun lexeme member => stands.solid lexeme (fewer lexeme member)⟩, ?_⟩
  have cut := stretch.cut.tail
  cases last with
  | nil => exact cut.endsToken (.inr (.inr ⟨bracket, isClose⟩))
  | cons comment last => exact cut.endsToken (.inr (.inl (comments comment List.mem_cons_self)))

end Sealed

/-- **The pieces of a text in which nothing is left open are sealed**, with comments behind them. -/
theorem exists_sealed_ofText {text : Text} (whole : isWhole text = true)
    (solid : ∀ lexeme ∈ lexemes text, lexeme.IsSolid) :
    ∃ last, Sealed none (Forest.ofText text).pieces last ∧ endsToken (spelling last) = true := by
  rw [isWhole, Bool.and_eq_true, List.all_eq_true] at whole
  obtain ⟨finished, shut⟩ := whole
  obtain ⟨last, comments, stretch⟩ := exists_stretch_ofText text
  obtain ⟨last', parts, _⟩ := (Forest.ofText text).exists_ofPieces (List.forall_mem_nil _)
  change Forest.ofText text =
    (Forest.ofPieces (Forest.ofText text).pieces).append (Forest.leaves last') at parts
  have fewer : ∀ lexeme ∈ (Forest.ofText text).pieces.flatMap Piece.lexemes,
      lexeme ∈ lexemes text := by
    intro lexeme member
    have all := congrArg Forest.lexemes parts
    rw [Forest.ofText, Forest.lexemes_ofLexemes, Forest.lexemes_append, Forest.lexemes_ofPieces] at all
    rw [all]
    exact List.mem_append_left _ member
  rw [parts, Forest.isShut_append, Bool.and_eq_true] at shut
  refine ⟨last, ⟨stretch, shut.1, fun lexeme member => finished lexeme (fewer lexeme member),
    fun lexeme member => solid lexeme (fewer lexeme member)⟩, ?_⟩
  cases last with
  | nil => rfl
  | cons comment last =>
      exact stretch.cut.tail.endsToken (.inr (.inl (comments comment List.mem_cons_self)))

/-! ### What stands in a block without the white space around it -/

namespace Forest

variable {inside? : Option Bracket}

/-- White space at the start of a forest. -/
theorem exists_front {forest : Forest} (fits : forest.FitsIn inside?) :
    ∃ (front : List Lexeme) (core : Forest), forest = (leaves front).append core ∧
      (∀ lexeme ∈ front, lexeme.token = .whitespace) ∧
      ∀ first ∈ core.lexemes.head?, first.token ≠ .whitespace := by
  induction fits with
  | nil => exact ⟨[], nil, rfl, List.forall_mem_nil _, fun _ none => absurd none (Option.not_mem_none _)⟩
  | @leaf inside? lexeme rest opensNone apart _ ih =>
      by_cases blank : lexeme.token = .whitespace
      · obtain ⟨front, core, rfl, blanks, first⟩ := ih
        exact ⟨lexeme :: front, core, rfl, List.forall_mem_cons.2 ⟨blank, blanks⟩, first⟩
      · refine ⟨[], leaf lexeme rest, rfl, List.forall_mem_nil _, fun first isFirst => ?_⟩
        obtain rfl := Option.some.inj isFirst
        exact blank
  | @closed _ opener _ _ _ _ opens _ _ _ _ _ _ | @unclosed _ opener _ _ opens _ _ =>
      refine ⟨[], _, rfl, List.forall_mem_nil _, fun first isFirst => ?_⟩
      obtain rfl := Option.some.inj isFirst
      intro blank
      rw [blank] at opens
      exact absurd opens.symm (Option.some_ne_none _)

/-- The last token of a forest is that of its second part, if there is one. -/
theorem last_of_append {front core : List Lexeme} (first : ∀ last ∈ front.getLast?, last.isDark)
    (second : ∀ last ∈ core.getLast?, last.isDark) :
    ∀ last ∈ (front ++ core).getLast?, last.isDark := by
  intro last isLast
  rw [List.getLast?_append, Option.mem_def] at isLast
  cases found : core.getLast? with
  | none =>
      rw [found] at isLast
      exact first last isLast
  | some other =>
      rw [found] at isLast
      exact second last (found.trans isLast)

/-- White space at the end of a forest that is closed. -/
theorem exists_back {forest : Forest} (fits : forest.FitsIn inside?) (shut : forest.isShut = true) :
    ∃ (core : Forest) (back : List Lexeme), forest = core.append (leaves back) ∧
      (∀ lexeme ∈ back, lexeme.token = .whitespace) ∧
      ∀ last ∈ core.lexemes.getLast?, last.isDark := by
  induction fits with
  | nil =>
      exact ⟨nil, [], rfl, List.forall_mem_nil _, fun _ none => absurd none (Option.not_mem_none _)⟩
  | @leaf inside? lexeme rest opensNone apart _ ih =>
      obtain ⟨core, back, rfl, blanks, last⟩ := ih shut
      by_cases blank : lexeme.token = .whitespace
      · cases core with
        | nil => exact ⟨nil, lexeme :: back, rfl, List.forall_mem_cons.2 ⟨blank, blanks⟩, last⟩
        | leaf _ _ | block _ _ _ _ => exact ⟨leaf lexeme _, back, rfl, blanks, last⟩
      · refine ⟨leaf lexeme core, back, rfl, blanks, @last_of_append [lexeme] _ ?_ last⟩
        intro found isLast
        obtain rfl := Option.some.inj isLast
        refine ⟨blank, fun named function => ?_⟩
        rw [List.getLast_singleton] at function
        rw [function] at opensNone
        exact absurd opensNone (Option.some_ne_none _)
  | @closed _ opener close body rest bracket opens closes _ bodyShut _ _ ih =>
      rw [isShut, bodyShut] at shut
      obtain ⟨core, back, rfl, blanks, last⟩ := ih shut
      refine ⟨block opener body (some close) core, back, rfl, blanks, ?_⟩
      refine last_of_append (fun found isLast => ?_) last
      rw [Option.toList_some, List.getLast?_concat] at isLast
      obtain rfl := Option.some.inj isLast
      rw [Lexeme.isDark, Token.eq_closing closes]
      exact ⟨Token.noConfusion, fun named => Token.noConfusion⟩
  | unclosed _ _ _ => exact Bool.noConfusion shut

end Forest

theorem spelling_whitespace {front back tokens : List Lexeme} (cut : AreCut (front ++ (tokens ++ back)))
    (blanks : ∀ lexeme ∈ tokens, lexeme.token = .whitespace) :
    ∀ c ∈ spelling tokens, isSpace c = true := by
  intro c member
  obtain ⟨lexeme, among, inText⟩ := List.mem_flatMap.1 member
  obtain ⟨before, after, rfl⟩ := List.append_of_mem among
  rw [List.append_assoc, ← List.append_assoc front, List.cons_append] at cut
  have made := cut.isMade.2
  rw [blanks lexeme among] at made
  exact made c inText

section Blocks

variable {body : Forest} {bracket : Bracket} {close : Lexeme} {after : List Lexeme}

/-- A forest with the white space at its ends and what is between, none of which is trimmed. -/
structure Trims (body : Forest) (front : List Lexeme) (core : Forest) (back : List Lexeme) :
    Prop where
  whole : body = (Forest.leaves front).append (core.append (Forest.leaves back))
  front_blank : ∀ lexeme ∈ front, lexeme.token = .whitespace
  back_blank : ∀ lexeme ∈ back, lexeme.token = .whitespace
  first : ∀ lexeme ∈ core.lexemes.head?, lexeme.token ≠ .whitespace
  last : ∀ lexeme ∈ core.lexemes.getLast?, lexeme.isDark

theorem exists_trims (fits : body.FitsIn (some bracket)) (shut : body.isShut = true) :
    ∃ front core back, Trims body front core back := by
  obtain ⟨front, more, rfl, blanks, first⟩ := Forest.exists_front fits
  rw [Forest.isShut_append, Bool.and_eq_true] at shut
  obtain ⟨core, back, rfl, blanks', last⟩ := Forest.exists_back fits.split.2.1 shut.2
  refine ⟨front, core, back, rfl, blanks, blanks', fun lexeme isFirst => first lexeme ?_, last⟩
  rw [Forest.lexemes_append, List.head?_append, Option.mem_def.1 isFirst]
  rfl

namespace Trims

variable {front back : List Lexeme} {core : Forest}

theorem lexemes_eq (trims : Trims body front core back) :
    body.lexemes = front ++ (core.lexemes ++ back) := by
  rw [trims.whole, Forest.lexemes_append, Forest.lexemes_append, Forest.lexemes_leaves,
    Forest.lexemes_leaves]

theorem text_eq (trims : Trims body front core back) :
    body.text = spelling front ++ (core.text ++ spelling back) := by
  change spelling _ = _
  rw [trims.lexemes_eq, spelling_append, spelling_append]
  rfl

variable (trims : Trims body front core back) (cut : AreCut (body.lexemes ++ close :: after))
  (solid : ∀ lexeme ∈ body.lexemes, lexeme.IsSolid)

include trims cut

theorem areCut : AreCut (front ++ (core.lexemes ++ (back ++ close :: after))) := by
  rwa [trims.lexemes_eq, List.append_assoc, List.append_assoc] at cut

theorem spaces_front : ∀ c ∈ spelling front, isSpace c = true :=
  @spelling_whitespace [] _ _ (trims.areCut cut) trims.front_blank

theorem spaces_back : ∀ c ∈ spelling back, isSpace c = true := by
  have cut := trims.areCut cut
  rw [← List.append_assoc] at cut
  exact spelling_whitespace cut trims.back_blank

include solid

theorem head?_dark : ∀ c ∈ core.text.head?, isBlank c = false := by
  intro c isFirst
  have cut := trims.areCut cut
  change c ∈ (spelling core.lexemes).head? at isFirst
  cases tokens : core.lexemes with
  | nil =>
      rw [tokens] at isFirst
      exact absurd isFirst (Option.not_mem_none _)
  | cons lexeme later =>
      have own : lexeme.IsSolid := solid lexeme (by rw [trims.lexemes_eq, tokens]; simp)
      refine own.first (trims.first lexeme (by rw [tokens]; rfl)) c ?_
      rw [tokens, List.cons_append] at cut
      obtain ⟨d, text, same⟩ := List.exists_cons_of_ne_nil cut.isMade.1
      rw [tokens, spelling_cons, same] at isFirst
      rw [same]
      exact isFirst

theorem getLast?_dark : ∀ c ∈ core.text.getLast?, isBlank c = false := by
  intro c isLast
  have cut := trims.areCut cut
  change c ∈ (spelling core.lexemes).getLast? at isLast
  rcases List.eq_nil_or_concat core.lexemes with tokens | ⟨earlier, lexeme, tokens⟩
  · rw [tokens] at isLast
    exact absurd isLast (Option.not_mem_none _)
  · rw [List.concat_eq_append] at tokens
    have own : lexeme.IsSolid := solid lexeme (by rw [trims.lexemes_eq, tokens]; simp)
    refine own.last (trims.last lexeme (by rw [tokens, List.getLast?_concat]; rfl)).1 c ?_
    rw [tokens, List.append_assoc, ← List.append_assoc front, List.singleton_append] at cut
    rw [tokens, spelling_append, spelling_cons, spelling_nil, List.append_nil, List.getLast?_append,
      List.getLast?_eq_some_getLast cut.isMade.1] at isLast
    rw [List.getLast?_eq_some_getLast cut.isMade.1]
    exact isLast

/-- **What a block holds is trimmed between tokens.** -/
theorem trim_eq : Text.trim body.text = core.text := by
  rw [trims.text_eq]
  exact Text.trim_around (fun c member => isBlank_of_isSpace (trims.spaces_front cut c member))
    (fun c member => isBlank_of_isSpace (trims.spaces_back cut c member))
    (trims.head?_dark cut solid) (trims.getLast?_dark cut solid)

end Trims

/-- **What a block holds is read without the white space around it**, too. -/
theorem exists_readsIn_trim (fits : body.FitsIn (some bracket)) (shut : body.isShut = true)
    (cut : AreCut (body.lexemes ++ close :: after)) (isClose : close.token = .closing bracket)
    (finished : ∀ lexeme ∈ body.lexemes, lexeme.isFinished = true)
    (solid : ∀ lexeme ∈ body.lexemes, lexeme.IsSolid) {c : Char} (sign : c = ')' ∨ c = ']')
    (opened : List Bracket) (next : Text) (offset : Nat) :
    ∃ forest, ReadsIn (bracket :: opened) offset (Text.trim body.text) (c :: next) forest := by
  obtain ⟨front, core, back, trims⟩ := exists_trims fits shut
  rw [trims.trim_eq cut solid]
  have behind := (trims.areCut cut).tail
  have inside : ∀ lexeme ∈ core.lexemes, lexeme ∈ body.lexemes := fun lexeme member => by
    rw [trims.lexemes_eq]
    exact List.mem_append_right _ (List.mem_append_left _ member)
  have ends : endsToken (spelling (back ++ close :: after)) = true := by
    cases back with
    | nil => exact behind.tail.endsToken (.inr (.inr ⟨bracket, isClose⟩))
    | cons lexeme back =>
        refine behind.tail.endsToken (.inl ?_)
        rw [trims.back_blank lexeme List.mem_cons_self]
        rfl
  have meets : Meets (spelling (back ++ close :: after)) (c :: next) := by
    refine ⟨ends, ?_, ?_, ?_⟩ <;> rcases sign with rfl | rfl <;>
      first | rfl | exact fun same => absurd (Option.some.inj same) (by decide)
  have settled : IsSettled core.text (c :: next) :=
    isSettled_of_isSolid (fun lexeme member => solid lexeme (inside lexeme member)) fun _ => by
      rcases sign with rfl | rfl <;> exact fun same => absurd (Option.some.inj same) (by decide)
  have whole := trims.whole
  rw [whole, Forest.isShut_append, Forest.isShut_append, Bool.and_eq_true, Bool.and_eq_true] at shut
  rw [whole] at fits
  obtain ⟨here, reads⟩ := @exists_readsIn (bracket :: opened) core _ (c :: next)
    fits.split.2.1.split.1 behind shut.2.1
    (fun lexeme member => finished lexeme (inside lexeme member)) settled (.of_meets meets)
    trims.last offset
  exact ⟨_, reads⟩

/-- What comes first in a block behind white space is the same without that. -/
theorem head?_dropSpaces_trim (fits : body.FitsIn (some bracket)) (shut : body.isShut = true)
    (cut : AreCut (body.lexemes ++ close :: after))
    (solid : ∀ lexeme ∈ body.lexemes, lexeme.IsSolid) {c : Char} (closes : close.text = [c])
    (dark : isSpace c = false) (next : Text) :
    ((Text.trim body.text ++ c :: next).dropWhile isSpace).head? =
      ((body.text ++ spelling (close :: after)).dropWhile isSpace).head? := by
  obtain ⟨front, core, back, trims⟩ := exists_trims fits shut
  have first := trims.head?_dark cut solid
  rw [trims.trim_eq cut solid, trims.text_eq, List.append_assoc, spelling_cons, closes,
    List.dropWhile_append_of_pos (trims.spaces_front cut), List.append_assoc]
  cases text : core.text with
  | nil =>
      rw [List.nil_append, List.nil_append, List.dropWhile_append_of_pos (trims.spaces_back cut),
        List.singleton_append]
      simp only [List.dropWhile_cons_of_neg (Bool.eq_false_iff.1 dark), List.head?_cons]
  | cons d rest =>
      have darkFirst : isSpace d = false := by
        refine Bool.eq_false_iff.2 fun space => ?_
        have blank := first d (by rw [text]; rfl)
        rw [isBlank_of_isSpace space] at blank
        exact Bool.noConfusion blank
      rw [List.cons_append, List.cons_append]
      simp only [List.dropWhile_cons_of_neg (Bool.eq_false_iff.1 darkFirst), List.head?_cons]

end Blocks

/-- **What a sealed block holds can be trimmed**: it is read where it is written, and starts in the
same way behind white space. -/
theorem Sealed.exists_trimmed {inside? : Option Bracket} {piece : Piece} {more : List Piece}
    {trail : List Lexeme} {bracket : Bracket} {c : Char} (stands : Sealed inside? (piece :: more) trail)
    (opens : piece.token.opens? = some bracket)
    (sign : bracket = .parenthesis ∧ c = ')' ∨ bracket = .square ∧ c = ']') :
    spelling piece.own = piece.head.text ++ (piece.body.text ++ [c]) ∧
      (∀ opened next offset, ∃ forest,
        ReadsIn (bracket :: opened) offset (Text.trim piece.body.text) (c :: next) forest) ∧
      ∀ next, ((Text.trim piece.body.text ++ c :: next).dropWhile isSpace).head? =
        ((spelling (piece.own.tail ++ (more.flatMap Piece.lexemes ++ trail))).dropWhile isSpace).head? := by
  obtain ⟨close, own, isClose, fits, shut⟩ := stands.exists_block opens
  have within : ∀ lexeme ∈ piece.body.lexemes, lexeme ∈ (piece :: more).flatMap Piece.lexemes := by
    intro lexeme member
    rw [List.flatMap_cons, Piece.lexemes_eq, own]
    simp [member]
  have solid : ∀ lexeme ∈ piece.body.lexemes, lexeme.IsSolid := fun lexeme member =>
    stands.solid lexeme (within lexeme member)
  have cut := stands.areCut_own
  rw [own, List.cons_append, List.append_assoc, List.singleton_append] at cut
  have inside := @AreCut.tail [piece.head] _ cut
  have closes : close.text = [c] := by
    have made := inside.isMade.2
    rw [isClose] at made
    rcases sign with ⟨rfl, rfl⟩ | ⟨rfl, rfl⟩ <;> exact made
  have closing : c = ')' ∨ c = ']' := sign.imp And.right And.right
  refine ⟨?_, fun opened next offset => exists_readsIn_trim fits shut inside isClose
    (fun lexeme member => stands.finished lexeme (within lexeme member)) solid closing opened next
    offset, fun next => ?_⟩
  · rw [own, spelling_cons, spelling_append, spelling_cons, closes]
    rfl
  · rw [own, List.tail_cons, List.append_assoc, List.singleton_append, spelling_append]
    refine head?_dropSpaces_trim fits shut inside solid closes ?_ next
    rcases closing with rfl | rfl <;> rfl

end Css

end ScssLint
