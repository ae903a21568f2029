import ScssLint.Proofs.Selector.Acceptance
import ScssLint.Proofs.Selector.Canonical
import ScssLint.Proofs.Selector.Steadiness

/-! # Reading components again

What is written of a component that was read from steady pieces is read as the component again
(`SelectorList.rereads_component`), if what is written behind it follows its pieces as in the text
(`SelectorList.Seam`): the pieces are then cut off and counted in the same way. What is written of the
component in turn follows what stands in front of it (`SelectorList.seam_component`).
-/

namespace ScssLint

open Css

namespace SelectorList

/-- Whether a list can end in front of a text. -/
def EndsList (next : Text) : Prop :=
  ∀ c ∈ next.head?, c = ',' ∨ c = ')'

/-- Whether what is written of some pieces follows the pieces in front as they did themselves. -/
structure Seam (pieces : List Piece) (trail : List Lexeme) (text : Text) : Prop where
  follows : Follows (piecesText pieces ++ spelling trail) text
  noStar : text.head? = some '*' → ∃ first ∈ pieces[0]?, first.head.text.head? = some '*'
  apart : (∀ first ∈ pieces.head?, first.token.isApart = true) → Meets text text

/-- Whether what is written of a component in front of `next` is read as the component again, in front
of pieces that start like those behind it did. -/
def RereadsComponent (opened : List Bracket) (pieces behind : List Piece) (result : Component)
    (next : Text) : Prop :=
  ∀ offset, ∃ piece later again, PiecesIn opened offset result.text next (piece :: later) ∧
    (∀ found ∈ piece :: later, found.token ≠ .comma) ∧ piece.token ≠ .whitespace ∧
    Component.unplaced again = result.unplaced ∧
    ∀ printed, StartsAs behind printed →
      readComponent piece (later ++ printed) = .ok (again, later.length) ∧
        StartsAs pieces (piece :: (later ++ printed))

/-- Whether what is written of a selector list in front of `next` is read as the list again, with white
space in front or without. -/
def RereadsList (opened : List Bracket) (list : SelectorList) (next : Text) : Prop :=
  ∀ blank : Text, (∀ c ∈ blank, isSpace c = true) → ∀ offset, ∃ printed again,
    PiecesIn opened offset (blank ++ selectorListText list) next printed ∧
      (∀ first, readSelectors first printed = .ok again) ∧
      unplacedSelectors again = unplacedSelectors list

/-- Whether what is written of the selectors that are read from some pieces is read again. -/
def RereadsSelectors (opened : List Bracket) (pieces : List Piece) : Prop :=
  ∀ {trail : List Lexeme} {next : Text} {first : Bool} {list : SelectorList},
    Sealed opened.head? pieces trail → endsToken (spelling trail) = true → EndsList next →
    isSteady pieces = true → readSelectors first pieces = .ok list → RereadsList opened list next

section Seams

variable {inside? : Option Bracket} {pieces front behind : List Piece} {piece : Piece}
  {trail : List Lexeme} {text next : Text}

theorem meets_of_endsList (isEnd : EndsList next) : Meets next next := by
  cases next with
  | nil => exact ⟨rfl, rfl, rfl, (Option.some_ne_none _).symm⟩
  | cons c next =>
      rcases isEnd c rfl with rfl | rfl <;>
        exact ⟨rfl, rfl, rfl, fun same => absurd (Option.some.inj same) (by decide)⟩

/-- In front of pieces that are apart, or of none, every token ends. -/
theorem Seam.of_meets (stands : Sealed inside? pieces trail)
    (ends : endsToken (spelling trail) = true)
    (apart : ∀ first ∈ pieces.head?, first.token.isApart = true) (meets : Meets text text)
    (noStar : text.head? = some '*' → ∃ first ∈ pieces[0]?, first.head.text.head? = some '*') :
    Seam pieces trail text := by
  refine ⟨.of_meets { meets with ends := ?_ }, noStar, fun _ => meets⟩
  cases pieces with
  | nil => exact ends
  | cons first rest => exact stands.endsToken (apart first rfl)

/-- A sealed piece is written. -/
theorem text_ne_nil (stands : Sealed inside? (piece :: pieces) trail) : piece.text ≠ [] := by
  intro nothing
  have own : spelling piece.own = [] := by
    rw [Piece.text, Piece.lexemes_eq] at nothing
    exact (List.append_eq_nil_iff.1 (by rwa [List.flatMap_append] at nothing)).2
  obtain ⟨inside, same⟩ := piece.exists_own
  rw [same, spelling_cons] at own
  exact stands.isMade.1 (List.append_eq_nil_iff.1 own).1

/-- The comments in front of a piece are not its end. -/
theorem getLast?_bare (stands : Sealed inside? (piece :: pieces) trail) (taken : List Piece) :
    (piecesText ({ piece with lead := [] } :: taken)).getLast? =
      (piecesText (piece :: taken)).getLast? := by
  have whole : piecesText (piece :: taken) =
      spelling piece.lead ++ piecesText ({ piece with lead := [] } :: taken) := by
    change spelling piece.lexemes ++ _ = _
    rw [Piece.lexemes_eq, spelling_append, List.append_assoc]
    rfl
  have written : piecesText ({ piece with lead := [] } :: taken) ≠ [] :=
    List.append_ne_nil_of_left_ne_nil (text_ne_nil stands.bare) _
  rw [whole, List.getLast?_append_of_ne_nil _ written]

/-- No comment starts where pieces and what is written of those behind them meet. -/
theorem noComment_of_isSteady (stands : Sealed inside? (front ++ behind) trail) (written : front ≠ [])
    (steady : isSteady (front ++ behind) = true) (seam : Seam behind trail next) :
    (piecesText front).getLast? = some '/' → next.head? ≠ some '*' := by
  intro slash star
  obtain ⟨first, isFirst, starts⟩ := seam.noStar star
  obtain ⟨init, last, rfl⟩ := List.eq_nil_or_concat front |>.resolve_left written
  rw [List.concat_eq_append] at stands steady slash
  rw [List.append_assoc] at stands steady
  have lastWritten := text_ne_nil stands.split.2
  have apart := (isSteady_cons_iff.1 (isSteady_split steady).2).1.apart
  rw [piecesText, List.flatMap_append, List.flatMap_singleton,
    List.getLast?_append_of_ne_nil _ lastWritten] at slash
  exact apart slash first isFirst starts

end Seams

/-! ### Pieces that are kept as they are written -/

section Kept

variable {opened : List Bracket} {piece kept : Piece} {taken behind : List Piece}
  {trail : List Lexeme} {next : Text} {result : Component} {count : Nat}

theorem text_moved (here there : Nat) (piece : Piece) :
    (piece.map (.moved here there)).text = piece.text := by
  have whole := piecesText_moved here there [piece]
  rwa [List.map_singleton, piecesText_singleton, piecesText_singleton] at whole

theorem noComma_of_isNamePart (parts : ∀ part ∈ taken, isNamePart part = true) :
    ∀ part ∈ taken, part.token ≠ .whitespace ∧ part.token ≠ .comma := by
  intro part member
  obtain ⟨keeps, _⟩ := token_of_isNamePart (parts part member)
  constructor <;> (intro same; rw [same] at keeps; exact Bool.noConfusion keeps)

/-- The pieces of a node are read where they are written. -/
theorem exists_piecesIn_node (stands : Sealed opened.head? (piece :: (taken ++ behind)) trail)
    (dark : piece.token ≠ .whitespace) (parts : ∀ part ∈ taken, isNamePart part = true)
    (seam : Seam behind trail next)
    (noComment : (piecesText (piece :: taken)).getLast? = some '/' → next.head? ≠ some '*')
    (offset : Nat) :
    ∃ here, PiecesIn opened offset (piecesText (piece :: taken)) next
      ((piece :: taken).map (.map (.moved here offset))) := by
  rw [← List.cons_append] at stands
  have follows := seam.follows
  rw [← spelling_lexemes, ← spelling_append] at follows
  refine stands.split.1.exists_piecesIn follows noComment (fun last isLast => ?_) offset
  rcases List.mem_cons.1 (List.mem_of_getLast? isLast) with rfl | member
  · exact dark
  · exact (noComma_of_isNamePart parts last member).1

theorem head?_text_of_idHash (stands : Sealed opened.head? (piece :: behind) trail)
    (isHash : piece.token = .idHash) (bare : piece.lead = []) : piece.text.head? = some '#' := by
  have made := stands.isMade.2
  rw [isHash] at made
  obtain ⟨inside, own⟩ := piece.exists_own
  rw [Piece.text, Piece.lexemes_eq, bare, List.nil_append, own, List.flatMap_cons,
    List.head?_append, made]
  rfl

/-- What is written of a node, as the text of its pieces, without the comments in front of a sign of
which no more is kept. -/
theorem exists_kept (stands : Sealed opened.head? (piece :: (taken ++ behind)) trail)
    (dark : piece.token ≠ .whitespace) (noComma : piece.token ≠ .comma)
    (noColon : piece.token ≠ .colon) (noSquare : piece.token ≠ .opening .square)
    (bare : piece.token = .idHash → piece.lead = [])
    (read : component piece (taken ++ behind) = .ok (result, taken.length))
    (simple : result.isCombinator = false) :
    ∃ kept : Piece, Sealed opened.head? (kept :: (taken ++ behind)) trail ∧
      kept.token = piece.token ∧ (piece.token.dropsComments = false → kept = piece) ∧
      result.text = piecesText (kept :: taken) ∧
      (piecesText (kept :: taken)).getLast? = (piecesText (piece :: taken)).getLast? := by
  cases keeps : piece.token.dropsComments with
  | false =>
      refine ⟨piece, stands, rfl, fun _ => rfl, ?_, rfl⟩
      have text := text_of_keepsComments read keeps noSquare fun isHash =>
        head?_text_of_idHash stands isHash (bare isHash)
      rwa [List.take_left] at text
  | true =>
      obtain ⟨sign, _, token, text⟩ :=
        text_of_dropsComments read keeps dark noComma noColon simple
      have made := stands.isMade.2
      rw [token] at made
      have own : spelling piece.own = [sign] := by
        rw [stands.own_of_opensNone (by rw [token]; rfl), spelling_cons, made.1]
        rfl
      refine ⟨{ piece with lead := [] }, stands.bare, rfl, fun same => Bool.noConfusion same, ?_,
        getLast?_bare stands taken⟩
      change _ = spelling piece.own ++ piecesText taken
      rw [text, List.take_left, own]
      rfl

/-- **A node that is kept as it is written is read again.** -/
theorem rereads_kept (stands : Sealed opened.head? (piece :: (taken ++ behind)) trail)
    (dark : piece.token ≠ .whitespace) (noComma : piece.token ≠ .comma)
    (noColon : piece.token ≠ .colon) (noSquare : piece.token ≠ .opening .square)
    (steady : isSteady (piece :: (taken ++ behind)) = true) (seam : Seam behind trail next)
    (read : component piece (taken ++ behind) = .ok (result, taken.length))
    (simple : result.isCombinator = false) :
    RereadsComponent opened (piece :: (taken ++ behind)) behind result next := by
  have bare := (isSteady_cons_iff.1 steady).1.bare
  have parts := isNamePart_of_nodeLength? (component_eq_ok_iff.1 read).1
  rw [List.take_left] at parts
  obtain ⟨kept, standsKept, token, same, text, last⟩ := exists_kept stands dark noComma noColon
    noSquare (fun isHash => bare (.inl isHash)) read simple
  have noComment : (piecesText (kept :: taken)).getLast? = some '/' → next.head? ≠ some '*' := by
    rw [last]
    rw [← List.cons_append] at stands steady
    exact noComment_of_isSteady stands (List.cons_ne_nil _ _) steady seam
  intro offset
  obtain ⟨here, pieces⟩ := exists_piecesIn_node standsKept (by rwa [token]) parts seam noComment offset
  rw [← text] at pieces
  have keeps := keepsTokens_moved here offset
  have again : StandsFor piece taken (kept.map (.moved here offset))
      (taken.map (.map (.moved here offset))) := by
    refine ⟨(Piece.token_map keeps kept).trans token, tokens_map keeps taken, fun keeps => ?_,
      piecesText_moved here offset taken⟩
    rw [text_moved, same keeps]
  refine ⟨_, _, result, pieces, ?_, ?_, rfl, fun printed starts => ⟨?_, ?_⟩⟩
  · refine List.forall_mem_cons.2 ⟨by rwa [again.token], fun found member => ?_⟩
    obtain ⟨part, among, rfl⟩ := List.mem_map.1 member
    rw [Piece.token_map keeps]
    exact (noComma_of_isNamePart parts part among).2
  · rwa [again.token]
  · rw [readComponent_of_ne (by rwa [again.token])]
    exact component_resume dark noComma noColon again starts read
  · exact @StartsAs.append _ _ (piece :: taken) (_ :: _)
      (congrArg₂ List.cons again.token again.tokens) starts

end Kept

/-! ### Blocks of which the inside is trimmed -/

section Blocks

variable {opened : List Bracket} {piece : Piece} {behind printed : List Piece} {trail : List Lexeme}
  {next : Text}

theorem isNamePart_congr {piece' : Piece} (same : piece'.token = piece.token) :
    isNamePart piece' = isNamePart piece := by
  rw [isNamePart, isDelim_congr same, isCurlyBlock_congr same, carriesOnName_congr same, isNamePart]

/-- Pieces start alike if the same token comes first and is no part of a name. -/
theorem startsAs_of_token {piece' : Piece} (token : piece'.token = piece.token)
    (apart : isNamePart piece = false) : StartsAs (piece :: behind) (piece' :: printed) := by
  refine .of_apart (fun first isFirst => ?_) fun first isFirst => ?_
  · obtain rfl := Option.some.inj isFirst
    exact apart
  · obtain rfl := Option.some.inj isFirst
    rwa [isNamePart_congr token]

/-- **An attribute selector is read again.** -/
theorem rereads_attr (stands : Sealed opened.head? (piece :: behind) trail)
    (isSquare : piece.token = .opening .square) (bare : piece.lead = []) :
    RereadsComponent opened (piece :: behind) behind
      (.attr (Text.trim (withoutBrackets piece.text))) next := by
  obtain ⟨own, trimmed, _⟩ := @Sealed.exists_trimmed _ _ _ _ .square ']' stands (by rw [isSquare]; rfl)
    (.inr ⟨rfl, rfl⟩)
  have opens := stands.isMade.2
  rw [isSquare] at opens
  have text : piece.text = '[' :: (piece.body.text ++ [']']) := by
    change spelling piece.lexemes = _
    rw [Piece.lexemes_eq, bare, List.nil_append, own, opens]
    rfl
  rw [text, withoutBrackets_append]
  intro offset
  obtain ⟨forest, reads⟩ := trimmed opened next (offset + Text.bytes ['['])
  obtain ⟨piece', pieces, token, _, spelled⟩ := PiecesIn.enclose (lexes_openingSquare _)
    (lexes_closingSquare next) rfl rfl reads
  refine ⟨piece', [], .attr (Text.trim piece.body.text), pieces, ?_, ?_, rfl, fun printed _ => ⟨?_, ?_⟩⟩
  · refine List.forall_mem_singleton.2 ?_
    rw [token]
    exact Token.noConfusion
  · rw [token]
    exact Token.noConfusion
  · rw [readComponent_of_ne (by rw [token]; exact Token.noConfusion), component, token]
    dsimp only
    rw [spelled]
    change Except.ok (Component.attr (Text.trim
      (withoutBrackets ('[' :: (Text.trim piece.body.text ++ [']'])))), 0) = _
    rw [withoutBrackets_append, Text.trim_trim]
    rfl
  · refine startsAs_of_token (token.trans isSquare.symm) ?_
    rw [isNamePart, isDelim, isCurlyBlock, carriesOnName, isSquare]
    rfl

end Blocks

/-! ### What stands behind colons -/

section Colons

variable {opened : List Bracket} {piece name function : Piece} {rest behind printed : List Piece}
  {trail : List Lexeme} {next named : Text} {result : Component} {count : Nat}

theorem piecesIn_colon (opened : List Bracket) (offset : Nat) (rest : Text) :
    PiecesIn opened offset [':'] rest [tokenPiece .colon offset [':']] :=
  .of_readsPieces (.of_isInert (lexes_colon rest) rfl)

/-- The name of a pseudo-class or pseudo-element is read where it is written. -/
theorem exists_piecesIn_ident (stands : Sealed opened.head? (name :: behind) trail)
    (isIdent : name.token = .ident named) (verbatim : name.head.isVerbatim = true)
    (steady : isSteady (name :: behind) = true) (seam : Seam behind trail next) (offset : Nat) :
    ∃ name' : Piece, PiecesIn opened offset named next [name'] ∧ name'.token = .ident named := by
  have own : spelling name.own = named := by
    rw [stands.own_of_opensNone (by rw [isIdent]; rfl), spelling_cons]
    change name.head.token = .ident named at isIdent
    rw [Lexeme.isVerbatim, isIdent] at verbatim
    rw [show name.head.text = named from beq_iff_eq.1 verbatim]
    exact List.append_nil named
  have text : piecesText [{ name with lead := [] }] = named := (piecesText_singleton _).trans own
  have noComment : (piecesText [{ name with lead := [] }]).getLast? = some '/' →
      next.head? ≠ some '*' := by
    rw [getLast?_bare stands []]
    exact @noComment_of_isSteady _ [name] behind trail next stands (List.cons_ne_nil _ _) steady seam
  obtain ⟨here, pieces⟩ := @exists_piecesIn_node opened { name with lead := [] } [] behind trail next
    stands.bare (by change name.token ≠ _; rw [isIdent]; exact Token.noConfusion)
    (List.forall_mem_nil _) seam noComment offset
  rw [text] at pieces
  exact ⟨_, pieces, (Piece.token_map (keepsTokens_moved here offset) _).trans isIdent⟩

/-- The name of a pseudo-element is read without its argument, too. -/
theorem exists_piecesIn_element (stands : Sealed opened.head? (name :: behind) trail)
    (isName : name.token = .ident named ∨ name.token = .function named)
    (verbatim : name.head.isVerbatim = true) (steady : isSteady (name :: behind) = true)
    (seam : Seam behind trail next)
    (element : name.token.opens? = some .parenthesis →
      ∀ next ∈ behind.head?, next.token.isApart = true) (offset : Nat) :
    ∃ name' : Piece, PiecesIn opened offset named next [name'] ∧ name'.token = .ident named := by
  rcases isName with isIdent | isFunction
  · exact exists_piecesIn_ident stands isIdent verbatim steady seam offset
  · have cut := stands.lexes_ident isFunction verbatim
      (seam.apart (element (by rw [isFunction]; rfl)))
    exact ⟨_, .of_readsPieces (.of_isInert cut rfl), rfl⟩

theorem readComponent_colon (isColon : piece.token = .colon)
    (noSelectors : selectorFunction? rest = none) : readComponent piece rest = pseudo rest := by
  rw [readComponent, if_pos isColon, noSelectors]

theorem elementName?_eq_some (found : elementName? rest = some named) :
    ∃ name behind, rest = name :: behind ∧
      (name.token = .ident named ∨ name.token = .function named) := by
  unfold elementName? at found
  split at found
  · cases found
  · split at found
    · rename_i isIdent
      obtain rfl := Option.some.inj found
      exact ⟨_, _, rfl, .inl isIdent⟩
    · rename_i isFunction
      obtain rfl := Option.some.inj found
      exact ⟨_, _, rfl, .inr isFunction⟩
    · cases found

theorem pseudo_element (isColon : piece.token = .colon) (found : elementName? rest = some named) :
    pseudo (piece :: rest) = .ok (.pseudoElement named, 2) := by
  rw [pseudo, isColon]
  dsimp only
  rw [found]

/-- What starts with a colon is read again if what stands behind the colon is. -/
theorem rereads_colon {inside : Text} (isColon : piece.token = .colon)
    (text : result.text = ':' :: inside)
    (reads : ∀ offset, ∃ later again, PiecesIn opened offset inside next later ∧
      (∀ found ∈ later, found.token ≠ .comma) ∧ Component.unplaced again = result.unplaced ∧
      ∀ (colon : Piece) (printed : List Piece), colon.token = .colon →
        readComponent colon (later ++ printed) = .ok (again, later.length)) :
    RereadsComponent opened (piece :: rest) behind result next := by
  intro offset
  obtain ⟨later, again, readsInside, noComma, same, read⟩ := reads (offset + Text.bytes [':'])
  rw [text]
  refine ⟨_, later, again, (piecesIn_colon opened offset (inside ++ next)).append readsInside,
    List.forall_mem_cons.2 ⟨Token.noConfusion, noComma⟩, Token.noConfusion, same,
    fun printed _ => ⟨read _ printed rfl, startsAs_of_token isColon.symm ?_⟩⟩
  rw [isNamePart, isDelim, isCurlyBlock, carriesOnName, isColon]
  rfl

/-- **A pseudo-class without an argument is read again.** -/
theorem rereads_pseudoClass (isColon : piece.token = .colon)
    (other : isSingleColonElement named = false)
    (reads : ∀ offset, ∃ name' : Piece, PiecesIn opened offset named next [name'] ∧
      name'.token = .ident named) :
    RereadsComponent opened (piece :: rest) behind (.pseudoClass named .absent) next := by
  refine rereads_colon isColon (congrArg (':' :: ·) (List.append_nil named)) fun offset => ?_
  obtain ⟨name', readsName, isName⟩ := reads offset
  refine ⟨_, .pseudoClass named .absent, readsName, List.forall_mem_singleton.2 ?_, rfl,
    fun colon printed isColon => ?_⟩
  · rw [isName]
    exact Token.noConfusion
  · rw [List.singleton_append, readComponent_colon isColon (by rw [selectorFunction?, isName]),
      pseudo, isName]
    dsimp only
    rw [other]
    rfl

/-- **A pseudo-element is read again**, with two colons and without an argument. -/
theorem rereads_pseudoElement (isColon : piece.token = .colon)
    (reads : ∀ offset, ∃ name' : Piece, PiecesIn opened offset named next [name'] ∧
      name'.token = .ident named) :
    RereadsComponent opened (piece :: rest) behind (.pseudoElement named) next := by
  refine rereads_colon isColon rfl fun offset => ?_
  obtain ⟨name', readsName, isName⟩ := reads (offset + Text.bytes [':'])
  refine ⟨_, .pseudoElement named,
    (piecesIn_colon opened offset (named ++ next)).append readsName, ?_, rfl,
    fun colon printed isColon => ?_⟩
  · refine List.forall_mem_cons.2 ⟨Token.noConfusion, List.forall_mem_singleton.2 ?_⟩
    rw [isName]
    exact Token.noConfusion
  · have found : elementName? (name' :: printed) = some named := by
      rw [elementName?, isName]
    rw [readComponent_colon isColon rfl]
    exact pseudo_element rfl found

theorem text_of_isVerbatim (isFunction : function.token = .function named)
    (verbatim : function.head.isVerbatim = true) : function.head.text = named ++ ['('] := by
  change function.head.token = .function named at isFunction
  rw [Lexeme.isVerbatim, isFunction] at verbatim
  exact beq_iff_eq.1 verbatim

/-- A function with something else in its parentheses. -/
theorem exists_piecesIn_function {inside : Text} {forest : Forest} {offset : Nat}
    (stands : Sealed opened.head? (function :: behind) trail)
    (isFunction : function.token = .function named) (verbatim : function.head.isVerbatim = true)
    (same : Text.equalAnyCase named ['u', 'r', 'l'] = true →
      ((inside ++ ')' :: next).dropWhile isSpace).head? =
        ((spelling (function.own.tail ++ (behind.flatMap Piece.lexemes ++ trail))).dropWhile
          isSpace).head?)
    (reads : ReadsIn (.parenthesis :: opened) (offset + Text.bytes function.head.text) inside
      (')' :: next) forest) :
    ∃ function' : Piece, PiecesIn opened offset (named ++ ('(' :: inside ++ [')'])) next
      [function'] ∧ function'.token = .function named ∧ function'.body = forest := by
  obtain ⟨function', readsPieces, token, body, _⟩ := PiecesIn.enclose
    (stands.lexes_function isFunction same) (lexes_parenthesis next) rfl rfl reads
  refine ⟨function', ?_, token, body⟩
  rwa [text_of_isVerbatim isFunction verbatim, List.append_assoc] at readsPieces

/-- **A pseudo-class with an argument of its own is read again.** -/
theorem rereads_raw (isColon : piece.token = .colon)
    (stands : Sealed opened.head? (function :: behind) trail)
    (isFunction : function.token = .function named) (verbatim : function.head.isVerbatim = true)
    (takesNone : takesSelectors named = false) :
    RereadsComponent opened (piece :: rest) behind
      (.pseudoClass named (.raw (Text.trim function.body.text))) next := by
  obtain ⟨_, trimmed, starts⟩ := @Sealed.exists_trimmed _ _ _ _ .parenthesis ')' stands
    (by rw [isFunction]; rfl) (.inl ⟨rfl, rfl⟩)
  refine rereads_colon isColon rfl fun offset => ?_
  obtain ⟨forest, reads⟩ := trimmed opened next (offset + Text.bytes function.head.text)
  obtain ⟨function', readsPieces, token, rfl⟩ :=
    exists_piecesIn_function stands isFunction verbatim (fun _ => starts next) reads
  refine ⟨[function'], .pseudoClass named (.raw (Text.trim function.body.text)), readsPieces,
    List.forall_mem_singleton.2 ?_, rfl, fun colon printed isColon => ?_⟩
  · rw [token]
    exact Token.noConfusion
  · have none : selectorFunction? (function' :: printed) = none := by
      rw [selectorFunction?, token]
      simp only [takesNone, Bool.false_eq_true, ↓reduceIte]
    rw [List.singleton_append, readComponent_colon isColon none, pseudo, token]
    dsimp only
    rw [reads.text_eq, Text.trim_trim]
    rfl

/-- **A pseudo-class with selectors as its argument is read again** if they are. -/
theorem rereads_selectors {list : SelectorList} (isColon : piece.token = .colon)
    (stands : Sealed opened.head? (function :: behind) trail)
    (isFunction : function.token = .function named) (verbatim : function.head.isVerbatim = true)
    (takes : takesSelectors named = true)
    (reads : ∀ offset, ∃ printed back, PiecesIn (.parenthesis :: opened) offset
      (selectorListText list) (')' :: next) printed ∧ readSelectors true printed = .ok back ∧
      unplacedSelectors back = unplacedSelectors list) :
    RereadsComponent opened (piece :: rest) behind (.pseudoClass named (.selectors list)) next := by
  have noUrl : ¬ Text.equalAnyCase named ['u', 'r', 'l'] = true := by
    intro isUrl
    have same : named.map Char.toLower = ['u', 'r', 'l'].map Char.toLower := beq_iff_eq.1 isUrl
    have found : selectorPseudoClasses.any (fun name => ['u', 'r', 'l'].map Char.toLower ==
        name.map Char.toLower) = true := by
      rw [← same]
      exact takes
    exact absurd found (by decide)
  refine rereads_colon isColon rfl fun offset => ?_
  obtain ⟨printed, back, ⟨forest, reads, front⟩, read, same⟩ :=
    reads (offset + Text.bytes function.head.text)
  obtain ⟨function', readsPieces, token, rfl⟩ :=
    exists_piecesIn_function stands isFunction verbatim (fun isUrl => absurd isUrl noUrl) reads
  have pieces : function'.body.pieces = printed := by
    have whole := front .nil
    rw [Forest.append_nil] at whole
    exact whole.trans (List.append_nil printed)
  refine ⟨[function'], .pseudoClass named (.selectors back), readsPieces,
    List.forall_mem_singleton.2 ?_, ?_, fun colon printed isColon => ?_⟩
  · rw [token]
    exact Token.noConfusion
  · rw [Component.unplaced, PseudoArgument.unplaced, same]
    rfl
  · have some : selectorFunction? (function' :: printed) = some (named, function') := by
      rw [selectorFunction?, token]
      simp only [takes, ↓reduceIte]
    rw [List.singleton_append, readComponent, if_pos isColon, some]
    dsimp only
    rw [pieces, read]
    rfl

/-- A name or a function behind a colon, or another colon and a name. -/
theorem rereads_pseudo (stands : Sealed opened.head? rest trail) (isColon : piece.token = .colon)
    (here : IsSteadyAt piece rest) (steady : isSteady rest = true)
    (seam : Seam (rest.drop count) trail next) (selectors : selectorFunction? rest = none)
    (read : pseudo rest = .ok (result, count)) :
    RereadsComponent opened (piece :: rest) (rest.drop count) result next := by
  rcases rest with _ | ⟨first, more⟩
  · cases read
  · have verbatim := here.verbatim isColon first rfl
    unfold pseudo at read
    dsimp only at read
    split at read
    · rename_i isSecond
      split at read
      · rename_i named found
        obtain ⟨rfl, rfl⟩ := Prod.mk.inj (Except.ok.inj read)
        obtain ⟨name, behind, rfl, isName⟩ := elementName?_eq_some found
        obtain ⟨second, _, steady⟩ := isSteady_cons_iff.1 steady
        have stands : Sealed opened.head? (name :: behind) trail := stands.drop 1
        exact rereads_pseudoElement isColon (exists_piecesIn_element stands isName
          (second.verbatim isSecond name rfl) steady seam fun opens next isNext =>
            here.element isColon first rfl isSecond name rfl opens next
              (by rwa [List.head?_eq_getElem?] at isNext))
      · cases read
    · rename_i named isIdent
      split at read
      · obtain ⟨rfl, rfl⟩ := Prod.mk.inj (Except.ok.inj read)
        exact rereads_pseudoElement isColon
          (exists_piecesIn_ident stands isIdent verbatim steady seam)
      · rename_i other
        obtain ⟨rfl, rfl⟩ := Prod.mk.inj (Except.ok.inj read)
        exact rereads_pseudoClass isColon (Bool.eq_false_iff.2 other)
          (exists_piecesIn_ident stands isIdent verbatim steady seam)
    · rename_i named isFunction
      obtain ⟨rfl, rfl⟩ := Prod.mk.inj (Except.ok.inj read)
      exact rereads_raw isColon stands isFunction verbatim
        (takesSelectors_of_selectorFunction? selectors isFunction)
    · cases read

/-- **What stands behind a colon is read again** if the selectors in arguments are. -/
theorem rereads_behind_colon (stands : Sealed opened.head? (piece :: rest) trail)
    (isColon : piece.token = .colon) (steady : isSteady (piece :: rest) = true)
    (seam : Seam (rest.drop count) trail next)
    (inner : ∀ argument ∈ rest, ∀ opened, RereadsSelectors opened argument.body.pieces)
    (read : readComponent piece rest = .ok (result, count)) :
    RereadsComponent opened (piece :: rest) (rest.drop count) result next := by
  obtain ⟨here, _, steady⟩ := isSteady_cons_iff.1 steady
  have stands : Sealed opened.head? rest trail := stands.drop 1
  cases selectors : selectorFunction? rest with
  | some found =>
      obtain ⟨named, function⟩ := found
      obtain ⟨behind, rfl, isFunction⟩ := exists_name_of_selectorFunction? selectors
      rw [readComponent, if_pos isColon, selectors] at read
      dsimp only at read
      split at read
      · cases read
      · rename_i list readList
        obtain ⟨rfl, rfl⟩ := Prod.mk.inj (Except.ok.inj read)
        have opens : function.token.opens? = some .parenthesis := by rw [isFunction.1]; rfl
        obtain ⟨trail', standsBody, ends⟩ := stands.exists_body opens
        have steadyBody := (isSteady_cons_iff.1 steady).2.1 (by
          rw [holdsSelectors, isFunction.1]
          exact isFunction.2)
        have isEnd : EndsList (')' :: next) := fun c first => .inr (Option.some.inj first).symm
        refine rereads_selectors isColon stands isFunction.1 (here.verbatim isColon function rfl)
          isFunction.2 fun offset => ?_
        obtain ⟨printed, again, readsPieces, reads, same⟩ := inner function List.mem_cons_self
          (.parenthesis :: opened) standsBody ends isEnd steadyBody readList [] (List.forall_mem_nil _)
          offset
        exact ⟨printed, again, readsPieces, reads true, same⟩
  | none =>
      rw [readComponent_colon isColon selectors] at read
      exact rereads_pseudo stands isColon here steady seam selectors read

end Colons

/-! ### Components -/

section Components

variable {opened : List Bracket} {piece : Piece} {rest : List Piece} {trail : List Lexeme}
  {text next : Text} {result : Component} {count : Nat}

theorem nodeLength?_le (length : nodeLength? piece rest = some count) : count ≤ rest.length := by
  unfold nodeLength? at length
  split at length
  · exact (@takesQuiet_of_nameLength? rest [] count length).1.length
  · exact (@takesQuiet_of_nameLength? rest [] count length).1.length
  · obtain rfl := Option.some.inj length
    exact (takesQuiet_interpolation rest).length
  · obtain rfl := Option.some.inj length
    exact (takesQuiet_tailLength rest).length
  · obtain rfl := Option.some.inj length
    exact (takesQuiet_tailLength rest).length
  · obtain rfl := Option.some.inj length
    exact Nat.zero_le _

/-- The pieces of a node and those behind it. -/
theorem exists_taken (read : component piece rest = .ok (result, count)) :
    ∃ taken behind, rest = taken ++ behind ∧ taken.length = count ∧ rest.drop count = behind := by
  have within := nodeLength?_le (component_eq_ok_iff.1 read).1
  exact ⟨rest.take count, rest.drop count, (List.take_append_drop count rest).symm,
    List.length_take_of_le within, rfl⟩

/-- **A simple selector is read again.** -/
theorem rereads_component (stands : Sealed opened.head? (piece :: rest) trail)
    (dark : piece.token ≠ .whitespace) (noComma : piece.token ≠ .comma)
    (steady : isSteady (piece :: rest) = true) (seam : Seam (rest.drop count) trail next)
    (inner : ∀ argument ∈ rest, ∀ opened, RereadsSelectors opened argument.body.pieces)
    (read : readComponent piece rest = .ok (result, count)) (simple : result.isCombinator = false) :
    RereadsComponent opened (piece :: rest) (rest.drop count) result next := by
  by_cases isColon : piece.token = .colon
  · exact rereads_behind_colon stands isColon steady seam inner read
  · rw [readComponent_of_ne isColon] at read
    by_cases isSquare : piece.token = .opening .square
    · rw [component, isSquare] at read
      obtain ⟨rfl, rfl⟩ := Prod.mk.inj (Except.ok.inj read)
      exact rereads_attr stands isSquare
        ((isSteady_cons_iff.1 steady).1.bare (.inr isSquare))
    · obtain ⟨taken, behind, rfl, rfl, same⟩ := exists_taken read
      rw [same] at seam ⊢
      exact rereads_kept stands dark noComma isColon isSquare steady seam read simple

/-- The signs in front of which every token ends. -/
theorem meets_of_sign {c : Char} (sign : c ∈ [' ', ':', '[', '#', '&', '*']) (text : Text) :
    Meets (c :: text) (c :: text) := by
  simp only [List.mem_cons, List.not_mem_nil, or_false] at sign
  rcases sign with rfl | rfl | rfl | rfl | rfl | rfl <;>
    exact ⟨rfl, rfl, rfl, fun same => absurd (Option.some.inj same) (by decide)⟩

/-- What stands behind a colon is written behind a colon. -/
theorem exists_text_of_colon (isColon : piece.token = .colon)
    (read : readComponent piece rest = .ok (result, count)) :
    ∃ inside, result.text = ':' :: inside := by
  rw [readComponent, if_pos isColon] at read
  split at read
  · split at read
    · cases read
    · obtain ⟨rfl, _⟩ := Prod.mk.inj (Except.ok.inj read)
      exact ⟨_, rfl⟩
  · unfold pseudo at read
    repeat' split at read
    all_goals first
      | (obtain ⟨rfl, _⟩ := Prod.mk.inj (Except.ok.inj read)
         exact ⟨_, rfl⟩)
      | cases read

/-- A combinator that is read is written as a sign, as nothing behind a colon is one. -/
theorem exists_sign_of_readComponent (read : readComponent piece rest = .ok (result, count))
    (noSimple : result.isCombinator = true) :
    ∃ kind c, result = .combinator kind ∧ count = 0 ∧ (c = '>' ∨ c = '+' ∨ c = '~') ∧
      piece.token = .delim c ∧ kind.text = [' ', c, ' '] ∧
      ∀ (sign : Piece) (behind : List Piece), sign.token = .delim c →
        component sign behind = .ok (.combinator kind, 0) := by
  by_cases isColon : piece.token = .colon
  · obtain ⟨inside, text⟩ := exists_text_of_colon isColon read
    cases result with
    | combinator sign => cases sign <;> exact absurd (List.cons.inj text).1 (by decide)
    | _ => exact Bool.noConfusion noSimple
  · rw [readComponent_of_ne isColon] at read
    exact exists_sign read noSimple

theorem nameLength?_pos (named : nameLength? rest = some count) : 0 < count := by
  unfold nameLength? at named
  repeat' split at named
  all_goals first
    | (obtain rfl := Option.some.inj named
       omega)
    | cases named

/-- Digits do not start elsewhere either. -/
theorem digits_append_of_ne_nil {front back other : Text} (written : front ≠ [])
    (none : digits (front ++ back) = 0) : digits (front ++ other) = 0 := by
  cases front with
  | nil => exact absurd rfl written
  | cons c front =>
      rw [digits, List.cons_append, List.takeWhile_cons] at none ⊢
      cases digit : c.isDigit with
      | false => rfl
      | true =>
          rw [digit] at none
          exact absurd none (Nat.succ_ne_zero _)

/-- Behind a dot no digit is written. -/
theorem meets_dot (stands : Sealed opened.head? (piece :: rest) trail)
    (isDot : piece.token = .delim '.') (named : nameLength? rest = some count) (next : Text) :
    Meets ('.' :: (piecesText (rest.take count) ++ next))
      ('.' :: (piecesText (rest.take count) ++ next)) := by
  have made := stands.isMade.2
  rw [isDot, stands.own_of_opensNone (by rw [isDot]; rfl), List.tail_cons, List.nil_append,
    spelling_append, spelling_lexemes] at made
  have split : piecesText rest = piecesText (rest.take count) ++ piecesText (rest.drop count) := by
    rw [piecesText, piecesText, piecesText, ← List.flatMap_append, List.take_append_drop]
  have written : piecesText (rest.take count) ≠ [] := by
    cases rest with
    | nil => cases named
    | cons first rest =>
        obtain ⟨less, rfl⟩ := Nat.exists_eq_succ_of_ne_zero (Nat.ne_of_gt (nameLength?_pos named))
        have stands : Sealed opened.head? (first :: rest) trail :=
          stands.drop 1
        exact List.append_ne_nil_of_left_ne_nil (text_ne_nil stands) _
  have none : digits (piecesText (rest.take count) ++ next) = 0 := by
    have none := made.2 (.inl rfl)
    rw [split, List.append_assoc] at none
    exact digits_append_of_ne_nil written none
  have ends : endsToken ('.' :: (piecesText (rest.take count) ++ next)) = true := by
    rw [endsToken, none]
    rfl
  exact ⟨ends, ends, rfl, fun same => absurd (Option.some.inj same) (by decide)⟩

/-- Of the pieces that are apart, those that are kept with their comments are ids and square brackets. -/
theorem dropsComments_of_isApart (apart : piece.token.isApart = true) (noHash : piece.token ≠ .idHash)
    (noSquare : piece.token ≠ .opening .square) : piece.token.dropsComments = true := by
  cases token : piece.token with
  | idHash => exact absurd token noHash
  | opening bracket =>
      rw [token] at apart noSquare
      cases bracket with
      | square => exact absurd rfl noSquare
      | _ => exact Bool.noConfusion apart
  | delim _ | whitespace | comma | colon =>
      rw [token] at apart
      exact apart
  | _ =>
      rw [token] at apart
      exact Bool.noConfusion apart

/-- What is written of a piece that is apart starts with a sign. -/
theorem exists_mark (stands : Sealed opened.head? (piece :: rest) trail)
    (apart : piece.token.isApart = true) (dark : piece.token ≠ .whitespace)
    (noComma : piece.token ≠ .comma) (steady : isSteady (piece :: rest) = true)
    (read : readComponent piece rest = .ok (result, count)) (simple : result.isCombinator = false) :
    ∃ sign inside, result.text = sign :: inside ∧ sign ∈ ['.', ':', '[', '#', '&', '*'] ∧
      (sign = '.' → piece.token = .delim '.' ∧ nameLength? rest = some count ∧
        inside = piecesText (rest.take count)) ∧
      (sign = '*' → piece.head.text.head? = some '*') := by
  have bare := (isSteady_cons_iff.1 steady).1.bare
  have signed {sign : Char} {inside : Text} (text : result.text = sign :: inside)
      (member : sign ∈ [':', '[', '#', '&']) :
      ∃ sign inside, result.text = sign :: inside ∧ sign ∈ ['.', ':', '[', '#', '&', '*'] ∧
        (sign = '.' → piece.token = .delim '.' ∧ nameLength? rest = some count ∧
          inside = piecesText (rest.take count)) ∧
        (sign = '*' → piece.head.text.head? = some '*') := by
    refine ⟨sign, inside, text, List.mem_cons_of_mem '.' (List.mem_append_left ['*'] member),
      ?_, ?_⟩ <;> (rintro rfl; exact absurd member (by decide))
  by_cases isColon : piece.token = .colon
  · obtain ⟨inside, text⟩ := exists_text_of_colon isColon read
    exact signed text (by decide)
  rw [readComponent_of_ne isColon] at read
  by_cases isSquare : piece.token = .opening .square
  · rw [component, isSquare] at read
    obtain ⟨rfl, rfl⟩ := Prod.mk.inj (Except.ok.inj read)
    exact signed rfl (by decide)
  by_cases isIdHash : piece.token = .idHash
  · have hash := head?_text_of_idHash stands isIdHash (bare (.inl isIdHash))
    obtain ⟨tail, text⟩ := List.head?_eq_some_iff.1 hash
    have whole := text_of_keepsComments read (by rw [isIdHash]; rfl) isSquare fun _ => hash
    change _ = piece.text ++ _ at whole
    rw [text] at whole
    exact signed whole (by decide)
  · have drops := dropsComments_of_isApart apart isIdHash isSquare
    obtain ⟨sign, member, token, text⟩ :=
      text_of_dropsComments read drops dark noComma isColon simple
    refine ⟨sign, _, text, ?_, ?_, ?_⟩
    · simp only [List.mem_cons, List.not_mem_nil, or_false] at member ⊢
      tauto
    · rintro rfl
      have named := (component_eq_ok_iff.1 read).1
      rw [nodeLength?, token] at named
      exact ⟨token, named, rfl⟩
    · rintro rfl
      have made := stands.isMade.2
      rw [token] at made
      rw [made.1]
      rfl

/-- **In front of what is written of a piece that is apart, every token ends.** -/
theorem meets_component (stands : Sealed opened.head? (piece :: rest) trail)
    (apart : piece.token.isApart = true) (dark : piece.token ≠ .whitespace)
    (noComma : piece.token ≠ .comma) (steady : isSteady (piece :: rest) = true)
    (read : readComponent piece rest = .ok (result, count)) (simple : result.isCombinator = false)
    (next : Text) :
    Meets (result.text ++ next) (result.text ++ next) ∧
      ((result.text ++ next).head? = some '*' → piece.head.text.head? = some '*') := by
  obtain ⟨sign, inside, text, member, dot, star⟩ :=
    exists_mark stands apart dark noComma steady read simple
  rw [text]
  refine ⟨?_, fun isStar => star (Option.some.inj isStar)⟩
  rcases List.mem_cons.1 member with rfl | member
  · obtain ⟨isDot, named, rfl⟩ := dot rfl
    exact meets_dot stands isDot named next
  · exact meets_of_sign (List.mem_cons_of_mem ' ' member) _

/-- Where nothing but a star is written first, no comment stands in front of it. -/
theorem head?_of_star (stands : Sealed opened.head? (piece :: rest) trail)
    (star : piece.text.head? = some '*') : piece.head.text.head? = some '*' := by
  rw [Piece.text, Piece.lexemes_eq, List.flatMap_append] at star
  cases lead : piece.lead with
  | nil =>
      obtain ⟨inside, own⟩ := piece.exists_own
      rw [lead, own, List.flatMap_nil, List.nil_append, List.flatMap_cons] at star
      cases text : piece.head.text with
      | nil => exact absurd text stands.isMade.1
      | cons c tail =>
          rw [text] at star
          exact star
  | cons comment comments =>
      have cut := stands.stretch.cut
      rw [List.flatMap_cons, Piece.lexemes_eq, lead] at cut
      have isComment := (stands.stretch.proper piece List.mem_cons_self).lead comment
        (by rw [lead]; exact List.mem_cons_self)
      have made := (@AreCut.isMade [] _ comment cut).2
      rw [isComment] at made
      rw [lead, List.flatMap_cons, List.append_assoc, List.head?_append, made] at star
      exact absurd (Option.some.inj star) (by decide)

/-- What is written of a piece that is not apart is the text of its node. -/
theorem text_of_not_isApart (apart : piece.token.isApart = false) (dark : piece.token ≠ .whitespace)
    (noComma : piece.token ≠ .comma) (read : readComponent piece rest = .ok (result, count)) :
    component piece rest = .ok (result, count) ∧
      result.text = piecesText (piece :: rest.take count) := by
  have other {token : Token} (isApart : token.isApart = true) : piece.token ≠ token := by
    rintro rfl
    rw [isApart] at apart
    exact Bool.noConfusion apart
  have keeps : piece.token.dropsComments = false := by
    refine Bool.eq_false_iff.2 fun drops => ?_
    obtain ⟨sign, member, token⟩ :=
      eq_delim_of_dropsComments drops dark noComma (other rfl)
    exact @other (.delim sign) (List.contains_iff_mem.2 member) token
  rw [readComponent_of_ne (other rfl)] at read
  exact ⟨read, text_of_keepsComments read keeps (other rfl) fun isHash => absurd isHash (other rfl)⟩

/-- **What is written of a component follows what is in front** as the pieces did. -/
theorem seam_component (stands : Sealed opened.head? (piece :: rest) trail)
    (ends : endsToken (spelling trail) = true) (dark : piece.token ≠ .whitespace)
    (noComma : piece.token ≠ .comma) (steady : isSteady (piece :: rest) = true)
    (seam : Seam (rest.drop count) trail next)
    (read : readComponent piece rest = .ok (result, count)) (simple : result.isCombinator = false) :
    Seam (piece :: rest) trail (result.text ++ next) := by
  cases apart : piece.token.isApart with
  | true =>
      obtain ⟨meets, star⟩ := meets_component stands apart dark noComma steady read simple next
      refine .of_meets stands ends (fun first isFirst => ?_) meets fun found =>
        ⟨piece, rfl, star found⟩
      obtain rfl := Option.some.inj isFirst
      exact apart
  | false =>
      obtain ⟨read, text⟩ := text_of_not_isApart apart dark noComma read
      obtain ⟨taken, behind, rfl, rfl, same⟩ := exists_taken read
      rw [List.take_left] at text
      rw [same] at seam
      rw [← List.cons_append] at stands steady
      have settled : IsSettled (piecesText (piece :: taken)) next := by
        have noComment := noComment_of_isSteady stands (List.cons_ne_nil _ _) steady seam
        rw [← spelling_lexemes] at noComment ⊢
        exact isSettled_of_isSolid stands.split.1.solid noComment
      have whole : piecesText (piece :: taken ++ behind) ++ spelling trail =
          piecesText (piece :: taken) ++ (piecesText behind ++ spelling trail) := by
        rw [piecesText, List.flatMap_append, List.append_assoc]
        rfl
      rw [text]
      refine ⟨?_, fun star => ⟨piece, rfl, ?_⟩, fun apart' => ?_⟩
      · rw [← List.cons_append, whole]
        exact seam.follows.extend settled
      · refine head?_of_star stands ?_
        change (piece.text ++ piecesText taken ++ next).head? = some '*' at star
        cases spelled : piece.text with
        | nil => exact absurd spelled (text_ne_nil stands)
        | cons c tail =>
            rw [spelled] at star
            exact star
      · rw [apart' piece rfl] at apart
        exact Bool.noConfusion apart

theorem startsDark_text (stands : Sealed opened.head? (piece :: rest) trail)
    (dark : piece.token ≠ .whitespace) : StartsDark piece.text := by
  have starts {lexeme : Lexeme} {tokens : List Lexeme} (lexemes : piece.lexemes = lexeme :: tokens)
      (noSpace : lexeme.token ≠ .whitespace) : StartsDark piece.text := by
    have first := (stands.solid lexeme (by
      rw [List.flatMap_cons, lexemes]
      exact List.mem_cons_self)).first noSpace
    change StartsDark (spelling piece.lexemes)
    have cut := stands.stretch.cut
    rw [List.flatMap_cons, lexemes] at cut
    have written := (@AreCut.isMade [] _ lexeme cut).1
    rw [lexemes, spelling_cons]
    cases text : lexeme.text with
    | nil => exact absurd text written
    | cons c tail =>
        refine ⟨c, _, rfl, Bool.eq_false_iff.2 fun space => ?_⟩
        have blank := first c (by rw [text]; rfl)
        rw [isBlank_of_isSpace space] at blank
        exact Bool.noConfusion blank
  cases lead : piece.lead with
  | nil =>
      obtain ⟨inside, own⟩ := piece.exists_own
      exact starts (by rw [Piece.lexemes_eq, lead, own]; rfl) dark
  | cons comment comments =>
      refine starts (by rw [Piece.lexemes_eq, lead]; rfl) ?_
      rw [(stands.stretch.proper piece List.mem_cons_self).lead comment
        (by rw [lead]; exact List.mem_cons_self)]
      exact Token.noConfusion

/-- White space does not start what is written of a component. -/
theorem startsDark_component (stands : Sealed opened.head? (piece :: rest) trail)
    (dark : piece.token ≠ .whitespace) (noComma : piece.token ≠ .comma)
    (steady : isSteady (piece :: rest) = true)
    (read : readComponent piece rest = .ok (result, count)) (simple : result.isCombinator = false) :
    StartsDark result.text := by
  cases apart : piece.token.isApart with
  | true =>
      obtain ⟨sign, inside, text, member, _⟩ :=
        exists_mark stands apart dark noComma steady read simple
      refine ⟨sign, inside, text, ?_⟩
      simp only [List.mem_cons, List.not_mem_nil, or_false] at member
      rcases member with rfl | rfl | rfl | rfl | rfl | rfl <;> rfl
  | false =>
      rw [(text_of_not_isApart apart dark noComma read).2]
      exact (startsDark_text stands dark).append _

end Components

end SelectorList

end ScssLint
