import ScssLint.Proofs.Selector.Rereading

/-! # Rewriting selector lists

What is written of a selector list that was read from a steady text is read as the same list, apart
from the places of its nodes (`SelectorList.exists_parse_rewritten`): by induction over the nodes and
the weight of the pieces, as what is written of each component is read again.
-/

namespace ScssLint

open Css

namespace SelectorList

/-- Whether what is written of some nodes is read as the nodes again and starts like the pieces of
which they were read, with white space in front unless a simple selector stands there. -/
def RereadsNodes (opened : List Bracket) (behindSimple : Bool) (pieces : List Piece)
    (nodes : Selector) (next : Text) : Prop :=
  ∀ blank : Text, (∀ c ∈ blank, isSpace c = true) → (behindSimple = true → blank = []) →
    ∀ offset, ∃ printed again,
      PiecesIn opened offset (blank ++ selectorText nodes) next printed ∧
        (∀ piece ∈ printed, piece.token ≠ .comma) ∧
        readNodes behindSimple none printed = .ok again ∧
        unplacedNodes again = unplacedNodes nodes ∧ (behindSimple = true → StartsAs pieces printed)

/-! ### Nodes -/

section Nodes

variable {opened : List Bracket} {behindSimple : Bool} {spaces rest behind : List Piece}
  {piece : Piece} {trail : List Lexeme} {blank text next : Text} {nodes : Selector}
  {component : Component} {place : Nat}

/-- White space is one token. -/
theorem exists_piecesIn_blank (spaces : ∀ c ∈ blank, isSpace c = true)
    (stops : ∀ c ∈ text.head?, isSpace c = false) (opened : List Bracket) (offset : Nat) :
    ∃ gaps, PiecesIn opened offset blank text gaps ∧ (∀ gap ∈ gaps, gap.token = .whitespace) ∧
      (gaps = [] ↔ blank = []) := by
  cases blank with
  | nil => exact ⟨[], .nil, List.forall_mem_nil _, iff_of_true rfl rfl⟩
  | cons c blank =>
      exact ⟨_, .of_readsPieces (.of_isInert (lexes_space spaces stops) rfl),
        List.forall_mem_singleton.2 rfl, iff_of_false (List.cons_ne_nil _ _) (List.cons_ne_nil _ _)⟩

/-- White space in front of other pieces. -/
theorem readNodes_spaces (blanks : ∀ space ∈ spaces, space.token = .whitespace)
    (gap? : Option Nat) (rest : List Piece) :
    readNodes behindSimple gap? (spaces ++ rest) =
      readNodes behindSimple
        (gap? <|> if behindSimple then spaces.head?.map Piece.start else none) rest := by
  induction spaces generalizing gap? with
  | nil => cases gap? <;> cases behindSimple <;> rfl
  | cons space spaces ih =>
      obtain ⟨blank, blanks⟩ := List.forall_mem_cons.1 blanks
      rw [List.cons_append, readNodes, if_pos blank, ih blanks]
      cases gap? <;> cases behindSimple <;> rfl

theorem isNamePart_of_whitespace (blank : piece.token = .whitespace) : isNamePart piece = false := by
  rw [isNamePart, isDelim, isCurlyBlock, carriesOnName, blank]
  rfl

/-- Behind white space, no part of a name comes first. -/
theorem apart_spaces (blanks : ∀ space ∈ spaces, space.token = .whitespace)
    (apart : spaces = [] → ∀ first ∈ rest.head?, isNamePart first = false) :
    ∀ first ∈ (spaces ++ rest).head?, isNamePart first = false := by
  cases spaces with
  | nil => exact apart rfl
  | cons space spaces =>
      intro first isFirst
      obtain rfl := Option.some.inj isFirst
      exact isNamePart_of_whitespace (blanks _ List.mem_cons_self)

/-- A component behind white space, and what stands behind it. -/
theorem readNodes_step {later printed : List Piece}
    (blanks : ∀ space ∈ spaces, space.token = .whitespace) (dark : piece.token ≠ .whitespace)
    (read : readComponent piece (later ++ printed) = .ok (component, later.length))
    (readLater : readNodes (!component.isCombinator) none printed = .ok nodes) :
    readNodes behindSimple none (spaces ++ (piece :: later ++ printed)) =
      .ok (behindGap (if behindSimple then spaces.head?.map Piece.start else none)
        ⟨component, piece.start⟩ ++ nodes) := by
  rw [readNodes_spaces blanks, List.cons_append, readNodes_cons dark, read]
  dsimp only
  rw [List.drop_left, readLater]
  rfl

theorem behindGap_combinator (gap? : Option Nat) (kind : Combinator) (place : Nat) :
    behindGap gap? ⟨.combinator kind, place⟩ = [⟨.combinator kind, place⟩] := by
  cases gap? <;> rfl

/-- Nothing but white space is written as nothing. -/
theorem rereadsNodes_nil (blanks : ∀ space ∈ spaces, space.token = .whitespace)
    (isEnd : EndsList next) : RereadsNodes opened behindSimple spaces [] next := by
  intro blank isBlank single offset
  have stops : ∀ c ∈ next.head?, isSpace c = false := fun c first => by
    rcases isEnd c first with rfl | rfl <;> rfl
  obtain ⟨gaps, readsGaps, areGaps, empty⟩ := exists_piecesIn_blank isBlank stops opened offset
  rw [selectorText, List.append_nil]
  refine ⟨gaps, [], readsGaps, fun gap member => ?_, ?_, rfl, fun simple => ?_⟩
  · rw [areGaps gap member]
    exact Token.noConfusion
  · have read := @readNodes_spaces behindSimple gaps areGaps none []
    rw [List.append_nil] at read
    rw [read, readNodes]
  · have nothing : ∀ first ∈ ([] : List Piece).head?, isNamePart first = false := fun _ none =>
      absurd none (Option.not_mem_none _)
    have starts := apart_spaces blanks fun _ => nothing
    have starts' := apart_spaces areGaps fun _ => nothing
    rw [List.append_nil] at starts starts'
    exact .of_apart starts starts'

/-- A combinator between white space. -/
theorem rereadsNodes_combinator {kind : Combinator} {c : Char}
    (blanks : ∀ space ∈ spaces, space.token = .whitespace) (token : piece.token = .delim c)
    (sign : c = '>' ∨ c = '+' ∨ c = '~') (text : kind.text = [' ', c, ' '])
    (read : ∀ (sign : Piece) (behind : List Piece), sign.token = .delim c →
      SelectorList.component sign behind = .ok (.combinator kind, 0))
    (later : RereadsNodes opened false rest nodes next) :
    RereadsNodes opened behindSimple (spaces ++ piece :: rest)
      (⟨.combinator kind, place⟩ :: nodes) next := by
  have dark : isSpace c = false := by
    rcases sign with rfl | rfl | rfl <;> rfl
  have noPart {found : Piece} (same : found.token = .delim c) : isNamePart found = false := by
    rw [isNamePart, isDelim, isCurlyBlock, carriesOnName, same]
    rcases sign with rfl | rfl | rfl <;> rfl
  intro blank isBlank _ offset
  obtain ⟨gaps, readsGaps, areGaps, _⟩ := @exists_piecesIn_blank (blank ++ [' '])
    ([c] ++ ([' '] ++ selectorText nodes) ++ next)
    (List.forall_mem_append.2 ⟨isBlank, List.forall_mem_singleton.2 rfl⟩)
    (fun d first => Option.some.inj first ▸ dark) opened offset
  have readsSign : PiecesIn opened (offset + Text.bytes (blank ++ [' '])) [c]
      ([' '] ++ selectorText nodes ++ next) _ :=
    .of_readsPieces (.of_isInert (lexes_combinator sign (selectorText nodes ++ next)) rfl)
  obtain ⟨printed, again, readsLater, noComma, readLater, same, _⟩ :=
    later [' '] (List.forall_mem_singleton.2 rfl) (fun simple => Bool.noConfusion simple)
      (offset + Text.bytes (blank ++ [' ']) + Text.bytes [c])
  have whole := readsGaps.append (readsSign.append readsLater)
  have spelled : blank ++ [' '] ++ ([c] ++ ([' '] ++ selectorText nodes)) =
      blank ++ selectorText (⟨.combinator kind, place⟩ :: nodes) := by
    rw [selectorText, SelectorNode.text, Component.text, text, List.append_assoc]
    rfl
  rw [spelled] at whole
  have isSign : (tokenPiece (.delim c) (offset + Text.bytes (blank ++ [' '])) [c]).token =
      .delim c := rfl
  have readWhole := @readNodes_step behindSimple gaps _ again (.combinator kind) [] printed areGaps
    (by rw [isSign]; exact Token.noConfusion)
    ((readComponent_of_ne (by rw [isSign]; exact Token.noConfusion) _).trans (read _ printed isSign))
    readLater
  rw [behindGap_combinator] at readWhole
  refine ⟨_, _, whole, List.forall_mem_append.2 ⟨fun gap member => ?_,
    List.forall_mem_cons.2 ⟨Token.noConfusion, noComma⟩⟩, readWhole, ?_, fun _ => ?_⟩
  · rw [areGaps gap member]
    exact Token.noConfusion
  · rw [List.singleton_append, unplacedNodes, unplacedNodes, same]
    rfl
  · refine .of_apart (apart_spaces blanks fun _ first isFirst => ?_)
      (apart_spaces areGaps fun _ first isFirst => ?_)
    · obtain rfl := Option.some.inj isFirst
      exact noPart token
    · obtain rfl := Option.some.inj isFirst
      exact noPart isSign

/-- The combinator that white space stands for is written as white space. -/
theorem selectorText_behindGap (simple : component.isCombinator = false) (gap? : Option Nat) :
    selectorText (behindGap gap? ⟨component, place⟩ ++ nodes) =
      gap?.toList.map (fun _ => ' ') ++ (component.text ++ selectorText nodes) := by
  rw [selectorText_append]
  cases gap? with
  | none =>
      rw [behindGap, selectorText_singleton]
      rfl
  | some gap =>
      have both : behindGap (some gap) ⟨component, place⟩ =
          [⟨.combinator .descendant, gap⟩] ++ [⟨component, place⟩] := by
        rw [behindGap]
        exact if_neg (Bool.eq_false_iff.1 simple)
      rw [both, selectorText_append, selectorText_singleton, selectorText_singleton,
        List.append_assoc]
      rfl

theorem isCombinator_unplaced (component : Component) :
    component.unplaced.isCombinator = component.isCombinator := by
  cases component <;> rfl

theorem unplacedNodes_behindGap {gap? gap'? : Option Nat} {again : Component} {place' : Nat}
    (same : Component.unplaced again = component.unplaced) (both : gap'?.isSome = gap?.isSome) :
    unplacedNodes (behindGap gap'? ⟨again, place'⟩) =
      unplacedNodes (behindGap gap? ⟨component, place⟩) := by
  have kinds : again.isCombinator = component.isCombinator := by
    rw [← isCombinator_unplaced, same, isCombinator_unplaced]
  cases gap? with
  | none =>
      obtain rfl : gap'? = none := Option.isSome_eq_false_iff.1 both |> Option.isNone_iff_eq_none.1
      simp only [behindGap, unplacedNodes, SelectorNode.unplaced, same]
  | some gap =>
      obtain ⟨gap', rfl⟩ := Option.isSome_iff_exists.1 both
      dsimp only [behindGap]
      rw [kinds]
      split <;> simp only [unplacedNodes, SelectorNode.unplaced, same]

/-- **A simple selector behind white space.** -/
theorem rereadsNodes_simple {gap? : Option Nat}
    (blanks : ∀ space ∈ spaces, space.token = .whitespace)
    (isGap : gap? = if behindSimple then spaces.head?.map Piece.start else none)
    (simple : component.isCombinator = false) (starts : StartsDark component.text)
    (first : RereadsComponent opened (piece :: rest) behind component (selectorText nodes ++ next))
    (later : RereadsNodes opened true behind nodes next) :
    RereadsNodes opened behindSimple (spaces ++ piece :: rest)
      (behindGap gap? ⟨component, place⟩ ++ nodes) next := by
  intro blank isBlank single offset
  have stops : ∀ c ∈ (component.text ++ selectorText nodes ++ next).head?, isSpace c = false := by
    rw [List.append_assoc]
    exact (starts.append _).not_isSpace
  obtain ⟨gaps, readsGaps, areGaps, empty⟩ :=
    @exists_piecesIn_blank (blank ++ gap?.toList.map fun _ => ' ') _
      (List.forall_mem_append.2 ⟨isBlank, fun c member => by
        obtain ⟨_, _, rfl⟩ := List.mem_map.1 member
        rfl⟩) stops opened offset
  obtain ⟨piece', later', again, readsFirst, noComma, dark, same, resumes⟩ :=
    first (offset + Text.bytes (blank ++ gap?.toList.map fun _ => ' '))
  obtain ⟨printed, back, readsLater, noComma', readLater, same', startsLater⟩ :=
    later [] (List.forall_mem_nil _) (fun _ => rfl)
      (offset + Text.bytes (blank ++ gap?.toList.map fun _ => ' ') + Text.bytes component.text)
  obtain ⟨read, startsWhole⟩ := resumes printed (startsLater rfl)
  have whole := readsGaps.append (readsFirst.append readsLater)
  rw [List.append_assoc, ← @selectorText_behindGap nodes component place simple gap?] at whole
  have kinds : again.isCombinator = false := by
    rw [← isCombinator_unplaced, same, isCombinator_unplaced, simple]
  have bothEmpty (isSimple : behindSimple = true) : gaps = [] ↔ spaces = [] := by
    rw [empty, single isSimple, isGap, if_pos isSimple]
    cases spaces with
    | nil => exact iff_of_true rfl rfl
    | cons space spaces => exact iff_of_false (List.cons_ne_nil _ _) (List.cons_ne_nil _ _)
  refine ⟨_, _, whole, ?_, readNodes_step areGaps dark read (by rwa [kinds]), ?_, fun isSimple => ?_⟩
  · refine List.forall_mem_append.2 ⟨fun gap member => ?_, List.forall_mem_append.2 ⟨noComma, noComma'⟩⟩
    rw [areGaps gap member]
    exact Token.noConfusion
  · rw [unplacedNodes_append, unplacedNodes_append, same']
    refine congrArg (· ++ _) (unplacedNodes_behindGap same ?_)
    cases isSimple : behindSimple with
    | false =>
        rw [isGap, isSimple]
        rfl
    | true =>
        rw [isGap, isSimple, if_pos rfl, if_pos rfl, Option.isSome_map, Option.isSome_map]
        rw [Bool.eq_iff_iff, Option.isSome_iff_ne_none, Option.isSome_iff_ne_none, Ne, Ne,
          List.head?_eq_none_iff, List.head?_eq_none_iff, bothEmpty isSimple]
  · by_cases noSpace : spaces = []
    · obtain rfl := (bothEmpty isSimple).2 noSpace
      subst noSpace
      exact startsWhole
    · have someGap := mt (bothEmpty isSimple).1 noSpace
      exact .of_apart (apart_spaces blanks fun none => absurd none noSpace)
        (apart_spaces areGaps fun none => absurd none someGap)

/-- White space in front of pieces, and the others. -/
theorem exists_spaces (pieces : List Piece) :
    ∃ spaces rest, pieces = spaces ++ rest ∧ (∀ space ∈ spaces, space.token = .whitespace) ∧
      ∀ first ∈ rest.head?, first.token ≠ .whitespace := by
  induction pieces with
  | nil => exact ⟨[], [], rfl, List.forall_mem_nil _, fun _ none => absurd none (Option.not_mem_none _)⟩
  | cons piece pieces ih =>
      by_cases blank : piece.token = .whitespace
      · obtain ⟨spaces, rest, rfl, blanks, first⟩ := ih
        exact ⟨piece :: spaces, rest, rfl, List.forall_mem_cons.2 ⟨blank, blanks⟩, first⟩
      · refine ⟨[], piece :: pieces, rfl, List.forall_mem_nil _, fun first isFirst => ?_⟩
        obtain rfl := Option.some.inj isFirst
        exact blank

/-- In front of a space that is written, every token ends. -/
theorem seam_space (stands : Sealed opened.head? rest trail)
    (ends : endsToken (spelling trail) = true)
    (apart : ∀ first ∈ rest.head?, first.token.isApart = true) (text : Text) :
    Seam rest trail (' ' :: text) :=
  .of_meets stands ends apart (meets_of_sign (by decide) text) fun star =>
    absurd (Option.some.inj star) (by decide)

theorem isApart_spaces (blanks : ∀ space ∈ spaces, space.token = .whitespace)
    (apart : spaces = [] → ∀ first ∈ rest.head?, first.token.isApart = true) :
    ∀ first ∈ (spaces ++ rest).head?, first.token.isApart = true := by
  cases spaces with
  | nil => exact apart rfl
  | cons space spaces =>
      intro first isFirst
      obtain rfl := Option.some.inj isFirst
      rw [blanks _ List.mem_cons_self]
      rfl

/-- The end of a list follows white space as the text behind it did. -/
theorem seam_nil (stands : Sealed opened.head? spaces trail) (ends : endsToken (spelling trail) = true)
    (isEnd : EndsList next) (blanks : ∀ space ∈ spaces, space.token = .whitespace) :
    Seam spaces trail next := by
  refine .of_meets stands ends (fun space isFirst => ?_) (meets_of_endsList isEnd) fun star => ?_
  · rw [blanks space (List.mem_of_mem_head? isFirst)]
    rfl
  · rcases isEnd _ star with same | same <;> exact absurd same (by decide)

/-- A combinator that is written between spaces follows what its sign followed. -/
theorem seam_combinator {kind : Combinator} {c : Char}
    (stands : Sealed opened.head? (spaces ++ piece :: rest) trail)
    (ends : endsToken (spelling trail) = true)
    (blanks : ∀ space ∈ spaces, space.token = .whitespace) (token : piece.token = .delim c)
    (sign : c = '>' ∨ c = '+' ∨ c = '~') (text : kind.text = [' ', c, ' ']) :
    Seam (spaces ++ piece :: rest) trail
      (selectorText (⟨.combinator kind, place⟩ :: nodes) ++ next) := by
  rw [selectorText, SelectorNode.text, Component.text, text]
  refine seam_space stands ends (isApart_spaces blanks fun _ first isFirst => ?_) _
  obtain rfl := Option.some.inj isFirst
  rw [token]
  rcases sign with rfl | rfl | rfl <;> rfl

/-- A simple selector follows what its pieces followed, with white space in front or without. -/
theorem seam_simple (stands : Sealed opened.head? (spaces ++ piece :: rest) trail)
    (ends : endsToken (spelling trail) = true)
    (blanks : ∀ space ∈ spaces, space.token = .whitespace) (simple : component.isCombinator = false)
    (seam : Seam (piece :: rest) trail (component.text ++ (selectorText nodes ++ next))) :
    Seam (spaces ++ piece :: rest) trail
      (selectorText (behindGap (spaces.head?.map Piece.start) ⟨component, place⟩ ++ nodes) ++
        next) := by
  rw [selectorText_behindGap simple]
  cases spaces with
  | nil =>
      rw [← List.append_assoc] at seam
      exact seam
  | cons space spaces =>
      exact seam_space stands ends
        (isApart_spaces blanks fun none => absurd none (List.cons_ne_nil _ _)) _

/-- **What is written of nodes is read again**, and follows what is in front as their pieces did. -/
theorem rereadsNodes {pieces : List Piece} (stands : Sealed opened.head? pieces trail)
    (ends : endsToken (spelling trail) = true) (isEnd : EndsList next)
    (noComma : ∀ piece ∈ pieces, piece.token ≠ .comma) (steady : isSteady pieces = true)
    (inner : ∀ argument ∈ pieces, ∀ opened, RereadsSelectors opened argument.body.pieces)
    (read : readNodes behindSimple none pieces = .ok nodes) :
    RereadsNodes opened behindSimple pieces nodes next ∧
      (behindSimple = true → Seam pieces trail (selectorText nodes ++ next)) := by
  induction left : pieces.length using Nat.strongRecOn generalizing pieces behindSimple nodes with
  | _ length ih =>
    subst left
    obtain ⟨spaces, rest, rfl, blanks, first⟩ := exists_spaces pieces
    rw [readNodes_spaces blanks] at read
    rcases rest with _ | ⟨piece, rest⟩
    · rw [readNodes] at read
      obtain rfl := Except.ok.inj read
      rw [List.append_nil] at stands ⊢
      exact ⟨rereadsNodes_nil blanks isEnd, fun _ => seam_nil stands ends isEnd blanks⟩
    · have dark := first piece rfl
      have standsHere := stands.split.2
      have steadyHere := (isSteady_split steady).2
      obtain ⟨noCommaPiece, noCommaRest⟩ :=
        List.forall_mem_cons.1 (List.forall_mem_append.1 noComma).2
      have innerRest : ∀ argument ∈ rest, ∀ opened, RereadsSelectors opened argument.body.pieces :=
        fun argument member => inner argument
          (List.mem_append_right _ (List.mem_cons_of_mem _ member))
      rw [readNodes_cons dark] at read
      split at read
      · cases read
      rename_i component count readFirst
      split at read
      · cases read
      rename_i later readLater
      obtain rfl := Except.ok.inj read
      -- The pieces behind the component are read in the same way.
      obtain ⟨rereadsLater, seamLater⟩ := ih (rest.drop count).length
        (by rw [List.length_append, List.length_cons, List.length_drop]; omega)
        (standsHere.drop (count + 1))
        (fun found member => noCommaRest found (List.mem_of_mem_drop member))
        (isSteady_drop steadyHere (count + 1))
        (fun argument member => innerRest argument (List.mem_of_mem_drop member)) readLater rfl
      cases kind : component.isCombinator with
      | true =>
          obtain ⟨sign, c, rfl, rfl, isSign, token, text, reads⟩ :=
            exists_sign_of_readComponent readFirst kind
          rw [behindGap_combinator, List.singleton_append]
          exact ⟨rereadsNodes_combinator blanks token isSign text reads rereadsLater,
            fun _ => seam_combinator stands ends blanks token isSign text⟩
      | false =>
          rw [kind] at rereadsLater seamLater
          have seam := seamLater rfl
          have starts := startsDark_component standsHere dark noCommaPiece steadyHere readFirst kind
          refine ⟨rereadsNodes_simple blanks rfl kind starts (rereads_component standsHere dark
            noCommaPiece steadyHere seam innerRest readFirst kind) rereadsLater, fun isSimple => ?_⟩
          subst isSimple
          exact seam_simple stands ends blanks kind
            (seam_component standsHere ends dark noCommaPiece steadyHere seam readFirst kind)

end Nodes

/-! ### Selectors -/

section Selectors

variable {opened : List Bracket} {trail : List Lexeme} {next : Text}

theorem exists_cons_of_unplaced {again selector : Selector} (written : selector ≠ [])
    (same : unplacedNodes again = unplacedNodes selector) : ∃ node later, again = node :: later := by
  cases again with
  | cons node later => exact ⟨node, later, rfl⟩
  | nil =>
      cases selector with
      | nil => exact absurd rfl written
      | cons node selector =>
          rw [unplacedNodes, unplacedNodes] at same
          exact absurd same.symm (List.cons_ne_nil _ _)

/-- One selector. -/
theorem rereadsList_single {pieces : List Piece} {selector : Selector} (written : selector ≠ [])
    (nodes : RereadsNodes opened false pieces selector next) :
    RereadsList opened [selector] next := by
  intro blank isBlank offset
  obtain ⟨printed, again, reads, noComma, readAgain, same, _⟩ :=
    nodes blank isBlank (fun simple => Bool.noConfusion simple) offset
  obtain ⟨node, later, rfl⟩ := exists_cons_of_unplaced written same
  refine ⟨printed, [node :: later], ?_, fun first => ?_, ?_⟩
  · rwa [selectorListText, furtherSelectorsText, List.append_nil]
  · rw [readSelectors_of_noComma noComma, readAgain]
  · rw [unplacedSelectors, unplacedSelectors, unplacedSelectors, unplacedSelectors, same]

/-- A selector, a comma, and a space in front of the others. -/
theorem rereadsList_cons {pieces : List Piece} {selector second : Selector} {more : List Selector}
    (written : selector ≠ [])
    (nodes : RereadsNodes opened false pieces selector
      ([','] ++ ([' '] ++ selectorListText (second :: more)) ++ next))
    (others : RereadsList opened (second :: more) next) :
    RereadsList opened (selector :: second :: more) next := by
  intro blank isBlank offset
  have spaceIsBlank : ∀ c ∈ [' '], isSpace c = true := List.forall_mem_singleton.2 rfl
  obtain ⟨printed, again, reads, noComma, readAgain, same, _⟩ :=
    nodes blank isBlank (fun simple => Bool.noConfusion simple) offset
  obtain ⟨node, later, rfl⟩ := exists_cons_of_unplaced written same
  have readsComma : PiecesIn opened (offset + Text.bytes (blank ++ selectorText selector)) [',']
      ([' '] ++ selectorListText (second :: more) ++ next) _ :=
    .of_readsPieces (.of_isInert (lexes_comma _) rfl)
  obtain ⟨printed', again', readsBehind, readBehind, same'⟩ := others [' '] spaceIsBlank
    (offset + Text.bytes (blank ++ selectorText selector) + Text.bytes [','])
  have whole := reads.append (readsComma.append readsBehind)
  refine ⟨printed ++ tokenPiece .comma (offset + Text.bytes (blank ++ selectorText selector))
    [','] :: printed', (node :: later) :: again', ?_, fun first => ?_, ?_⟩
  · rw [selectorListText_cons, ← List.append_assoc]
    exact whole
  · rw [readSelectors_of_comma noComma rfl, readAgain]
    dsimp only
    rw [readBehind]
  · rw [unplacedSelectors, unplacedSelectors, same, same']

/-- **What is written of selectors is read again.** -/
theorem rereadsSelectors (pieces : List Piece) (opened : List Bracket) :
    RereadsSelectors opened pieces := by
  induction pieces using induct_cut generalizing opened with
  | last segment noComma inner =>
      intro trail next first list stands ends isEnd steady read
      rw [readSelectors_of_noComma noComma] at read
      split at read
      · cases read
      · cases read
      rename_i selector written readNodes
      obtain rfl := Except.ok.inj read
      exact rereadsList_single (fun none => written none)
        (rereadsNodes stands ends isEnd noComma steady inner readNodes).1
  | comma segment comma behind noComma isComma inner later =>
      intro trail next first list stands ends isEnd steady read
      rw [readSelectors_of_comma noComma isComma] at read
      split at read
      · cases read
      · cases read
      rename_i selector written readNodes
      split at read
      · cases read
      rename_i others readOthers
      obtain rfl := Except.ok.inj read
      obtain ⟨_, second, more, rfl, _⟩ := exists_first readOthers
      obtain ⟨standsFront, standsBack⟩ := stands.split
      obtain ⟨steadyFront, steadyBack⟩ := isSteady_split steady
      have endsFront :
          endsToken (spelling ((comma :: behind).flatMap Piece.lexemes ++ trail)) = true := by
        rw [spelling_append, spelling_lexemes]
        exact standsBack.endsToken (by rw [isComma]; rfl)
      have isEndFront :
          EndsList ([','] ++ ([' '] ++ selectorListText (second :: more)) ++ next) := fun c first =>
        .inl (Option.some.inj first).symm
      have nodes := (rereadsNodes standsFront endsFront isEndFront noComma steadyFront inner
        readNodes).1
      exact rereadsList_cons (fun none => written none) nodes
        (later opened (standsBack.drop 1) ends isEnd (isSteady_drop steadyBack 1) readOthers)

end Selectors

/-- **What is written of a selector list is read as the list**, apart from the places of its nodes, if
the text that the list was read from is steady. -/
theorem exists_parse_rewritten {text : Text} {list : SelectorList} (steady : IsSteady text)
    (read : parse text = .ok list) :
    ∃ again, parse (selectorListText list) = .ok again ∧
      unplacedSelectors again = unplacedSelectors list := by
  obtain ⟨last, stands, ends⟩ := exists_sealed_ofText steady.whole steady.solid
  have nothing : EndsList [] := fun c none => absurd none (Option.not_mem_none c)
  obtain ⟨printed, again, reads, readAgain, same⟩ :=
    rereadsSelectors _ [] stands ends nothing steady.steady (parse_eq_ok_iff.1 read) []
      (List.forall_mem_nil _) 0
  refine ⟨again, parse_eq_ok_iff.2 ?_, same⟩
  rw [List.nil_append] at reads
  rw [reads.ofText]
  exact readAgain true

/-- Comments behind nodes and in an argument, an escape, a bracket in a string, an interpolation and
all combinators. -/
theorem exists_parse_rewritten_nested :
    ∃ list again : SelectorList,
      parse "é/*x*/.b[d=\"]\"]:not( .c\\>d/*)*/ ,#\x7be\x7d +%f ):g( 2n /**/+ 1 )>i ~& -h ,::j".toList =
        .ok list ∧
      selectorListText list =
        "é.b[d=\"]\"]:not(.c\\>d, #\x7be\x7d + %f):g(2n /**/+ 1) > i ~ & -h, ::j".toList ∧
      parse (selectorListText list) = .ok again ∧
      unplacedSelectors again = unplacedSelectors list := by
  have steady : IsSteady
      "é/*x*/.b[d=\"]\"]:not( .c\\>d/*)*/ ,#\x7be\x7d +%f ):g( 2n /**/+ 1 )>i ~& -h ,::j".toList := by
    decide +kernel
  have written : (parse
      "é/*x*/.b[d=\"]\"]:not( .c\\>d/*)*/ ,#\x7be\x7d +%f ):g( 2n /**/+ 1 )>i ~& -h ,::j".toList
        ).toOption.map selectorListText =
      some "é.b[d=\"]\"]:not(.c\\>d, #\x7be\x7d + %f):g(2n /**/+ 1) > i ~ & -h, ::j".toList := by
    decide +kernel
  cases read : parse
      "é/*x*/.b[d=\"]\"]:not( .c\\>d/*)*/ ,#\x7be\x7d +%f ):g( 2n /**/+ 1 )>i ~& -h ,::j".toList with
  | error fault =>
      rw [read] at written
      cases written
  | ok list =>
      rw [read] at written
      obtain ⟨again, readAgain, same⟩ := exists_parse_rewritten steady read
      exact ⟨list, again, rfl, Option.some.inj written, readAgain, same⟩

/-- The name of a pseudo-class is written without its escapes, and its colon then starts another. -/
theorem unplaced_ne_of_parse_rewritten :
    ¬ ∀ (text : Text) (list : SelectorList), parse text = .ok list →
      ∃ again, parse (selectorListText list) = .ok again ∧
        unplacedSelectors again = unplacedSelectors list := by
  intro stable
  have written : (parse "a:b\\:c".toList).toOption.map
      (fun list => (selectorListText list, (unplacedSelectors list).map (·.length))) =
        some ("a:b:c".toList, [2]) := by
    decide +kernel
  have readWritten : (parse "a:b:c".toList).toOption.map
      (fun list => (unplacedSelectors list).map (·.length)) = some [3] := by
    decide +kernel
  cases read : parse "a:b\\:c".toList with
  | error fault =>
      rw [read] at written
      cases written
  | ok list =>
      obtain ⟨again, readAgain, same⟩ := stable _ list read
      rw [read] at written
      obtain ⟨text, two⟩ := Prod.mk.inj (Option.some.inj written)
      rw [text] at readAgain
      rw [readAgain] at readWritten
      have three : (unplacedSelectors again).map (·.length) = [3] := Option.some.inj readWritten
      rw [same, two] at three
      exact absurd three (by decide)

end SelectorList

end ScssLint
