import ScssLint.Proofs.Css.Complete
import ScssLint.Proofs.Selector.Tokens

/-! # Selector lists on both sides of a comma

Where a selector list stands makes no difference to what is read, apart from the places of its nodes
(`SelectorList.readSelectors_shift`). So a complete list, a comma and another list are read as the
selectors of both (`SelectorList.parse_comma`).
-/

namespace ScssLint

open Css

mutual

/-- A component in a text with `distance` more bytes in front. -/
def Component.shift (distance : Nat) : Component → Component
  | .pseudoClass name argument => .pseudoClass name (argument.shift distance)
  | component => component

def PseudoArgument.shift (distance : Nat) : PseudoArgument → PseudoArgument
  | .selectors list => .selectors (shiftSelectors distance list)
  | argument => argument

def SelectorNode.shift (distance : Nat) : SelectorNode → SelectorNode
  | ⟨component, offset⟩ => ⟨component.shift distance, distance + offset⟩

/-- Nodes in a text with `distance` more bytes in front. -/
def shiftNodes (distance : Nat) : List SelectorNode → List SelectorNode
  | [] => []
  | node :: rest => node.shift distance :: shiftNodes distance rest

/-- Selectors in a text with `distance` more bytes in front. -/
def shiftSelectors (distance : Nat) : List (List SelectorNode) → List (List SelectorNode)
  | [] => []
  | selector :: rest => shiftNodes distance selector :: shiftSelectors distance rest

end

theorem shiftNodes_append (distance : Nat) (first rest : Selector) :
    shiftNodes distance (first ++ rest) = shiftNodes distance first ++ shiftNodes distance rest := by
  induction first with
  | nil => rfl
  | cons node first ih => rw [List.cons_append, shiftNodes, ih, shiftNodes, List.cons_append]

theorem Component.isCombinator_shift (distance : Nat) (component : Component) :
    (component.shift distance).isCombinator = component.isCombinator := by
  cases component <;> rfl

namespace SelectorList

theorem selectorFunction?_map {change : Lexeme → Lexeme} (keeps : KeepsTokens change)
    (pieces : List Piece) :
    selectorFunction? (pieces.map (.map change)) =
      (selectorFunction? pieces).map fun (name, piece) => (name, piece.map change) := by
  cases pieces with
  | nil => rfl
  | cons piece rest =>
      simp only [List.map_cons, selectorFunction?, Piece.token_map keeps]
      repeat' split
      all_goals rfl

section Shift

variable (distance : Nat)

theorem text_map_shift (piece : Piece) : (piece.map (.shift distance)).text = piece.text := by
  rw [Piece.text, Piece.lexemes_map, List.flatMap_map]
  rfl

theorem piecesText_map_shift (pieces : List Piece) :
    piecesText (pieces.map (.map (.shift distance))) = piecesText pieces := by
  simp only [piecesText, List.flatMap_map, text_map_shift]

theorem start_map_shift (piece : Piece) :
    (piece.map (.shift distance)).start = distance + piece.start := by
  obtain ⟨lead, head, block?⟩ := piece
  cases lead <;> rfl

theorem body_text_map_shift (piece : Piece) :
    (piece.map (.shift distance)).body.text = piece.body.text := by
  rw [Piece.body_map, Forest.text, Forest.lexemes_map, List.flatMap_map]
  rfl

theorem component_shift (piece : Piece) (rest : List Piece) :
    component (piece.map (.shift distance)) (rest.map (.map (.shift distance))) =
      component piece rest := by
  have keeps := keepsTokens_shift distance
  have text (pieces : List Piece) (count : Nat) :
      piecesText ((pieces.map (.map (.shift distance))).take count) =
        piecesText (pieces.take count) := by
    rw [← List.map_take, piecesText_map_shift]
  have glued (count : Nat) :
      piecesText (piece.map (.shift distance) :: (rest.map (.map (.shift distance))).take count) =
        piecesText (piece :: rest.take count) := by
    rw [← List.map_take, ← List.map_cons, piecesText_map_shift]
  have same := tokens_map keeps rest
  simp only [component, Piece.token_map keeps, nameLength?_congr same, text, glued,
    head?_any_isCurlyBlock_congr same, tailLength_congr same,
    tailLength_congr (tokens_drop same _), text_map_shift]

theorem pseudo_shift (rest : List Piece) :
    pseudo (rest.map (.map (.shift distance))) = pseudo rest := by
  have keeps := keepsTokens_shift distance
  cases rest with
  | nil => rfl
  | cons piece rest =>
      simp only [List.map_cons, pseudo, Piece.token_map keeps,
        elementName?_congr (tokens_map keeps rest), body_text_map_shift]

theorem behindGap_shift (gap? : Option Nat) (node : SelectorNode) :
    behindGap (gap?.map (distance + ·)) (node.shift distance) =
      shiftNodes distance (behindGap gap? node) := by
  obtain ⟨component, offset⟩ := node
  cases gap? with
  | none => rfl
  | some gap =>
      simp only [Option.map_some, behindGap, SelectorNode.shift, Component.isCombinator_shift]
      split <;> rfl

theorem map_pseudo (rest : List Piece) :
    ((pseudo rest).map fun (component, count) => (component.shift distance, count)) =
      pseudo rest := by
  unfold pseudo
  repeat' split
  all_goals rfl

theorem map_component (piece : Piece) (rest : List Piece) :
    ((component piece rest).map fun (component, count) => (component.shift distance, count)) =
      component piece rest := by
  unfold component
  repeat' split
  all_goals rfl

/-- Whether the selectors in an argument are read where it stands as elsewhere. -/
def ReadsShifted (argument : Piece) : Prop :=
  readSelectors true (argument.body.pieces.map (.map (.shift distance))) =
    (readSelectors true argument.body.pieces).map (shiftSelectors distance)

theorem readComponent_shift {piece : Piece} {rest : List Piece}
    (inner : ∀ argument ∈ rest, ReadsShifted distance argument) :
    readComponent (piece.map (.shift distance)) (rest.map (.map (.shift distance))) =
      (readComponent piece rest).map fun (component, count) =>
        (component.shift distance, count) := by
  have keeps := keepsTokens_shift distance
  rw [readComponent, readComponent, Piece.token_map keeps, selectorFunction?_map keeps]
  split
  · cases function : selectorFunction? rest with
    | none => exact (pseudo_shift distance rest).trans (map_pseudo distance rest).symm
    | some found =>
        obtain ⟨name, argument⟩ := found
        obtain ⟨more, rfl⟩ := selectorFunction?_eq_some function
        have reads : readSelectors true (argument.body.pieces.map (.map (.shift distance))) =
            (readSelectors true argument.body.pieces).map (shiftSelectors distance) :=
          inner argument List.mem_cons_self
        dsimp only [Option.map_some]
        rw [Piece.body_map, Forest.pieces_map keeps, reads]
        cases readSelectors true argument.body.pieces <;> rfl
  · exact (component_shift distance piece rest).trans (map_component distance piece rest).symm

/-- **Nodes that stand elsewhere** are read as the same nodes, moved. -/
theorem readNodes_shift {pieces : List Piece}
    (inner : ∀ argument ∈ pieces, ReadsShifted distance argument) (behindSimple : Bool)
    (gap? : Option Nat) :
    readNodes behindSimple (gap?.map (distance + ·)) (pieces.map (.map (.shift distance))) =
      (readNodes behindSimple gap? pieces).map (shiftNodes distance) := by
  have keeps := keepsTokens_shift distance
  induction pieces using induct_drop generalizing behindSimple gap? with
  | nil =>
      rw [List.map_nil, readNodes, readNodes]
      rfl
  | cons piece rest ih =>
      obtain ⟨_, later⟩ := List.forall_mem_cons.1 inner
      by_cases blank : piece.token = .whitespace
      · have gap : (gap?.map (distance + ·) <|>
            if behindSimple then some (piece.map (.shift distance)).start else none) =
            (gap? <|> if behindSimple then some piece.start else none).map (distance + ·) := by
          rw [start_map_shift]
          cases gap? <;> cases behindSimple <;> rfl
        rw [List.map_cons, readNodes, readNodes, Piece.token_map keeps, if_pos blank,
          if_pos blank, gap]
        exact ih 0 later behindSimple _
      · have dark : (piece.map (.shift distance)).token ≠ .whitespace := by
          rwa [Piece.token_map keeps]
        rw [List.map_cons, readNodes_cons dark, readNodes_cons blank,
          readComponent_shift distance later]
        cases readComponent piece rest with
        | error fault => rfl
        | ok found =>
            obtain ⟨component, taken⟩ := found
            have behind := ih taken
              (fun argument member => later argument (List.mem_of_mem_drop member))
              (!component.isCombinator) none
            simp only [Except.map, Component.isCombinator_shift, ← List.map_drop] at behind ⊢
            rw [Option.map_none] at behind
            rw [behind]
            cases readNodes (!component.isCombinator) none (rest.drop taken) with
            | error fault => rfl
            | ok nodes =>
                have node := behindGap_shift distance gap? ⟨component, piece.start⟩
                rw [SelectorNode.shift] at node
                simp only [start_map_shift, node, shiftNodes_append]

/-- **Selectors that stand elsewhere** are read as the same selectors, moved. -/
theorem readSelectors_shift (first : Bool) (pieces : List Piece) :
    readSelectors first (pieces.map (.map (.shift distance))) =
      (readSelectors first pieces).map (shiftSelectors distance) := by
  have keeps := keepsTokens_shift distance
  have noComma {segment : List Piece} (others : ∀ piece ∈ segment, piece.token ≠ .comma) :
      ∀ piece ∈ segment.map (Piece.map (.shift distance)), piece.token ≠ .comma := by
    intro piece member
    obtain ⟨original, listed, rfl⟩ := List.mem_map.1 member
    rw [Piece.token_map keeps]
    exact others original listed
  induction pieces using induct_cut generalizing first with
  | last segment others inner =>
      have nodes := readNodes_shift distance (fun argument member => inner argument member true)
        false none
      rw [Option.map_none] at nodes
      rw [readSelectors_of_noComma (noComma others), readSelectors_of_noComma others, nodes]
      rcases readNodes false none segment with fault | _ | ⟨node, selector⟩ <;> rfl
  | comma segment comma behind others isComma inner later =>
      have nodes := readNodes_shift distance (fun argument member => inner argument member true)
        false none
      rw [Option.map_none] at nodes
      rw [List.map_append, List.map_cons,
        readSelectors_of_comma (noComma others) ((Piece.token_map keeps comma).trans isComma),
        readSelectors_of_comma others isComma, nodes, later false]
      rcases readNodes false none segment with fault | _ | ⟨node, selector⟩
      · rfl
      · rfl
      · cases readSelectors false behind <;> rfl

end Shift

/-- What is read behind a comma is read at the start, too. -/
theorem readSelectors_first {pieces : List Piece} {list : SelectorList}
    (read : readSelectors true pieces = .ok list) : readSelectors false pieces = .ok list := by
  cases isCut pieces with
  | last noComma =>
      rw [readSelectors_of_noComma noComma] at read ⊢
      split at read
      · cases read
      · cases read
      · exact read
  | comma noComma isComma =>
      rw [readSelectors_of_comma noComma isComma] at read ⊢
      exact read

/-- **A comma joins what is read on both sides of it.** -/
theorem readSelectors_append {first : Bool} {pieces behind : List Piece} {comma : Piece}
    {list others : SelectorList} (isComma : comma.token = .comma)
    (read : readSelectors first pieces = .ok list)
    (readBehind : readSelectors true behind = .ok others) :
    readSelectors first (pieces ++ comma :: behind) = .ok (list ++ others) := by
  induction list generalizing first pieces with
  | nil =>
      obtain ⟨_, _, _, same, _⟩ := exists_first read
      exact absurd same.symm (List.cons_ne_nil _ _)
  | cons selector list ih =>
      cases isCut pieces with
      | last noComma =>
          rw [readSelectors_of_noComma noComma] at read
          rw [readSelectors_of_comma noComma isComma, readSelectors_first readBehind]
          split at read
          · cases read
          · cases read
          · obtain ⟨rfl, rfl⟩ := List.cons.inj (Except.ok.inj read)
            rfl
      | @comma segment later comma' noComma isComma' =>
          rw [readSelectors_of_comma noComma isComma'] at read
          rw [List.append_assoc, List.cons_append, readSelectors_of_comma noComma isComma']
          split at read
          · cases read
          · cases read
          · split at read
            · cases read
            · rename_i readLater
              obtain ⟨rfl, rfl⟩ := List.cons.inj (Except.ok.inj read)
              rw [ih readLater]
              rfl

/-- **A comma is a homomorphism**: a complete selector list, a comma and another selector list are
read as the selectors of the first and those of the second, all of them moved. -/
theorem parse_comma {text more : Text} {list others : SelectorList} (complete : IsComplete text)
    (read : parse text = .ok list) (readMore : parse more = .ok others) :
    parse (text ++ ',' :: more) =
      .ok (list ++ shiftSelectors (Text.bytes text + 1) others) := by
  obtain ⟨comma, isComma, pieces⟩ := pieces_comma complete more
  have behind : readSelectors true ((Forest.ofText more).pieces.map
      (.map (.shift (Text.bytes text + 1)))) =
        .ok (shiftSelectors (Text.bytes text + 1) others) := by
    rw [readSelectors_shift, parse_eq_ok_iff.1 readMore]
    rfl
  refine parse_eq_ok_iff.2 ?_
  rw [pieces]
  exact readSelectors_append isComma (parse_eq_ok_iff.1 read) behind

theorem exists_ok {α : Type} {result : Except InvalidSelector α}
    (accepted : result.toOption.isSome = true) : ∃ value, result = .ok value := by
  cases result with
  | error fault => exact Bool.noConfusion accepted
  | ok value => exact ⟨value, rfl⟩

/-- A string, a comment, a `url(` token and brackets in front of the comma, an argument behind it. -/
theorem parse_comma_closed :
    ∃ list others : SelectorList, parse "é[b=\"],\"]:not(.c /*)*/):d(url(e,))".toList = .ok list ∧
      parse "f:is(g) > h".toList = .ok others ∧
      parse "é[b=\"],\"]:not(.c /*)*/):d(url(e,)),f:is(g) > h".toList =
        .ok (list ++ shiftSelectors 36 others) ∧
      (walk (list ++ shiftSelectors 36 others)).map (·.offset) =
        [0, 2, 10, 15, 24, 36, 37, 41, 44, 46] := by
  obtain ⟨list, read⟩ := @exists_ok _ (parse "é[b=\"],\"]:not(.c /*)*/):d(url(e,))".toList)
    (by decide +kernel)
  obtain ⟨others, readMore⟩ := @exists_ok _ (parse "f:is(g) > h".toList) (by decide +kernel)
  have joined := parse_comma
    (show IsComplete "é[b=\"],\"]:not(.c /*)*/):d(url(e,))".toList by decide +kernel) read readMore
  have offsets : (parse "é[b=\"],\"]:not(.c /*)*/):d(url(e,)),f:is(g) > h".toList).toOption.map
      (·.walk.map (·.offset)) = some [0, 2, 10, 15, 24, 36, 37, 41, 44, 46] := by
    decide +kernel
  refine ⟨list, others, read, readMore, joined, ?_⟩
  have same : parse "é[b=\"],\"]:not(.c /*)*/):d(url(e,)),f:is(g) > h".toList =
      .ok (list ++ shiftSelectors 36 others) := joined
  rw [same] at offsets
  exact Option.some.inj offsets

end SelectorList

end ScssLint
