import ScssLint.Proofs.Stylesheet.Cutting
import ScssLint.Proofs.Stylesheet.Division

/-! # Reading statement by statement

An outline is read by iterations (`Outline.ofPieces_cons`): each takes some pieces of a block, and
at least one (`Outline.taken_iterate`). A reader goes through a text in steps, one for each
iteration and one for each block that is left, and keeps the open blocks on a stack
(`Outline.Reader.step`). It leaves each block that it enters, behind all blocks in it, and what
comes out is the outline of the block (`Outline.leaves_block`). At last it has read the whole text,
and what comes out is the tree of the text (`Outline.leaves_ofText`).
-/

namespace ScssLint

open Css

namespace Outline

/-! ### One iteration -/

/-- What comes out of one iteration over the pieces of a block. -/
inductive Outcome where
  /-- White space or a semicolon is passed over. -/
  | passed
  | warned (warning : ParseWarning)
  /-- A statement from whose block, if it has one, nothing is read. -/
  | stated (statement : Statement) (span : Span)
  /-- A statement whose block is entered. -/
  | entered (statement : Statement) (span : Span) (block : Piece)
deriving DecidableEq, Repr

/-- One iteration over the pieces of a block. -/
structure Iteration where
  outcome : Outcome
  /-- The pieces that the iteration takes. -/
  taken : List Piece
  rest : List Piece
deriving DecidableEq, Repr

/-- The pieces that a cut takes. -/
def Cut.taken (cut : Cut) : List Piece :=
  cut.before ++ cut.ending.pieces

/-- What comes out of the cut behind the name of an at-rule. -/
def atRuleOutcome (first : Piece) (name : Text) (cut : Cut) : Outcome :=
  let parts := withoutTrailingSpace cut.before
  let params := Text.trim (piecesText parts)
  match cut.ending with
  | .block block => .entered (.atRule name params true) ⟨first.head.start, block.stop⟩ block
  | _ => .stated (.atRule name params false) ⟨first.head.start, stopFrom first.stop parts⟩

/-- What comes out of the cut of a statement that starts at `start` and is no at-rule. -/
def statementOutcome (start : Nat) (cut : Cut) : Outcome :=
  let parts := withoutTrailingSpace cut.before
  let text := bareText parts
  match cut.ending with
  | .block block =>
      if parts.isEmpty then
        .warned (.blockWithoutSelector start)
      else
        let (statement, opened) := blockStatement text block
        if opened then
          .entered statement ⟨start, block.stop⟩ block
        else
          .stated statement ⟨start, block.stop⟩
  | _ =>
      match splitDeclaration? text with
      | some (property, value) =>
          .stated (.declaration property value) ⟨start, stopFrom start parts⟩
      | none => .warned (.unknownStatement start text)

/-- The first iteration over some pieces. -/
def iterate (piece : Piece) (rest : List Piece) : Iteration :=
  match piece.token with
  | .whitespace | .semicolon => ⟨.passed, [piece], rest⟩
  | .closing .curly => ⟨.warned (.unmatchedBrace piece.head.start), [piece], rest⟩
  | .atKeyword name =>
      let cut := cutStatement false rest
      ⟨atRuleOutcome piece name cut, piece :: cut.taken, cut.rest⟩
  | _ =>
      let cut := cutStatement false (piece :: rest)
      ⟨statementOutcome piece.head.start cut, cut.taken, cut.rest⟩

/-- The outline whose first part comes out of an iteration. -/
def Outcome.before (rest : Outline) : Outcome → Outline
  | passed => rest
  | warned found => warning found rest
  | stated statement span => node statement span nil rest
  | entered statement span block => node statement span (ofPieces block.body.pieces) rest

theorem ofPieces_atRuleOutcome {piece : Piece} {name : Text} (named : piece.token = .atKeyword name)
    (rest : List Piece) :
    ofPieces (piece :: rest) = (atRuleOutcome piece name (cutStatement false rest)).before
      (ofPieces (cutStatement false rest).rest) := by
  rcases cut : cutStatement false rest with ⟨before, ending, later⟩
  cases ending with
  | block block => exact ofPieces_atBlock named cut
  | semicolon piece => exact ofPieces_atRule named cut fun block same => Ending.noConfusion same
  | nothing => exact ofPieces_atRule named cut fun block same => Ending.noConfusion same

theorem ofPieces_statementOutcome {piece : Piece} (starts : startsStatement piece.token = true)
    (rest : List Piece) :
    ofPieces (piece :: rest) =
      (statementOutcome piece.head.start (cutStatement false (piece :: rest))).before
        (ofPieces (cutStatement false (piece :: rest)).rest) := by
  rcases cut : cutStatement false (piece :: rest) with ⟨before, ending, later⟩
  have line (noBlock : ∀ block, ending ≠ .block block) :
      ofPieces (piece :: rest) = Outcome.before (ofPieces later)
        (match splitDeclaration? (bareText (withoutTrailingSpace before)) with
        | some (property, value) => .stated (.declaration property value)
            ⟨piece.head.start, stopFrom piece.head.start (withoutTrailingSpace before)⟩
        | none => .warned (.unknownStatement piece.head.start
            (bareText (withoutTrailingSpace before)))) := by
    cases declares : splitDeclaration? (bareText (withoutTrailingSpace before)) with
    | none => exact ofPieces_unknown cut starts noBlock declares
    | some declaration => exact ofPieces_declaration cut starts noBlock declares
  cases ending with
  | block block =>
      by_cases noParts : (withoutTrailingSpace before).isEmpty = true
      · rw [ofPieces_bare cut starts (List.isEmpty_iff.1 noParts)]
        simp only [statementOutcome, noParts, ↓reduceIte, Outcome.before]
      · cases made : blockStatement (bareText (withoutTrailingSpace before)) block with
        | mk statement opened =>
            rw [ofPieces_block cut starts (mt List.isEmpty_iff.2 noParts) made]
            cases opened with
            | false => simp [statementOutcome, noParts, made, Outcome.before]
            | true => simp [statementOutcome, noParts, made, Outcome.before]
  | semicolon piece => exact line fun block same => Ending.noConfusion same
  | nothing => exact line fun block same => Ending.noConfusion same

/-- **An outline is read by iterations.** -/
theorem ofPieces_cons (piece : Piece) (rest : List Piece) :
    ofPieces (piece :: rest) =
      (iterate piece rest).outcome.before (ofPieces (iterate piece rest).rest) := by
  unfold iterate
  split
  case h_1 blank => exact ofPieces_gap (.inl blank) rest
  case h_2 ends => exact ofPieces_gap (.inr ends) rest
  case h_3 closes => exact ofPieces_stray closes rest
  case h_4 name named => exact ofPieces_atRuleOutcome named rest
  case h_5 noSpace noSemicolon noClosing noAt =>
    have starts := startsStatement_of_other noSpace noSemicolon noClosing noAt
    exact ofPieces_statementOutcome starts rest

/-! ### What an iteration takes -/

theorem taken_append_rest (behindHash : Bool) (pieces : List Piece) :
    (cutStatement behindHash pieces).taken ++ (cutStatement behindHash pieces).rest = pieces :=
  cutStatement_append behindHash pieces

/-- A cut takes a piece if there is one. -/
theorem taken_ne_nil (behindHash : Bool) {pieces : List Piece} (some : pieces ≠ []) :
    (cutStatement behindHash pieces).taken ≠ [] := by
  obtain ⟨piece, rest, rfl⟩ := List.exists_cons_of_ne_nil some
  intro none
  have whole := taken_append_rest behindHash (piece :: rest)
  rw [none, List.nil_append] at whole
  have lighter := weight_rest_cutStatement_lt behindHash piece rest
  rw [whole] at lighter
  exact Nat.lt_irrefl _ lighter

/-- An iteration takes the first pieces, and at least one. -/
theorem taken_iterate (piece : Piece) (rest : List Piece) :
    (iterate piece rest).taken ≠ [] ∧
      (iterate piece rest).taken ++ (iterate piece rest).rest = piece :: rest := by
  unfold iterate
  split
  case h_4 =>
    exact ⟨List.cons_ne_nil _ _, congrArg (piece :: ·) (taken_append_rest false rest)⟩
  case h_5 =>
    exact ⟨taken_ne_nil false (List.cons_ne_nil piece rest), taken_append_rest false _⟩
  all_goals exact ⟨List.cons_ne_nil _ _, rfl⟩

theorem ending_of_atRuleOutcome {first block : Piece} {name : Text} {cut : Cut}
    {statement : Statement} {span : Span}
    (enters : atRuleOutcome first name cut = .entered statement span block) :
    cut.ending = .block block := by
  unfold atRuleOutcome at enters
  split at enters
  · rename_i found ends
    rw [ends, (Outcome.entered.inj enters).2.2]
  · exact Outcome.noConfusion enters

theorem ending_of_statementOutcome {block : Piece} {start : Nat} {cut : Cut}
    {statement : Statement} {span : Span}
    (enters : statementOutcome start cut = .entered statement span block) :
    cut.ending = .block block := by
  unfold statementOutcome at enters
  simp only at enters
  split at enters
  · rename_i found ends
    split at enters
    · exact Outcome.noConfusion enters
    · split at enters
      · rw [ends, (Outcome.entered.inj enters).2.2]
      · exact Outcome.noConfusion enters
  · split at enters <;> exact Outcome.noConfusion enters

/-- A block that is entered is the last piece of what the iteration takes. -/
theorem exists_front {piece block : Piece} {rest : List Piece} {statement : Statement} {span : Span}
    (enters : (iterate piece rest).outcome = .entered statement span block) :
    block.token = .opening .curly ∧ ∃ front, (iterate piece rest).taken = front ++ [block] := by
  unfold iterate at enters ⊢
  split at enters
  case h_4 =>
    have ends := ending_of_atRuleOutcome enters
    refine ⟨(isBlockBehind_cutStatement ends).1.1, piece :: (cutStatement false rest).before, ?_⟩
    simp only [Cut.taken, ends, Ending.pieces, List.cons_append]
  case h_5 =>
    have ends := ending_of_statementOutcome enters
    refine ⟨(isBlockBehind_cutStatement ends).1.1, (cutStatement false (piece :: rest)).before, ?_⟩
    simp only [Cut.taken, ends, Ending.pieces]
  all_goals exact Outcome.noConfusion enters

/-! ### Reading step by step -/

/-- A block that is being read. -/
structure OpenBlock where
  /-- The pieces that are left of it. -/
  pieces : List Piece
  /-- The node under which its statements are put. -/
  above : Nat
  /-- Where the block stands, with its brackets. -/
  span : Span

/-- How far a text is read. -/
structure Reader where
  /-- The byte offset of what is read next. -/
  position : Nat
  /-- The blocks around the place, innermost first; the text as a whole is the outermost. -/
  opened : List OpenBlock
  sheet : Stylesheet
  warnings : List ParseWarning

/-- What happens in a step. -/
inductive Event where
  /-- An iteration enters no block. -/
  | moved
  /-- An iteration enters the block that stands at a span. -/
  | entered (span : Span)
  /-- The block that stands at a span is left. -/
  | left (span : Span)
deriving DecidableEq, Repr

namespace Reader

/-- A reader at the start of a text. -/
def ofText (source : Text) : Reader where
  position := 0
  opened := [⟨(Forest.ofText (blankLineComments source)).pieces, 0, ⟨0, Text.bytes source⟩⟩]
  sheet := Stylesheet.empty (Text.bytes source)
  warnings := []

/-- The next step: an iteration over the innermost block, or the step out of it if nothing is left
of it.  There is none once all blocks are left. -/
def step (reader : Reader) : Option (Event × Reader) :=
  match reader.opened with
  | [] => none
  | ⟨[], _, span⟩ :: outer =>
      some (.left span, { reader with position := span.stop, opened := outer })
  | ⟨piece :: pieces, above, span⟩ :: outer =>
      let ⟨outcome, taken, rest⟩ := iterate piece pieces
      let moved := { reader with
        position := stopFrom reader.position taken
        opened := ⟨rest, above, span⟩ :: outer }
      match outcome with
      | .passed => some (.moved, moved)
      | .warned found => some (.moved, { moved with warnings := reader.warnings ++ [found] })
      | .stated statement span =>
          some (.moved, { moved with sheet := reader.sheet.append above statement span })
      | .entered statement span block =>
          let inside := ⟨block.head.start, block.stop⟩
          some (.entered inside,
            { position := block.head.stop
              opened := ⟨block.body.pieces, reader.sheet.size, inside⟩ :: moved.opened
              sheet := reader.sheet.append above statement span
              warnings := reader.warnings })

/-- Whether a reader comes to another one in some steps, in which some events happen. -/
inductive Runs : Reader → List Event → Reader → Prop
  | stay (reader : Reader) : Runs reader [] reader
  | step {reader next later : Reader} {event : Event} {events : List Event} :
      reader.step = some (event, next) → Runs next events later →
      Runs reader (event :: events) later

theorem Runs.append {reader middle later : Reader} {events events' : List Event}
    (first : Runs reader events middle) (second : Runs middle events' later) :
    Runs reader (events ++ events') later := by
  induction first with
  | stay _ => exact second
  | step steps _ ih => exact .step steps (ih second)

/-- **Only one thing can happen at each place**, so a run that cannot go on starts with all other
runs. -/
theorem Runs.prefix_of_ended {reader last later : Reader} {events events' : List Event}
    (whole : Runs reader events last) (ended : last.step = none)
    (runs : Runs reader events' later) : events' <+: events := by
  induction whole generalizing events' with
  | stay reader =>
      cases runs with
      | stay _ => exact List.prefix_rfl
      | step steps _ => exact absurd (ended.symm.trans steps) (Option.some_ne_none _).symm
  | step steps _ ih =>
      cases runs with
      | stay _ => exact List.nil_prefix
      | step steps' runs =>
          obtain ⟨rfl, rfl⟩ := Prod.mk.inj (Option.some.inj (steps.symm.trans steps'))
          exact (List.prefix_cons_inj _).2 (ih ended runs)

end Reader

/-- Whether every block that is entered is left once, behind all blocks that are entered in it. -/
inductive AreNested : List Event → Prop
  | nil : AreNested []
  | moved {events : List Event} : AreNested events → AreNested (.moved :: events)
  | block {inside behind : List Event} (span : Span) : AreNested inside → AreNested behind →
      AreNested (.entered span :: (inside ++ .left span :: behind))

/-- Whether a reader comes to another one by leaving the block at a span, and each block that it
enters before is left before. -/
def Reader.Leaves (reader : Reader) (span : Span) (later : Reader) : Prop :=
  ∃ events, AreNested events ∧ reader.Runs (events ++ [.left span]) later

namespace Reader.Leaves

variable {reader next middle later : Reader} {inside span : Span}

theorem done (steps : reader.step = some (.left span, later)) : reader.Leaves span later :=
  ⟨[], .nil, .step steps (.stay later)⟩

theorem moved (steps : reader.step = some (.moved, next)) (leaves : next.Leaves span later) :
    reader.Leaves span later := by
  obtain ⟨events, nested, runs⟩ := leaves
  exact ⟨.moved :: events, .moved nested, .step steps runs⟩

theorem entered (steps : reader.step = some (.entered inside, next))
    (within : next.Leaves inside middle) (behind : middle.Leaves span later) :
    reader.Leaves span later := by
  obtain ⟨events, nested, runs⟩ := within
  obtain ⟨events', nested', runs'⟩ := behind
  refine ⟨_, .block inside nested nested', ?_⟩
  have order : Event.entered inside :: (events ++ .left inside :: events') ++ [.left span] =
      .entered inside :: (events ++ [.left inside] ++ (events' ++ [.left span])) := by
    simp only [List.cons_append, List.append_assoc, List.nil_append]
  rw [order]
  exact .step steps (runs.append runs')

end Reader.Leaves

section Weights

variable {piece block : Piece} {rest : List Piece} {statement : Statement} {span : Span}

theorem weight_rest_iterate_lt (piece : Piece) (rest : List Piece) :
    weight (iterate piece rest).rest < weight (piece :: rest) := by
  obtain ⟨some, whole⟩ := taken_iterate piece rest
  obtain ⟨first, more, same⟩ := List.exists_cons_of_ne_nil some
  rw [← whole, weight_append, same, weight_cons]
  have positive : 0 < first.weight := Nat.succ_pos _
  omega

theorem weight_body_iterate_lt
    (enters : (iterate piece rest).outcome = .entered statement span block) :
    weight block.body.pieces < weight (piece :: rest) := by
  obtain ⟨_, front, taken⟩ := exists_front enters
  have lighter := Forest.weight_pieces_body_lt block
  rw [← (taken_iterate piece rest).2, taken, weight_append, weight_append, weight_cons]
  omega

end Weights

/-- **A block is read to its end and left**, and what comes out of it is its outline. -/
theorem leaves_block (pieces : List Piece) (position above : Nat) (span : Span)
    (outer : List OpenBlock) (sheet : Stylesheet) (warnings : List ParseWarning) :
    Reader.Leaves ⟨position, ⟨pieces, above, span⟩ :: outer, sheet, warnings⟩ span
      ⟨span.stop, outer, sheet.appendOutline above (ofPieces pieces),
        warnings ++ (ofPieces pieces).warnings⟩ := by
  -- Both what an iteration leaves and the block that it enters weigh less than the pieces.
  induction weighs : weight pieces using Nat.strongRecOn
    generalizing pieces position above span outer sheet warnings with
  | _ total ih =>
      subst weighs
      cases pieces with
      | nil =>
          rw [ofPieces, Outline.warnings, List.append_nil]
          exact .done rfl
      | cons piece pieces =>
          have lighter := weight_rest_iterate_lt piece pieces
          have inside := @weight_body_iterate_lt piece
          rw [ofPieces_cons]
          rcases iteration : iterate piece pieces with ⟨outcome, taken, rest⟩
          rw [iteration] at lighter
          have behind := ih _ lighter rest (stopFrom position taken) above span outer
          cases outcome with
          | passed =>
              exact (behind sheet warnings rfl).moved (by simp only [Reader.step, iteration])
          | warned found =>
              have leaves := behind sheet (warnings ++ [found]) rfl
              rw [List.append_assoc] at leaves
              exact leaves.moved (by simp only [Reader.step, iteration])
          | stated statement extent =>
              exact (behind (sheet.append above statement extent) warnings rfl).moved
                (by simp only [Reader.step, iteration])
          | entered statement extent block =>
              have body := @inside block pieces statement extent (by rw [iteration])
              have within := ih _ body block.body.pieces block.head.stop sheet.size
                ⟨block.head.start, block.stop⟩ (⟨rest, above, span⟩ :: outer)
                (sheet.append above statement extent) warnings rfl
              have behind := ih _ lighter rest block.stop above span outer
                ((sheet.append above statement extent).appendOutline sheet.size
                  (ofPieces block.body.pieces))
                (warnings ++ (ofPieces block.body.pieces).warnings) rfl
              rw [List.append_assoc] at behind
              exact .entered (by simp only [Reader.step, iteration]) within behind

/-- A text is read to its end, and what comes out of it is its tree. -/
theorem leaves_ofText (source : Text) :
    (Reader.ofText source).Leaves ⟨0, Text.bytes source⟩
      ⟨Text.bytes source, [], Stylesheet.ofText source, (Outline.ofText source).warnings⟩ :=
  leaves_block _ 0 0 ⟨0, Text.bytes source⟩ [] (.empty (Text.bytes source)) []

end Outline

end ScssLint
