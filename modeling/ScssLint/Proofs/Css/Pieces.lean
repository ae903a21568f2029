import ScssLint.Proofs.Css.Tokens

/-! # Blocks and pieces where they stand

The brackets of a block belong together, and a block without its closing bracket runs to the end of
the text (`Css.Forest.IsSound`). The pieces of a forest hold all its tokens apart from the comments
behind the last of them (`Css.Forest.lexemes_pieces`), and their offsets are those of their tokens
(`Css.Piece.start_eq`, `Css.Piece.stop_eq`).
-/

namespace ScssLint

namespace Css

theorem Token.eq_closing {token : Token} {bracket : Bracket}
    (closes : token.closes? = some bracket) : token = .closing bracket := by
  cases token with
  | closing other => exact congrArg Token.closing (Option.some.inj closes)
  | _ => exact absurd closes.symm (Option.some_ne_none _)

namespace Forest

/-- Whether brackets open and close the blocks of a forest, and blocks that are not closed run to
`stop`. -/
def IsSound (stop : Nat) : Forest → Prop
  | nil => True
  | leaf lexeme rest => lexeme.token.opens? = none ∧ rest.IsSound stop
  | block opener body close? rest =>
      (∃ bracket, opener.token.opens? = some bracket ∧
        ∀ close ∈ close?, close.token.closes? = some bracket) ∧
      (close? = none → opener.stop + body.bytes = stop) ∧ body.IsSound stop ∧ rest.IsSound stop

/-- Whether what stands behind open blocks is sound, and nothing stands behind a block that is not
closed. -/
def AreSound (stop : Nat) : List Bracket → List (Option Lexeme × Forest) → Prop
  | [], [] => True
  | bracket :: opened, (close?, forest) :: outer =>
      (∀ close ∈ close?, close.token.closes? = some bracket) ∧ forest.IsSound stop ∧
        (close? = none → forest = nil ∧ ∀ entry ∈ outer, entry = (none, nil)) ∧
          AreSound stop opened outer
  | _, _ => False

theorem areSound_nil (stop : Nat) (opened : List Bracket) :
    AreSound stop opened (opened.map fun _ => (none, nil)) := by
  induction opened with
  | nil => trivial
  | cons bracket opened ih =>
      refine ⟨fun close member => absurd member (Option.not_mem_none close), trivial,
        fun _ => ⟨rfl, fun entry member => ?_⟩, ih⟩
      obtain ⟨_, _, rfl⟩ := List.mem_map.1 member
      rfl

/-- Behind a block that is not closed there is nothing. -/
theorem lexemes_of_open {opened : List Bracket} {tokens : List Lexeme} {body inner : Forest}
    {outer : List (Option Lexeme × Forest)}
    (read : levels opened tokens = (body, (none, inner) :: outer))
    (last : inner = nil ∧ ∀ entry ∈ outer, entry = (none, nil)) : body.lexemes = tokens := by
  obtain ⟨rfl, empty⟩ := last
  have whole := lexemes_levels opened tokens
  have nothing : outer.flatMap (fun entry => entry.1.toList ++ entry.2.lexemes) = [] := by
    rw [List.flatMap_eq_nil_iff]
    intro entry member
    rw [empty entry member]
    rfl
  rw [read, Levels.lexemes] at whole
  rw [List.flatMap_cons] at whole
  rw [nothing] at whole
  simpa [lexemes] using whole

theorem isSound_levels {source : Text} {low stop : Nat} {tokens : List Lexeme}
    (stands : Stands source low tokens stop) (opened : List Bracket) :
    (levels opened tokens).1.IsSound stop ∧ AreSound stop opened (levels opened tokens).2 := by
  induction tokens generalizing opened low with
  | nil => exact ⟨trivial, areSound_nil stop opened⟩
  | cons lexeme rest ih =>
      unfold levels
      split
      · rename_i closes
        cases opened with
        | nil => exact Bool.noConfusion closes.1
        | cons bracket opened =>
            obtain ⟨inner, outer⟩ := ih stands.tail opened
            refine ⟨trivial, fun close member => ?_, inner,
              fun none => absurd none (Option.some_ne_none _), outer⟩
            obtain rfl := Option.some.inj member
            exact closes.2
      · split
        · rename_i opensNone
          obtain ⟨inner, outer⟩ := ih stands.tail opened
          exact ⟨⟨opensNone, inner⟩, outer⟩
        · rename_i bracket opens
          obtain ⟨sound, behind⟩ := ih stands.tail (bracket :: opened)
          split
          · rename_i body close? inner outer read
            rw [read] at sound behind
            obtain ⟨closes, innerSound, last, outerSound⟩ := behind
            refine ⟨⟨⟨bracket, opens, closes⟩, fun isOpen => ?_, sound, innerSound⟩, outerSound⟩
            subst isOpen
            have same := lexemes_of_open read (last rfl)
            rw [← bytes_text, stands.tail.high_eq, ← same]
            rfl
          · rename_i body read
            rw [read] at behind
            exact behind.elim

/-- **The blocks of a text are sound.** -/
theorem isSound_ofText (source : Text) : (ofText source).IsSound (Text.bytes source) :=
  (isSound_levels (stands_lexemes source) []).1

theorem stands_ofText (source : Text) :
    Stands source 0 (ofText source).lexemes (Text.bytes source) := by
  rw [ofText, lexemes_ofLexemes]
  exact stands_lexemes source

end Forest

namespace Piece

/-- The tokens of a piece without the comments in front. -/
def own (piece : Piece) : List Lexeme :=
  { piece with lead := [] }.lexemes

theorem lexemes_eq (piece : Piece) : piece.lexemes = piece.lead ++ piece.own := rfl

theorem exists_own (piece : Piece) : ∃ inside, piece.own = piece.head :: inside := ⟨_, rfl⟩

/-- Whether the brackets of a piece open and close its block, and nothing but comments stands in
front of it. -/
structure IsSound (stop : Nat) (piece : Piece) : Prop where
  lead : ∀ lexeme ∈ piece.lead, lexeme.token = .comment
  single : piece.block? = none → piece.token.opens? = none ∧ piece.token ≠ .comment
  block : ∀ body close?, piece.block? = some (body, close?) →
    (∃ bracket, piece.token.opens? = some bracket ∧
      ∀ close ∈ close?, close.token.closes? = some bracket) ∧
    (close? = none → piece.head.stop + body.bytes = stop) ∧ body.IsSound stop

namespace IsSound

variable {stop : Nat} {piece : Piece} (sound : piece.IsSound stop)

include sound

/-- A piece that opens no block is a single token. -/
theorem own_of_opensNone (opensNone : piece.token.opens? = none) : piece.own = [piece.head] := by
  obtain ⟨lead, head, block?⟩ := piece
  cases block? with
  | none => rfl
  | some block =>
      obtain ⟨⟨bracket, opens, _⟩, _⟩ := sound.block block.1 block.2 rfl
      rw [opensNone] at opens
      exact absurd opens.symm (Option.some_ne_none _)

theorem body_of_opensNone (opensNone : piece.token.opens? = none) : piece.body = .nil := by
  obtain ⟨lead, head, block?⟩ := piece
  cases block? with
  | none => rfl
  | some block =>
      obtain ⟨⟨bracket, opens, _⟩, _⟩ := sound.block block.1 block.2 rfl
      rw [opensNone] at opens
      exact absurd opens.symm (Option.some_ne_none _)

/-- A piece that opens a block holds it. -/
theorem exists_block {bracket : Bracket} (opens : piece.token.opens? = some bracket) :
    ∃ close?, piece.own = piece.head :: (piece.body.lexemes ++ close?.toList) ∧
      (∀ close ∈ close?, close.token.closes? = some bracket) ∧
      (close? = none → piece.head.stop + piece.body.bytes = stop) ∧ piece.body.IsSound stop := by
  obtain ⟨lead, head, block?⟩ := piece
  cases block? with
  | none =>
      rw [(sound.single rfl).1] at opens
      exact absurd opens.symm (Option.some_ne_none _)
  | some block =>
      obtain ⟨⟨bracket', opens', closes⟩, last, inside⟩ := sound.block block.1 block.2 rfl
      rw [opens] at opens'
      obtain rfl := Option.some.inj opens'
      exact ⟨block.2, rfl, closes, last, inside⟩

end IsSound

section Places

variable {source : Text} {low high : Nat} {piece : Piece}
  (stands : Stands source low piece.lexemes high)

include stands

theorem start_eq : piece.start = low := by
  obtain ⟨lead, head, block?⟩ := piece
  cases lead with
  | nil => exact stands.start_eq
  | cons comment lead => exact stands.start_eq

theorem stop_eq : piece.stop = high := by
  rw [stop, start_eq stands, ← bytes_text, stands.high_eq]
  rfl

theorem head_text_ne_nil : piece.head.text ≠ [] := by
  rw [lexemes_eq, piece.exists_own.choose_spec] at stands
  obtain ⟨_, _, own⟩ := stands.split _
  exact own.text_ne_nil

end Places

end Piece

namespace Forest

theorem isSound_piecesBehind {stop : Nat} {lead : List Lexeme} {forest : Forest}
    (comments : ∀ lexeme ∈ lead, lexeme.token = .comment) (sound : forest.IsSound stop) :
    ∀ piece ∈ forest.piecesBehind lead, piece.IsSound stop := by
  induction forest generalizing lead with
  | nil => exact List.forall_mem_nil _
  | leaf lexeme rest ih =>
      unfold piecesBehind
      split
      · rename_i isComment
        refine ih (List.forall_mem_append.2 ⟨comments, ?_⟩) sound.2
        exact List.forall_mem_singleton.2 isComment
      · rename_i noComment
        refine List.forall_mem_cons.2 ⟨⟨comments, fun _ => ⟨sound.1, noComment⟩, ?_⟩,
          ih (List.forall_mem_nil _) sound.2⟩
        exact fun body close? none => absurd none.symm (Option.some_ne_none _)
  | block opener body close? rest _ ih =>
      obtain ⟨brackets, last, inside, behind⟩ := sound
      refine List.forall_mem_cons.2 ⟨⟨comments, fun none => absurd none (Option.some_ne_none _),
        fun body' close?' same => ?_⟩,
        ih (List.forall_mem_nil _) behind⟩
      obtain ⟨rfl, rfl⟩ := Prod.mk.inj (Option.some.inj same)
      exact ⟨brackets, last, inside⟩

theorem isSound_pieces {stop : Nat} {forest : Forest} (sound : forest.IsSound stop) :
    ∀ piece ∈ forest.pieces, piece.IsSound stop :=
  isSound_piecesBehind (List.forall_mem_nil _) sound

theorem lexemes_piecesBehind {lead : List Lexeme} (forest : Forest)
    (comments : ∀ lexeme ∈ lead, lexeme.token = .comment) :
    ∃ last, lead ++ forest.lexemes = (forest.piecesBehind lead).flatMap Piece.lexemes ++ last ∧
      ∀ lexeme ∈ last, lexeme.token = .comment := by
  induction forest generalizing lead with
  | nil => exact ⟨lead, List.append_nil lead, comments⟩
  | leaf lexeme rest ih =>
      unfold piecesBehind
      split
      · rename_i isComment
        have areComments := List.forall_mem_append.2
          ⟨comments, List.forall_mem_singleton.2 isComment⟩
        obtain ⟨last, whole, behind⟩ := ih areComments
        refine ⟨last, ?_, behind⟩
        rw [← whole, List.append_assoc]
        rfl
      · obtain ⟨last, whole, behind⟩ :=
          ih (List.forall_mem_nil _)
        refine ⟨last, ?_, behind⟩
        rw [List.flatMap_cons, List.append_assoc, ← whole, Piece.lexemes_eq, List.append_assoc]
        rfl
  | block opener body close? rest _ ih =>
      obtain ⟨last, whole, behind⟩ :=
        ih (List.forall_mem_nil _)
      refine ⟨last, ?_, behind⟩
      rw [piecesBehind, List.flatMap_cons, List.append_assoc, ← whole, Piece.lexemes_eq,
        List.append_assoc, lexemes]
      rfl

/-- **The pieces of a forest hold its tokens but for comments at its end.** -/
theorem lexemes_pieces (forest : Forest) :
    ∃ last, forest.lexemes = forest.pieces.flatMap Piece.lexemes ++ last ∧
      ∀ lexeme ∈ last, lexeme.token = .comment :=
  lexemes_piecesBehind forest (List.forall_mem_nil _)

end Forest

end Css

end ScssLint
