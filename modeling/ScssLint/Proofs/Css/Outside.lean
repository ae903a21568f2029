import Mathlib.Data.List.Forall2
import ScssLint.Proofs.Css.Endings
import ScssLint.Proofs.Css.Pieces
import ScssLint.Proofs.Css.Respelling

/-! # Comments outside all blocks

A comment that stands outside all blocks belongs to the comments in front of a piece
(`Css.Forest.not_mem_own`). So when it is respelled, nothing of the pieces of the text changes but
the comments in front of them (`Css.Respells.allAgree`).
-/

namespace ScssLint

open Comment (blockText)

namespace Css

namespace Forest

/-- The tokens outside all blocks. -/
def outside : Forest → List Lexeme
  | nil => []
  | leaf lexeme rest => lexeme :: rest.outside
  | block _ _ _ rest => rest.outside

theorem outside_subset (forest : Forest) : forest.outside ⊆ forest.lexemes := by
  induction forest with
  | nil => exact List.Subset.refl _
  | leaf lexeme rest ih => exact List.cons_subset_cons _ ih
  | block opener body close? rest _ ih => exact fun _ member => List.mem_append_right _ (ih member)

theorem lexemes_subset {forest : Forest} {piece : Piece} (member : piece ∈ forest.pieces) :
    piece.lexemes ⊆ forest.lexemes := by
  obtain ⟨last, whole, _⟩ := forest.lexemes_pieces
  intro lexeme inside
  rw [whole]
  exact List.mem_append_left _ (List.mem_flatMap.2 ⟨piece, member, inside⟩)

/-- **A comment outside all blocks** is one of the comments in front of a piece. -/
theorem not_mem_own {comment : Lexeme} (isComment : comment.token = .comment)
    {forest : Forest} {lead : List Lexeme} (apart : (lead ++ forest.lexemes).Nodup)
    (outside : comment ∈ lead ∨ comment ∈ forest.outside) :
    ∀ piece ∈ forest.piecesBehind lead, comment ∉ piece.own := by
  have later {lead mid : List Lexeme} {forest : Forest}
      (apart : (lead ++ (mid ++ forest.lexemes)).Nodup)
      (ih : comment ∈ forest.outside → ∀ piece ∈ forest.piecesBehind [], comment ∉ piece.own)
      (outside : comment ∈ lead ∨ comment ∈ forest.outside) :
      ∀ piece ∈ forest.piecesBehind [], comment ∉ piece.own := by
    rcases outside with inLead | outside
    · exact fun piece member inside => (List.nodup_append.1 apart).2.2 comment inLead comment
        (List.mem_append_right _ (lexemes_subset member (List.mem_append_right _ inside))) rfl
    · exact ih outside
  induction forest generalizing lead with
  | nil => exact List.forall_mem_nil _
  | leaf lexeme rest ih =>
      have cut : lead ++ (leaf lexeme rest).lexemes = lead ++ ([lexeme] ++ rest.lexemes) := rfl
      unfold piecesBehind
      split
      · refine ih ?_ ?_
        · rwa [List.append_assoc]
        · rw [List.mem_append, List.mem_singleton, or_assoc]
          exact outside.imp_right List.mem_cons.1
      · rename_i noComment
        have other : comment ≠ lexeme := fun same => noComment (same ▸ isComment)
        refine List.forall_mem_cons.2 ⟨?_, later (cut ▸ apart) (fun outside => ?_) ?_⟩
        · exact fun inside => other (List.mem_singleton.1 inside)
        · exact ih (List.nodup_append.1 (cut ▸ apart)).2.1.of_cons (.inr outside)
        · exact outside.imp_right fun inside => (List.mem_cons.1 inside).resolve_left other
  | block opener body close? rest _ ih =>
      obtain ⟨_, within, across⟩ := List.nodup_append.1 apart
      obtain ⟨_, restApart, acrossBlock⟩ := List.nodup_append.1 within
      refine List.forall_mem_cons.2 ⟨fun inside => ?_, later apart (fun outside => ?_) outside⟩
      · rcases outside with inLead | outside
        · exact across comment inLead comment (List.mem_append_left _ inside) rfl
        · exact acrossBlock comment inside comment (outside_subset rest outside) rfl
      · exact ih restApart (.inr outside)

theorem map_of_fixed {change : Lexeme → Lexeme} {forest : Forest}
    (fixed : ∀ lexeme ∈ forest.lexemes, change lexeme = lexeme) : forest.map change = forest := by
  induction forest with
  | nil => rfl
  | leaf lexeme rest ih =>
      obtain ⟨first, others⟩ := List.forall_mem_cons.1 fixed
      rw [map, first, ih others]
  | block opener body close? rest inner later =>
      obtain ⟨block, others⟩ := List.forall_mem_append.1 fixed
      obtain ⟨open_, closes⟩ := List.forall_mem_append.1 block
      obtain ⟨first, inside⟩ := List.forall_mem_cons.1 open_
      have close : close?.map change = close? :=
        (Option.map_congr fun close member => closes close (Option.mem_toList.2 member)).trans
          Option.map_id'
      rw [map, first, inner inside, close, later others]

end Forest

/-- A piece of which no token but comments in front of it is changed. -/
theorem Piece.map_of_fixed {change : Lexeme → Lexeme} (piece : Piece)
    (fixed : ∀ lexeme ∈ piece.own, change lexeme = lexeme) :
    (piece.map change).head = piece.head ∧ (piece.map change).block? = piece.block? := by
  obtain ⟨lead, head, block?⟩ := piece
  obtain ⟨first, inside⟩ := List.forall_mem_cons.1 fixed
  refine ⟨first, ?_⟩
  rcases block? with _ | ⟨body, close?⟩
  · rfl
  · obtain ⟨inBody, closes⟩ := List.forall_mem_append.1 inside
    have close : close?.map change = close? :=
      (Option.map_congr fun close member => closes close (Option.mem_toList.2 member)).trans
        Option.map_id'
    change some (Forest.map change body, close?.map change) = some (body, close?)
    rw [Forest.map_of_fixed inBody, close]

theorem Stands.nodup {source : Text} {low high : Nat} {tokens : List Lexeme}
    (stands : Stands source low tokens high) : tokens.Nodup := by
  induction tokens generalizing low with
  | nil => exact List.nodup_nil
  | cons lexeme tokens ih =>
      refine List.nodup_cons.2 ⟨fun again => ?_, ih stands.tail⟩
      have first : Stands source low ([] ++ lexeme :: tokens) high := stands
      exact first.start_ne.2 lexeme again rfl

theorem bytes_spelling_map {change : Lexeme → Lexeme} {tokens : List Lexeme}
    (keeps : ∀ lexeme ∈ tokens, Text.bytes (change lexeme).text = Text.bytes lexeme.text) :
    Text.bytes (spelling (tokens.map change)) = Text.bytes (spelling tokens) := by
  induction tokens with
  | nil => rfl
  | cons lexeme tokens ih =>
      obtain ⟨first, others⟩ := List.forall_mem_cons.1 keeps
      rw [List.map_cons, spelling_cons, spelling_cons, Text.bytes_append, Text.bytes_append, first,
        ih others]

/-- The character with which comments and square brackets start. -/
def Token.mark? : Token → Option Char
  | comment => some '/'
  | opening .square => some '['
  | _ => none

theorem eq_of_mark?_munch {c mark : Char} {rest : Text}
    (marked : (munch c rest).1.mark? = some mark) : c = mark := by
  have cut := munches c rest
  generalize munch c rest = munched at cut marked
  cases cut with
  | sign named =>
      unfold signToken? at named
      split at named <;> cases named <;> cases marked
      rfl
  | number _ =>
      simp only [munchNumber] at marked
      repeat' split at marked
      all_goals cases marked
  | comment isSlash _ => exact isSlash.trans (Option.some.inj marked)
  | ident _ =>
      rcases munchIdent_token (c :: rest) with ⟨named, same | same⟩ | same | same <;>
        rw [same] at marked <;> cases marked
  | string _ =>
      dsimp only at marked
      split at marked <;> cases marked
  | hash _ kind => rcases kind with rfl | rfl <;> cases marked
  | _ => cases marked

theorem head?_of_mark? {offset : Nat} {text : Text} :
    ∀ lexeme ∈ lexemesFrom offset text, ∀ mark ∈ lexeme.token.mark?,
      lexeme.text.head? = some mark := by
  fun_induction lexemesFrom offset text with
  | case1 => exact List.forall_mem_nil _
  | case2 offset c rest token more cut taken ih =>
      refine List.forall_mem_cons.2 ⟨fun mark marked => ?_, ih⟩
      have first := congrArg Prod.fst cut
      have same : c = mark := @eq_of_mark?_munch c mark rest (by rw [first]; exact marked)
      exact congrArg some same

/-- Whether `text'` is `text` with other insides of comments that stand outside all brackets. -/
inductive Respells (text : Text) : Text → Prop
  | refl : Respells text text
  | step {front body body' behind : Text} : Respells text (front ++ (blockText body ++ behind)) →
      ⟨.comment, Text.bytes front, blockText body⟩ ∈
        (Forest.ofText (front ++ (blockText body ++ behind))).outside →
      ¬ ['*', '/'] <:+: body → ¬ ['*', '/'] <:+: body' → Text.bytes body' = Text.bytes body →
      Respells text (front ++ (blockText body' ++ behind))

/-- Whether two pieces differ in the comments in front of them only, which take equally much. -/
structure Agrees (piece piece' : Piece) : Prop where
  head : piece'.head = piece.head
  block : piece'.block? = piece.block?
  start : piece'.start = piece.start
  length : Text.bytes (spelling piece'.lead) = Text.bytes (spelling piece.lead)
  comments : ∀ c ∈ (spelling piece.lead).head?, c = '/'
  comments' : ∀ c ∈ (spelling piece'.lead).head?, c = '/'
  written : piece.head.text ≠ []
  square : piece.token = .opening .square → piece.head.text.head? = some '['

namespace Agrees

variable {piece piece' : Piece} (agrees : Agrees piece piece')

include agrees

theorem token : piece'.token = piece.token :=
  congrArg Lexeme.token agrees.head

theorem body : piece'.body = piece.body := by
  rw [Piece.body, agrees.block, Piece.body]

theorem own : piece'.own = piece.own := by
  rw [Piece.own, agrees.head, agrees.block, Piece.own]

theorem text_eq : piece.text = spelling piece.lead ++ spelling piece.own ∧
    piece'.text = spelling piece'.lead ++ spelling piece.own := by
  refine ⟨spelling_append _ _, ?_⟩
  rw [← agrees.own]
  exact spelling_append _ _

theorem text_iff : piece'.text = piece.text ↔ spelling piece'.lead = spelling piece.lead := by
  obtain ⟨text, text'⟩ := agrees.text_eq
  rw [text, text']
  exact List.append_left_inj _

/-- There are comments in front of both pieces, or in front of none. -/
theorem lead_cases :
    spelling piece.lead = [] ∧ spelling piece'.lead = [] ∨
      ∃ tail tail', spelling piece.lead = '/' :: tail ∧ spelling piece'.lead = '/' :: tail' := by
  have first := agrees.comments
  have first' := agrees.comments'
  have length := agrees.length
  rcases lead : spelling piece.lead with _ | ⟨c, tail⟩ <;>
    rcases lead' : spelling piece'.lead with _ | ⟨c', tail'⟩ <;> rw [lead, lead'] at length
  · exact .inl ⟨rfl, rfl⟩
  · exact absurd length (Nat.ne_of_gt (Text.bytes_pos (List.cons_ne_nil c' tail')))
  · exact absurd length (Nat.ne_of_lt (Text.bytes_pos (List.cons_ne_nil c tail)))
  · rw [lead] at first
    rw [lead'] at first'
    obtain rfl := first c rfl
    obtain rfl := first' c' rfl
    exact .inr ⟨tail, tail', rfl, rfl⟩

/-- Pieces that agree start with the same character. -/
theorem head?_text :
    ∃ c tail tail', piece.text = c :: tail ∧ piece'.text = c :: tail' := by
  obtain ⟨text, text'⟩ := agrees.text_eq
  rcases agrees.lead_cases with ⟨none, none'⟩ | ⟨tail, tail', some, some'⟩
  · obtain ⟨c, first, written⟩ := List.exists_cons_of_ne_nil agrees.written
    obtain ⟨inside, own⟩ := piece.exists_own
    rw [text, text', none, none', own, spelling_cons, written]
    exact ⟨c, _, _, rfl, rfl⟩
  · rw [text, text', some, some']
    exact ⟨_, _, _, rfl, rfl⟩

/-- A piece of which the comments are respelled. -/
theorem trans {piece'' : Piece} (later : Agrees piece' piece'') : Agrees piece piece'' where
  head := later.head.trans agrees.head
  block := later.block.trans agrees.block
  start := later.start.trans agrees.start
  length := later.length.trans agrees.length
  comments := agrees.comments
  comments' := later.comments'
  written := agrees.written
  square := agrees.square

end Agrees

/-- Whether pieces differ in the comments in front of them only. -/
abbrev AllAgree (pieces pieces' : List Piece) : Prop :=
  List.Forall₂ Agrees pieces pieces'

theorem AllAgree.trans {pieces pieces' pieces'' : List Piece} (agree : AllAgree pieces pieces')
    (later : AllAgree pieces' pieces'') : AllAgree pieces pieces'' := by
  induction agree generalizing pieces'' with
  | nil => exact later
  | cons agrees _ ih =>
      cases later with
      | cons agrees' later => exact .cons (agrees.trans agrees') (ih later)

section Texts

variable {text text' : Text}

theorem mem_lexemes_of_piece {piece : Piece} (member : piece ∈ (Forest.ofText text).pieces) :
    piece.lexemes ⊆ lexemes text := by
  have inside := Forest.lexemes_subset member
  rwa [Forest.ofText, Forest.lexemes_ofLexemes] at inside

/-- The comments in front of a piece start with a slash. -/
theorem head?_lead {piece : Piece} (member : piece ∈ (Forest.ofText text).pieces) :
    ∀ c ∈ (spelling piece.lead).head?, c = '/' := by
  intro c first
  have sound := Forest.isSound_pieces (Forest.isSound_ofText text) piece member
  rcases lead : piece.lead with _ | ⟨comment, others⟩
  · rw [lead] at first
    cases first
  · have inLead : comment ∈ piece.lead := by
      rw [lead]
      exact List.mem_cons_self
    have listed := mem_lexemes_of_piece member (List.mem_append_left _ inLead)
    have slash := head?_of_mark? comment listed '/' (by rw [sound.lead comment inLead]; rfl)
    obtain ⟨more, spelled⟩ := List.head?_eq_some_iff.1 slash
    rw [lead, spelling_cons, spelled] at first
    exact (Option.some.inj first).symm

theorem mem_lexemes_of_own {piece : Piece} (member : piece ∈ (Forest.ofText text).pieces) :
    piece.own ⊆ lexemes text :=
  fun _ inside => mem_lexemes_of_piece member (List.mem_append_right _ inside)

theorem agrees_self {piece : Piece} (member : piece ∈ (Forest.ofText text).pieces) :
    Agrees piece piece where
  head := rfl
  block := rfl
  start := rfl
  length := rfl
  comments := head?_lead member
  comments' := head?_lead member
  written empty := by
    obtain ⟨inside, own⟩ := piece.exists_own
    have listed := mem_lexemes_of_own member (own ▸ List.mem_cons_self)
    have positive := ((stands_lexemes text).of_mem listed).2.1
    rw [Lexeme.stop, empty, Text.bytes_nil] at positive
    omega
  square isSquare := by
    obtain ⟨inside, own⟩ := piece.exists_own
    have listed := mem_lexemes_of_own member (own ▸ List.mem_cons_self)
    exact head?_of_mark? piece.head listed '[' (by
      change piece.token.mark? = _
      rw [isSquare]
      rfl)

variable {front body body' behind : Text}

theorem mem_lexemes_of_outside {lexeme : Lexeme} (outside : lexeme ∈ (Forest.ofText text).outside) :
    lexeme ∈ lexemes text := by
  have listed := Forest.outside_subset _ outside
  rwa [Forest.ofText, Forest.lexemes_ofLexemes] at listed

/-- Tokens that start at the same place are the same. -/
theorem eq_of_start_eq {lexeme lexeme' : Lexeme} (member : lexeme ∈ lexemes text)
    (member' : lexeme' ∈ lexemes text) (same : lexeme.start = lexeme'.start) : lexeme = lexeme' := by
  obtain ⟨before, after, split⟩ := List.append_of_mem member'
  have stands := stands_lexemes text
  rw [split] at stands member
  rcases List.mem_append.1 member with inFront | member
  · exact absurd same (stands.start_ne.1 lexeme inFront)
  · rcases List.mem_cons.1 member with here | inBack
    · exact here
    · exact absurd same (stands.start_ne.2 lexeme inBack)

/-- **A respelled comment** outside all blocks changes nothing but the comments in front of a
piece. -/
theorem allAgree_step
    (outside : ⟨.comment, Text.bytes front, blockText body⟩ ∈
      (Forest.ofText (front ++ (blockText body ++ behind))).outside)
    (noCloser : ¬ ['*', '/'] <:+: body) (noCloser' : ¬ ['*', '/'] <:+: body')
    (length : Text.bytes body' = Text.bytes body) :
    AllAgree (Forest.ofText (front ++ (blockText body ++ behind))).pieces
      (Forest.ofText (front ++ (blockText body' ++ behind))).pieces := by
  have listed := mem_lexemes_of_outside outside
  obtain ⟨cut, only⟩ := lexemes_respelled ⟨_, listed, rfl⟩ noCloser noCloser' length
  have keeps := keepsTokens_respell (Text.bytes front) (blockText body')
  have pieces : (Forest.ofText (front ++ (blockText body' ++ behind))).pieces =
      (Forest.ofText (front ++ (blockText body ++ behind))).pieces.map
        (.map (.respell (Text.bytes front) (blockText body'))) := by
    rw [Forest.ofText, cut, Forest.ofLexemes_map keeps, Forest.pieces_map keeps]
    rfl
  have apart : (Forest.ofText (front ++ (blockText body ++ behind))).lexemes.Nodup :=
    (Forest.stands_ofText _).nodup
  rw [pieces]
  refine List.forall₂_map_right_iff.2 (List.forall₂_same.2 fun piece member => ?_)
  have self := agrees_self member
  have fixed : ∀ lexeme ∈ piece.own,
      lexeme.respell (Text.bytes front) (blockText body') = lexeme := by
    intro lexeme inside
    refine if_neg fun start => ?_
    obtain rfl := eq_of_start_eq (mem_lexemes_of_own member inside) listed start
    exact Forest.not_mem_own rfl apart (.inr outside) piece member inside
  obtain ⟨head, block⟩ := piece.map_of_fixed fixed
  refine { self with head, block, start := ?_, length := ?_, comments' := ?_ }
  · obtain ⟨lead, head, block?⟩ := piece
    cases lead <;> exact start_respell _
  · refine bytes_spelling_map fun lexeme inLead => ?_
    have inText := mem_lexemes_of_piece member (List.mem_append_left _ inLead)
    unfold Lexeme.respell
    split
    · rename_i start
      rw [only lexeme inText start, Comment.bytes_blockText, Comment.bytes_blockText, length]
    · rfl
  · have listed' : piece.map (.respell (Text.bytes front) (blockText body')) ∈
        (Forest.ofText (front ++ (blockText body' ++ behind))).pieces := by
      rw [pieces]
      exact List.mem_map_of_mem member
    exact head?_lead listed'

/-- **Respelled comments** change nothing of the pieces but the comments in front of them. -/
theorem Respells.allAgree (respells : Respells text text') :
    AllAgree (Forest.ofText text).pieces (Forest.ofText text').pieces := by
  induction respells with
  | refl => exact List.forall₂_same.2 fun piece member => agrees_self member
  | step _ outside noCloser noCloser' length ih =>
      exact ih.trans (allAgree_step outside noCloser noCloser' length)

end Texts

end Css

end ScssLint
