import ScssLint.Proofs.Css.Locality
import ScssLint.Proofs.Css.Parts

/-! # Passages

A passage of a text is read as some pieces if no bracket is left open in it and a token starts
behind it (`Css.ReadsPieces`). Passages are put together (`Css.ReadsPieces.append`) and enclosed in
brackets (`Css.ReadsPieces.enclose`). A text without brackets, quotation marks, slashes and
backslashes is a passage in front of a closing parenthesis (`Css.exists_readsPieces_bare`).
-/

namespace ScssLint

namespace Css

variable {offset : Nat} {text rest : Text}

/-- Whether a text that starts at `offset` is read as some pieces when `rest` follows. -/
def ReadsPieces (offset : Nat) (text rest : Text) (pieces : List Piece) : Prop :=
  ∃ forest, Reads offset text rest forest ∧
    ∀ behind, (forest.append behind).pieces = pieces ++ behind.pieces

/-- A forest that is read spells the text. -/
theorem Reads.text_eq {forest : Forest} (reads : Reads offset text rest forest) :
    forest.text = text := by
  have whole := congrArg spelling reads.found
  rw [spelling_lexemesFrom, spelling_append, spelling_lexemesFrom] at whole
  exact (List.append_cancel_right whole).symm

/-- The tokens that neither are a comment nor open or close a block. -/
def Token.isInert : Token → Bool
  | function _ | opening _ | closing _ | comment => false
  | _ => true

/-- A piece that is a single token. -/
def tokenPiece (token : Token) (offset : Nat) (text : Text) : Piece :=
  ⟨[], ⟨token, offset, text⟩, none⟩

namespace ReadsPieces

variable {pieces : List Piece}

theorem nil : ReadsPieces offset [] rest [] :=
  ⟨.nil, .nil, fun _ => rfl⟩

theorem append {more : Text} {later : List Piece}
    (first : ReadsPieces offset text (more ++ rest) pieces)
    (second : ReadsPieces (offset + Text.bytes text) more rest later) :
    ReadsPieces offset (text ++ more) rest (pieces ++ later) := by
  obtain ⟨forest, reads, front⟩ := first
  obtain ⟨forest', reads', back⟩ := second
  refine ⟨forest.append forest', reads.append reads', fun behind => ?_⟩
  rw [Forest.append_assoc, front, back, List.append_assoc]

theorem of_isInert {token : Token} (cut : Lexes token text rest) (inert : token.isInert = true) :
    ReadsPieces offset text rest [tokenPiece token offset text] := by
  have opensNone : token.opens? = none := by
    cases token <;> first | rfl | exact Bool.noConfusion inert
  have closesNone : token.closes? = none := by
    cases token <;> first | rfl | exact Bool.noConfusion inert
  refine ⟨_, Reads.token cut opensNone closesNone, fun behind => Forest.piecesBehind_leaf ?_⟩
  rintro rfl
  exact Bool.noConfusion inert

/-- A passage in brackets is one piece. -/
theorem enclose {opener close : Token} {bracket : Bracket} {opens inside closes : Text}
    (openerCut : Lexes opener opens (inside ++ (closes ++ rest)))
    (closeCut : Lexes close closes rest) (isOpener : opener.opens? = some bracket)
    (isClose : close.closes? = some bracket)
    (reads : ReadsPieces (offset + Text.bytes opens) inside (closes ++ rest) pieces) :
    ∃ piece : Piece, ReadsPieces offset (opens ++ (inside ++ closes)) rest [piece] ∧
      piece.token = opener ∧ piece.start = offset ∧ piece.body.pieces = pieces ∧
      piece.body.text = inside ∧ piece.text = opens ++ (inside ++ closes) := by
  obtain ⟨body, readsBody, front⟩ := reads
  have spelled : body.lexemes.flatMap (·.text) = inside := readsBody.text_eq
  have whole := front .nil
  rw [Forest.append_nil] at whole
  refine ⟨⟨[], ⟨opener, offset, opens⟩, some (body, some ⟨close, _, closes⟩)⟩,
    ⟨_, readsBody.enclose openerCut closeCut isOpener isClose, fun behind => rfl⟩, rfl, rfl, ?_,
    spelled, ?_⟩
  · exact whole.trans (List.append_nil pieces)
  · simp [Piece.text, Piece.lexemes, spelled]

/-- A text that is a passage is read as its pieces. -/
theorem ofText (reads : ReadsPieces 0 text [] pieces) : (Forest.ofText text).pieces = pieces := by
  obtain ⟨forest, reads, front⟩ := reads
  have whole := front .nil
  rw [Forest.append_nil] at whole
  rw [reads.ofText, whole]
  exact List.append_nil pieces

end ReadsPieces

/-! ### Text without brackets -/

/-- The characters that open or close a block, a string, a comment or an escape. -/
def isMark (c : Char) : Bool :=
  ['(', ')', '[', ']', '\x7B', '\x7D', '"', '\'', '/', '\\'].contains c

/-- Whether no block, string, comment or escape can start or end in a text. -/
def isBare (text : Text) : Bool :=
  text.all fun c => !isMark c

theorem not_mem_of_isBare {c : Char} (bare : isBare text = true) (mark : isMark c = true) :
    c ∉ text := by
  intro member
  have plain := List.all_eq_true.1 bare c member
  rw [mark] at plain
  exact Bool.noConfusion plain

theorem name_le_of_isBare (noEscape : '\\' ∉ text) (rest : Text) :
    (name (text ++ ')' :: rest)).2 ≤ text.length := by
  induction text with
  | nil =>
      rw [List.nil_append, name.eq_2]
      exact Nat.le_refl 0
  | cons c text ih =>
      obtain ⟨other, noEscape⟩ := not_or.1 (mt List.mem_cons.2 noEscape)
      rw [List.cons_append, name.eq_2]
      cases unit : nameUnit? c (text ++ ')' :: rest) with
      | none => exact Nat.zero_le _
      | some found =>
          obtain ⟨decoded, more⟩ := found
          have single : more = 0 := by
            simp only [nameUnit?, Ne.symm other, ↓reduceIte] at unit
            split at unit
            · exact (Prod.mk.inj (Option.some.inj unit)).2.symm
            · split at unit
              · exact (Prod.mk.inj (Option.some.inj unit)).2.symm
              · exact absurd unit.symm (Option.some_ne_none _)
          have tail := ih noEscape
          subst single
          simp only [List.drop_zero, List.length_cons]
          omega

theorem length_le_of_follows {start more : Text} {stop : Char}
    (ahead : start <+: text ++ stop :: more) (noStop : stop ∉ start) :
    start.length ≤ text.length := by
  induction start generalizing text with
  | nil => exact Nat.zero_le _
  | cons c start ih =>
      obtain ⟨other, noStop⟩ := not_or.1 (mt List.mem_cons.2 noStop)
      cases text with
      | nil => exact absurd (List.cons_prefix_cons.1 ahead).1.symm other
      | cons d text => exact Nat.succ_le_succ (ih (List.cons_prefix_cons.1 ahead).2 noStop)

theorem stopsNumber_parenthesis (rest : Text) : stopsNumber (')' :: rest) = true := rfl

/-- A number ends in front of a parenthesis. -/
theorem munchNumber_of_isBare {c : Char} (bare : isBare (c :: text) = true) (rest : Text) :
    (munchNumber (c :: text ++ ')' :: rest)).2 ≤ text.length ∧
      (munchNumber (c :: text ++ ')' :: rest)).1.isInert = true := by
  have length := numberLength_append (c :: text) (stopsNumber_parenthesis rest)
  have inside := numberLength_le (c :: text)
  have drops : (c :: text ++ ')' :: rest).drop (numberLength (c :: text)) =
      (c :: text).drop (numberLength (c :: text)) ++ ')' :: rest :=
    List.drop_append_of_le_length inside
  have noEscape : '\\' ∉ (c :: text).drop (numberLength (c :: text)) := fun member =>
    not_mem_of_isBare bare rfl (List.mem_of_mem_drop member)
  have unit := name_le_of_isBare noEscape rest
  rw [List.length_drop] at unit
  rw [List.length_cons] at inside unit
  rw [munchNumber_eq, length, drops]
  split
  · rename_i percent
    refine ⟨?_, rfl⟩
    cases behind : (c :: text).drop (numberLength (c :: text)) with
    | nil =>
        rw [behind] at percent
        exact absurd (Option.some.inj percent) (by decide)
    | cons d tail =>
        have more := congrArg List.length behind
        rw [List.length_drop, List.length_cons, List.length_cons] at more
        dsimp only
        omega
  · split
    · exact ⟨by dsimp only; omega, rfl⟩
    · exact ⟨by dsimp only; omega, rfl⟩

/-- An identifier ends in front of a parenthesis. -/
theorem munchIdent_of_isBare {c : Char} (bare : isBare (c :: text) = true) (rest : Text) :
    (munchIdent (c :: text ++ ')' :: rest)).2 ≤ text.length ∧
      (munchIdent (c :: text ++ ')' :: rest)).1.isInert = true := by
  have inside := name_le_of_isBare (not_mem_of_isBare bare rfl) rest
  have noCall : ((c :: text ++ ')' :: rest).drop (name (c :: text ++ ')' :: rest)).2).head? ≠
      some '(' := by
    rw [List.drop_append_of_le_length inside]
    cases behind : (c :: text).drop (name (c :: text ++ ')' :: rest)).2 with
    | nil => exact fun same => absurd (Option.some.inj same) (by decide)
    | cons d tail =>
        intro same
        have member : d ∈ c :: text := by
          apply List.mem_of_mem_drop
          rw [behind]
          exact List.mem_cons_self
        rw [Option.some.inj same] at member
        exact not_mem_of_isBare bare rfl member
  rw [munchIdent_of_plain noCall]
  rw [List.length_cons] at inside
  exact ⟨by dsimp only; omega, rfl⟩

/-- **A token of bare text ends in front of a parenthesis.** -/
theorem munch_of_isBare {c : Char} (bare : isBare (c :: text) = true) (rest : Text) :
    (munch c (text ++ ')' :: rest)).2 ≤ text.length ∧
      (munch c (text ++ ')' :: rest)).1.isInert = true := by
  have other {d : Char} (mark : isMark d = true) : c ≠ d := by
    rintro rfl
    exact not_mem_of_isBare bare mark List.mem_cons_self
  have noEscape : '\\' ∉ text := fun member =>
    not_mem_of_isBare bare rfl (List.mem_cons_of_mem c member)
  have named := name_le_of_isBare noEscape rest
  have cut := munches c (text ++ ')' :: rest)
  generalize munch c (text ++ ')' :: rest) = munched at cut
  cases cut with
  | space _ =>
      refine ⟨?_, rfl⟩
      rw [takeWhile_stop rfl]
      exact length_takeWhile_le _ _
  | string quote => exact absurd quote (not_or.2 ⟨other rfl, other rfl⟩)
  | hash _ kind => exact ⟨named, by rcases kind with rfl | rfl <;> rfl⟩
  | matcher follows =>
      refine ⟨?_, rfl⟩
      cases text with
      | nil => exact absurd (Option.some.inj follows) (by decide)
      | cons d text => exact Nat.succ_le_succ (Nat.zero_le _)
  | @sign token named =>
      refine ⟨Nat.zero_le _, ?_⟩
      unfold signToken? at named
      split at named
      all_goals first
        | exact absurd rfl (other rfl)
        | (obtain rfl := Option.some.inj named
           rfl)
        | cases named
  | number _ => exact munchNumber_of_isBare bare rest
  | commentClose _ follows => exact ⟨length_le_of_follows follows (by decide), rfl⟩
  | commentOpen _ follows => exact ⟨length_le_of_follows follows (by decide), rfl⟩
  | comment isSlash _ => exact absurd isSlash (other rfl)
  | atKeyword _ => exact ⟨named, rfl⟩
  | ident _ => exact munchIdent_of_isBare bare rest
  | delim _ _ => exact ⟨Nat.zero_le _, rfl⟩

/-- **Bare text is a passage in front of a closing parenthesis.** -/
theorem exists_readsPieces_bare (bare : isBare text = true) (offset : Nat) (rest : Text) :
    ∃ pieces, ReadsPieces offset text (')' :: rest) pieces := by
  induction text using induct_drop generalizing offset with
  | nil => exact ⟨[], .nil⟩
  | cons c text ih =>
      obtain ⟨inside, inert⟩ := munch_of_isBare bare rest
      generalize munched : munch c (text ++ ')' :: rest) = found at inside inert
      obtain ⟨token, count⟩ := found
      have bareBehind : isBare (text.drop count) = true := by
        rw [isBare, List.all_eq_true] at bare ⊢
        exact fun d member => bare d (List.mem_cons_of_mem c (List.mem_of_mem_drop member))
      have cut : Lexes token (c :: text.take count) (text.drop count ++ ')' :: rest) := by
        apply lexes_of_munch
        rw [← List.append_assoc, List.take_append_drop, munched, List.length_take,
          Nat.min_eq_left inside]
      obtain ⟨pieces, reads⟩ := ih count bareBehind
        (offset + Text.bytes (c :: text.take count))
      have first : ReadsPieces offset (c :: text.take count) (text.drop count ++ ')' :: rest) _ :=
        .of_isInert cut inert
      have whole := first.append reads
      rw [List.cons_append, List.take_append_drop] at whole
      exact ⟨_, whole⟩

end Css

end ScssLint
