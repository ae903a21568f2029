import ScssLint.Proofs.Css.Verbatim
import ScssLint.Proofs.Selector.KeptComments

/-! # Steady texts

A text is steady if nothing in it is left open, its tokens keep to themselves, and what is written of
its nodes stands for their pieces (`SelectorList.IsSteady`): no comment is glued to an id or an
attribute selector, no slash meets a star once a comment is left out, names behind a colon hold no
escapes, and what stands behind the dropped argument of a pseudo-element does not go on with its name.

How many pieces belong to a node depends on how the pieces behind it start
(`SelectorList.StartsAs`, `SelectorList.component_resume`).
-/

namespace ScssLint

open Css

namespace SelectorList

/-- Whether what is written of the nodes at a piece in front of `rest` stands for the pieces. -/
structure IsSteadyAt (piece : Piece) (rest : List Piece) : Prop where
  /-- No comment is glued to an id or an attribute selector. -/
  bare : piece.token = .idHash ∨ piece.token = .opening .square → piece.lead = []
  /-- A slash meets no star once the comments between the two are left out. -/
  apart : piece.text.getLast? = some '/' → ∀ next ∈ rest[0]?, next.head.text.head? ≠ some '*'
  /-- The name behind a colon is written as it is read. -/
  verbatim : piece.token = .colon → ∀ next ∈ rest[0]?, next.head.isVerbatim = true
  /-- What stands behind the argument of a pseudo-element does not go on with its name. -/
  element : piece.token = .colon → ∀ colon ∈ rest[0]?, colon.token = .colon →
    ∀ function ∈ rest[1]?, function.token.opens? = some .parenthesis →
      ∀ next ∈ rest[2]?, next.token.isApart = true

instance (piece : Piece) (rest : List Piece) : Decidable (IsSteadyAt piece rest) :=
  decidable_of_iff
    ((piece.token = .idHash ∨ piece.token = .opening .square → piece.lead = []) ∧
      (piece.text.getLast? = some '/' → ∀ next ∈ rest[0]?, next.head.text.head? ≠ some '*') ∧
      (piece.token = .colon → ∀ next ∈ rest[0]?, next.head.isVerbatim = true) ∧
      (piece.token = .colon → ∀ colon ∈ rest[0]?, colon.token = .colon →
        ∀ function ∈ rest[1]?, function.token.opens? = some .parenthesis →
          ∀ next ∈ rest[2]?, next.token.isApart = true))
    ⟨fun ⟨bare, apart, verbatim, element⟩ => ⟨bare, apart, verbatim, element⟩,
      fun ⟨bare, apart, verbatim, element⟩ => ⟨bare, apart, verbatim, element⟩⟩

/-- Whether the block of a piece holds selectors behind a colon. -/
def holdsSelectors (piece : Piece) : Bool :=
  match piece.token with
  | .function named => takesSelectors named
  | _ => false

/-- Whether what is written of nodes stands for their pieces everywhere, arguments included. -/
def isSteady (pieces : List Piece) : Bool :=
  match pieces with
  | [] => true
  | piece :: rest =>
      decide (IsSteadyAt piece rest) && (!holdsSelectors piece || isSteady piece.body.pieces) &&
        isSteady rest
termination_by weight pieces
decreasing_by
  · have inside := Forest.weight_pieces_body_lt piece
    rw [weight_cons]
    omega
  · exact weight_lt_cons piece rest

/-- Whether a text stands for what is written of it. -/
structure IsSteady (text : Text) : Prop where
  whole : isWhole text = true
  solid : ∀ lexeme ∈ lexemes text, lexeme.IsSolid
  steady : isSteady (Forest.ofText text).pieces = true

instance (text : Text) : Decidable (IsSteady text) :=
  decidable_of_iff (isWhole text = true ∧ (∀ lexeme ∈ lexemes text, lexeme.IsSolid) ∧
      isSteady (Forest.ofText text).pieces = true)
    ⟨fun ⟨whole, solid, steady⟩ => ⟨whole, solid, steady⟩,
      fun ⟨whole, solid, steady⟩ => ⟨whole, solid, steady⟩⟩

section Steady

variable {piece : Piece} {front back : List Piece}

theorem IsSteadyAt.shorten (steady : IsSteadyAt piece (front ++ back)) : IsSteadyAt piece front := by
  have found {index : Nat} {next : Piece} (here : next ∈ front[index]?) :
      next ∈ (front ++ back)[index]? := by
    obtain ⟨inside, _⟩ := List.getElem?_eq_some_iff.1 here
    rwa [List.getElem?_append_left inside]
  exact ⟨steady.bare, fun slash next here => steady.apart slash next (found here),
    fun isColon next here => steady.verbatim isColon next (found here),
    fun isColon colon here second function here' opens next here'' =>
      steady.element isColon colon (found here) second function (found here') opens next
        (found here'')⟩

theorem isSteady_cons_iff :
    isSteady (piece :: back) = true ↔ IsSteadyAt piece back ∧
      (holdsSelectors piece = true → isSteady piece.body.pieces = true) ∧ isSteady back = true := by
  rw [isSteady, Bool.and_eq_true, Bool.and_eq_true, decide_eq_true_iff, and_assoc]
  cases holdsSelectors piece <;> simp

/-- Both parts of steady pieces are steady. -/
theorem isSteady_split (steady : isSteady (front ++ back) = true) :
    isSteady front = true ∧ isSteady back = true := by
  induction front with
  | nil =>
      refine ⟨?_, steady⟩
      rw [isSteady]
  | cons piece front ih =>
      rw [List.cons_append, isSteady_cons_iff] at steady
      obtain ⟨here, inside, later⟩ := steady
      obtain ⟨steadyFront, steadyBack⟩ := ih later
      exact ⟨isSteady_cons_iff.2 ⟨here.shorten, inside, steadyFront⟩, steadyBack⟩

theorem isSteady_drop {pieces : List Piece} (steady : isSteady pieces = true) (count : Nat) :
    isSteady (pieces.drop count) = true := by
  rw [← List.take_append_drop count pieces] at steady
  exact (isSteady_split steady).2

end Steady

/-! ### How pieces start -/

/-- Whether an interpolation comes first. -/
def startsSlot : List Piece → Bool
  | hash :: block :: _ => isDelim '#' hash && isCurlyBlock block
  | _ => false

/-- Whether pieces start with what a name goes on with exactly if others do. -/
structure StartsAs (pieces printed : List Piece) : Prop where
  carries : printed.head?.any carriesOnName = pieces.head?.any carriesOnName
  curly : printed.head?.any isCurlyBlock = pieces.head?.any isCurlyBlock
  slot : startsSlot printed = startsSlot pieces

section Starts

variable {pieces printed taken taken' : List Piece}

/-- What starts with no part of a name starts like anything else that does. -/
theorem StartsAs.of_apart (apart : ∀ first ∈ pieces.head?, isNamePart first = false)
    (apart' : ∀ first ∈ printed.head?, isNamePart first = false) : StartsAs pieces printed := by
  have stops {pieces : List Piece} (apart : ∀ first ∈ pieces.head?, isNamePart first = false) :
      pieces.head?.any carriesOnName = false ∧ pieces.head?.any isCurlyBlock = false ∧
        startsSlot pieces = false := by
    cases pieces with
    | nil => exact ⟨rfl, rfl, rfl⟩
    | cons first rest =>
        have other := apart first rfl
        rw [isNamePart, Bool.or_eq_false_iff, Bool.or_eq_false_iff] at other
        obtain ⟨⟨noHash, noBlock⟩, noMore⟩ := other
        refine ⟨noMore, noBlock, ?_⟩
        cases rest with
        | nil => rfl
        | cons next rest => rw [startsSlot, noHash, Bool.false_and]
  obtain ⟨carries, curly, slot⟩ := stops apart
  obtain ⟨carries', curly', slot'⟩ := stops apart'
  exact ⟨carries'.trans carries.symm, curly'.trans curly.symm, slot'.trans slot.symm⟩

/-- The same tokens in front. -/
theorem StartsAs.append (same : tokens taken' = tokens taken) (starts : StartsAs pieces printed) :
    StartsAs (taken ++ pieces) (taken' ++ printed) := by
  rcases taken with _ | ⟨first, rest⟩
  · obtain rfl := List.map_eq_nil_iff.1 same
    exact starts
  obtain ⟨first', rest', rfl, isFirst, others⟩ := tokens_cons same
  refine ⟨carriesOnName_congr isFirst, isCurlyBlock_congr isFirst, ?_⟩
  rcases rest with _ | ⟨second, rest⟩
  · obtain rfl := List.map_eq_nil_iff.1 others
    have curly := starts.curly
    have single (hash : Piece) (behind : List Piece) :
        startsSlot (hash :: behind) = (isDelim '#' hash && behind.head?.any isCurlyBlock) := by
      cases behind with
      | nil => exact (Bool.and_false _).symm
      | cons block behind => rfl
    change startsSlot (first' :: printed) = startsSlot (first :: pieces)
    rw [single, single, isDelim_congr isFirst, curly]
  · obtain ⟨second', rest', rfl, isSecond, _⟩ := tokens_cons others
    change (isDelim '#' first' && isCurlyBlock second') = (isDelim '#' first && isCurlyBlock second)
    rw [isDelim_congr isFirst, isCurlyBlock_congr isSecond]

theorem tailLength_of_startsSlot (noSlot : startsSlot pieces = false) : tailLength pieces = 0 := by
  rcases pieces with _ | ⟨hash, _ | ⟨block, rest⟩⟩
  · rfl
  · rfl
  · have none : ¬ (isDelim '#' hash && isCurlyBlock block) = true := Bool.eq_false_iff.1 noSlot
    cases rest <;> simp only [tailLength, if_neg none]

theorem tailLength_slot {hash block : Piece} {rest : List Piece}
    (slot : startsSlot (hash :: block :: rest) = true) :
    tailLength (hash :: block :: rest) =
      if rest.head?.any carriesOnName then 3 + tailLength rest.tail else 2 + tailLength rest := by
  have both : (isDelim '#' hash && isCurlyBlock block) = true := slot
  cases rest <;> rw [tailLength, if_pos both] <;> rfl

theorem two_le_tailLength (slot : startsSlot pieces = true) : 2 ≤ tailLength pieces := by
  rcases pieces with _ | ⟨hash, _ | ⟨block, rest⟩⟩
  · exact Bool.noConfusion slot
  · exact Bool.noConfusion slot
  · rw [tailLength_slot slot]
    split <;> omega

/-- **The rest of a name is found again** in front of pieces that start in the same way. -/
theorem tailLength_resume (same : tokens taken' = tokens taken) (starts : StartsAs pieces printed)
    (length : tailLength (taken ++ pieces) = taken.length) :
    tailLength (taken' ++ printed) = taken'.length := by
  induction left : taken.length using Nat.strongRecOn generalizing taken taken' with
  | _ count ih =>
    subst left
    have whole := (starts.append same).slot
    cases slot : startsSlot (taken ++ pieces) with
    | false =>
        rw [tailLength_of_startsSlot slot] at length
        obtain rfl := List.eq_nil_of_length_eq_zero length.symm
        obtain rfl := List.map_eq_nil_iff.1 same
        exact tailLength_of_startsSlot (whole.trans slot)
    | true =>
        rw [slot] at whole
        have long := two_le_tailLength slot
        rw [length] at long
        rcases taken with _ | ⟨hash, _ | ⟨block, rest⟩⟩
        · exact absurd long (Nat.not_succ_le_zero 1)
        · exact absurd long (Nat.not_succ_le_self 1)
        · obtain ⟨hash', rest', rfl, _, others⟩ := tokens_cons same
          obtain ⟨block', rest', rfl, _, others⟩ := tokens_cons others
          have carries := (starts.append others).carries
          simp only [List.cons_append] at slot whole length ⊢
          rw [tailLength_slot slot, List.length_cons, List.length_cons] at length
          rw [tailLength_slot whole, carries, List.length_cons, List.length_cons]
          split at length
          · rename_i goesOn
            rw [if_pos goesOn]
            rcases rest with _ | ⟨piece, more⟩
            · rw [List.length_nil] at length
              omega
            · obtain ⟨piece', more', rfl, _, others⟩ := tokens_cons others
              rw [List.cons_append, List.tail_cons, List.length_cons] at length ⊢
              have behind := ih more.length (by simp only [List.length_cons]; omega) others
                (by omega) rfl
              omega
          · rename_i stops
            rw [if_neg stops]
            have behind := ih rest.length (by simp only [List.length_cons]; omega) others
              (by omega) rfl
            omega

/-- **A name is found again** in front of pieces that start in the same way. -/
theorem nameLength?_resume (same : tokens taken' = tokens taken) (starts : StartsAs pieces printed)
    (length : nameLength? (taken ++ pieces) = some taken.length) :
    nameLength? (taken' ++ printed) = some taken'.length := by
  rcases taken with _ | ⟨first, rest⟩
  · rcases pieces with _ | ⟨piece, pieces⟩
    · cases length
    · rw [List.nil_append, nameLength?.eq_def] at length
      dsimp only at length
      repeat' split at length
      all_goals first
        | cases length
        | exact absurd (Option.some.inj length) (by rw [List.length_nil]; omega)
  · obtain ⟨first', rest', rfl, isFirst, others⟩ := tokens_cons same
    rw [List.cons_append, nameLength?.eq_def, List.length_cons] at length ⊢
    dsimp only at length ⊢
    rw [isFirst]
    split at length
    · have tail := tailLength_resume others starts (by have := Option.some.inj length; omega)
      rw [tail, Nat.add_comm]
    · rcases rest with _ | ⟨block, more⟩
      · rw [List.nil_append, List.length_nil] at length
        repeat' split at length
        all_goals first
          | cases length
          | exact absurd (Option.some.inj length) (by omega)
      · obtain ⟨block', more', rfl, isBlock, behind⟩ := tokens_cons others
        rw [List.cons_append] at length ⊢
        dsimp only at length ⊢
        rw [isCurlyBlock_congr isBlock]
        split at length
        · rename_i curly
          have tail := tailLength_resume behind starts (by
            have := Option.some.inj length
            rw [List.length_cons] at this
            omega)
          rw [if_pos curly, tail, List.length_cons]
          congr 1
          omega
        · cases length
    · cases length

end Starts

/-! ### Components by their tokens and texts -/

/-- How many pieces behind one that is no colon belong to its node. -/
def nodeLength? (piece : Piece) (rest : List Piece) : Option Nat :=
  match piece.token with
  | .delim '.' | .delim '%' => nameLength? rest
  | .delim '#' =>
      let block := if rest.head?.any isCurlyBlock then 1 else 0
      some (block + tailLength (rest.drop block))
  | .ident _ | .idHash => some (tailLength rest)
  | _ => some 0

/-- The component of a node, by its first token, its whole text and the text behind the first piece. -/
def componentOf (token : Token) (whole behind : Text) : Component :=
  match token with
  | .delim '>' => .combinator .child
  | .delim '+' => .combinator .adjacentSibling
  | .delim '~' => .combinator .generalSibling
  | .delim '&' => .nesting
  | .delim '*' => .universal
  | .delim '.' => .className behind
  | .ident _ => .tag whole
  | .idHash => .identifier (whole.drop 1)
  | .opening .square => .attr (Text.trim (withoutBrackets whole))
  | _ => .other whole

section Components

variable {piece piece' : Piece} {rest taken taken' behind printed : List Piece} {result : Component}
  {count : Nat}

/-- A component is found in two steps. -/
theorem component_eq (piece : Piece) (rest : List Piece) :
    component piece rest =
      match nodeLength? piece rest with
      | some count => .ok (componentOf piece.token (piecesText (piece :: rest.take count))
          (piecesText (rest.take count)), count)
      | none => .error (if piece.token = .delim '.' then .missingClassName
          else .missingPlaceholderName) := by
  have single : piecesText [piece] = piece.text := piecesText_singleton piece
  unfold component
  dsimp only
  split
  case h_6 isDot =>
    cases named : nameLength? rest <;> simp only [nodeLength?, isDot, componentOf, named, ↓reduceIte]
  case h_7 isPercent =>
    have noDot : Token.delim '%' ≠ .delim '.' := by decide
    have node (whole inside : Text) : componentOf (.delim '%') whole inside = .other whole := rfl
    cases named : nameLength? rest <;>
      simp only [nodeLength?, isPercent, node, named, if_neg noDot]
  case h_9 isIdent => simp only [nodeLength?, isIdent, componentOf]
  case h_10 isIdHash => simp only [nodeLength?, isIdHash, componentOf]
  case h_11 isSquare => simp only [nodeLength?, isSquare, componentOf, List.take_zero, single]
  case h_12 noIdent _ _ =>
    have length : nodeLength? piece rest = some 0 := by
      unfold nodeLength?
      split <;> first | contradiction | rfl | exact (noIdent _ ‹_›).elim
    have node (whole behind : Text) : componentOf piece.token whole behind = .other whole := by
      unfold componentOf
      split <;> first | contradiction | rfl | exact (noIdent _ ‹_›).elim
    rw [length]
    dsimp only
    rw [node, List.take_zero, single]
  all_goals
    rename_i token
    unfold nodeLength? componentOf
    rw [token]
    rfl

theorem component_eq_ok_iff : component piece rest = .ok (result, count) ↔
    nodeLength? piece rest = some count ∧
      result = componentOf piece.token (piecesText (piece :: rest.take count))
        (piecesText (rest.take count)) := by
  rw [component_eq]
  cases nodeLength? piece rest with
  | none =>
      constructor
      · intro read
        cases read
      · intro found
        exact absurd found.1.symm (Option.some_ne_none _)
  | some length =>
      constructor
      · intro read
        obtain ⟨rfl, rfl⟩ := Prod.mk.inj (Except.ok.inj read)
        exact ⟨rfl, rfl⟩
      · rintro ⟨same, rfl⟩
        obtain rfl := Option.some.inj same
        rfl

/-- Names and interpolations alone belong to a node behind its first piece. -/
theorem isNamePart_of_nodeLength? (length : nodeLength? piece rest = some count) :
    ∀ part ∈ rest.take count, isNamePart part = true := by
  unfold nodeLength? at length
  split at length
  · exact isNamePart_of_mem_name length
  · exact isNamePart_of_mem_name length
  · obtain rfl := Option.some.inj length
    exact isNamePart_of_mem_hash
  · obtain rfl := Option.some.inj length
    exact isNamePart_of_mem_tail
  · obtain rfl := Option.some.inj length
    exact isNamePart_of_mem_tail
  · obtain rfl := Option.some.inj length
    rw [List.take_zero]
    exact List.forall_mem_nil _

/-- **The pieces of a node are found again** in front of pieces that start in the same way. -/
theorem nodeLength?_resume (token : piece'.token = piece.token) (same : tokens taken' = tokens taken)
    (starts : StartsAs behind printed)
    (length : nodeLength? piece (taken ++ behind) = some taken.length) :
    nodeLength? piece' (taken' ++ printed) = some taken'.length := by
  unfold nodeLength? at length ⊢
  rw [token]
  split at length
  · exact nameLength?_resume same starts length
  · exact nameLength?_resume same starts length
  · dsimp only at length ⊢
    rw [(starts.append same).curly]
    split at length
    · rename_i curly
      rw [if_pos curly]
      have count := Option.some.inj length
      rcases taken with _ | ⟨block, more⟩
      · rw [List.length_nil] at count
        omega
      · obtain ⟨block', more', rfl, _, others⟩ := tokens_cons same
        rw [List.cons_append, List.drop_succ_cons, List.drop_zero, List.length_cons] at count ⊢
        rw [tailLength_resume others starts (by omega), Nat.add_comm]
    · rename_i stops
      rw [if_neg stops]
      rw [List.drop_zero, Nat.zero_add] at length ⊢
      rw [tailLength_resume same starts (Option.some.inj length)]
  · rw [tailLength_resume same starts (Option.some.inj length)]
  · rw [tailLength_resume same starts (Option.some.inj length)]
  · obtain rfl := List.eq_nil_of_length_eq_zero (Option.some.inj length).symm
    obtain rfl := List.map_eq_nil_iff.1 same
    rfl

/-- Whether the pieces of a node stand for those of another one. The text of the first piece counts
if comments in front of it are kept. -/
structure StandsFor (piece : Piece) (taken : List Piece) (piece' : Piece) (taken' : List Piece) :
    Prop where
  token : piece'.token = piece.token
  tokens : SelectorList.tokens taken' = SelectorList.tokens taken
  text : piece.token.dropsComments = false → piece'.text = piece.text
  behind : piecesText taken' = piecesText taken

/-- **A component is read again** in front of pieces that start in the same way. -/
theorem component_resume (dark : piece.token ≠ .whitespace) (noComma : piece.token ≠ .comma)
    (noColon : piece.token ≠ .colon) (stands : StandsFor piece taken piece' taken')
    (starts : StartsAs behind printed)
    (read : component piece (taken ++ behind) = .ok (result, taken.length)) :
    component piece' (taken' ++ printed) = .ok (result, taken'.length) := by
  rw [component_eq_ok_iff] at read ⊢
  obtain ⟨length, rfl⟩ := read
  refine ⟨nodeLength?_resume stands.token stands.tokens starts length, ?_⟩
  rw [List.take_left, List.take_left, stands.token, stands.behind]
  cases keeps : piece.token.dropsComments with
  | false =>
      change componentOf _ (piece.text ++ piecesText taken) _ =
        componentOf _ (piece'.text ++ piecesText taken') _
      rw [stands.text keeps, stands.behind]
  | true =>
      obtain ⟨sign, member, token⟩ := eq_delim_of_dropsComments keeps dark noComma noColon
      rw [token]
      simp only [List.mem_cons, List.not_mem_nil, or_false] at member
      rcases member with rfl | rfl | rfl | rfl | rfl | rfl <;> rfl

/-- **What is written of a node that keeps its text.** -/
theorem text_of_keepsComments (read : component piece rest = .ok (result, count))
    (keeps : piece.token.dropsComments = false) (noSquare : piece.token ≠ .opening .square)
    (isHash : piece.token = .idHash → piece.text.head? = some '#') :
    result.text = piecesText (piece :: rest.take count) := by
  obtain ⟨_, rfl⟩ := component_eq_ok_iff.1 read
  unfold componentOf
  split
  case h_8 isIdHash =>
    obtain ⟨tail, text⟩ := List.head?_eq_some_iff.1 (isHash isIdHash)
    change '#' :: (piece.text ++ piecesText (rest.take count)).drop 1 =
      piece.text ++ piecesText (rest.take count)
    rw [text]
    rfl
  case h_9 isSquare => exact absurd isSquare noSquare
  case h_7 => rfl
  case h_10 => rfl
  all_goals
    rename_i token
    rw [token] at keeps
    exact Bool.noConfusion keeps

/-- **What is written of a node of which the sign alone is kept**, and what stands behind that. -/
theorem text_of_dropsComments (read : component piece rest = .ok (result, count))
    (drops : piece.token.dropsComments = true) (dark : piece.token ≠ .whitespace)
    (noComma : piece.token ≠ .comma) (noColon : piece.token ≠ .colon)
    (simple : result.isCombinator = false) :
    ∃ sign ∈ ['.', '&', '*'], piece.token = .delim sign ∧
      result.text = sign :: piecesText (rest.take count) := by
  obtain ⟨length, rfl⟩ := component_eq_ok_iff.1 read
  obtain ⟨sign, member, token⟩ := eq_delim_of_dropsComments drops dark noComma noColon
  rw [nodeLength?, token] at length
  rw [token] at simple ⊢
  simp only [List.mem_cons, List.not_mem_nil, or_false] at member
  rcases member with rfl | rfl | rfl | rfl | rfl | rfl
  · exact ⟨'.', by decide, rfl, rfl⟩
  · obtain rfl : 0 = count := Option.some.inj length
    exact ⟨'&', by decide, rfl, rfl⟩
  · obtain rfl : 0 = count := Option.some.inj length
    exact ⟨'*', by decide, rfl, rfl⟩
  · exact Bool.noConfusion simple
  · exact Bool.noConfusion simple
  · exact Bool.noConfusion simple

/-- A combinator that is written as a sign is read from the sign alone. -/
theorem exists_sign (read : component piece rest = .ok (result, count))
    (noSimple : result.isCombinator = true) :
    ∃ kind c, result = .combinator kind ∧ count = 0 ∧ (c = '>' ∨ c = '+' ∨ c = '~') ∧
      piece.token = .delim c ∧ kind.text = [' ', c, ' '] ∧
      ∀ (sign : Piece) (behind : List Piece), sign.token = .delim c →
        component sign behind = .ok (.combinator kind, 0) := by
  unfold component at read
  dsimp only at read
  split at read
  case h_1 token =>
    obtain ⟨rfl, rfl⟩ := Prod.mk.inj (Except.ok.inj read)
    refine ⟨.child, '>', rfl, rfl, .inl rfl, token, rfl, fun sign behind same => ?_⟩
    rw [component, same]
    rfl
  case h_2 token =>
    obtain ⟨rfl, rfl⟩ := Prod.mk.inj (Except.ok.inj read)
    refine ⟨.adjacentSibling, '+', rfl, rfl, .inr (.inl rfl), token, rfl, fun sign behind same => ?_⟩
    rw [component, same]
    rfl
  case h_3 token =>
    obtain ⟨rfl, rfl⟩ := Prod.mk.inj (Except.ok.inj read)
    refine ⟨.generalSibling, '~', rfl, rfl, .inr (.inr rfl), token, rfl, fun sign behind same => ?_⟩
    rw [component, same]
    rfl
  all_goals
    repeat' split at read
    all_goals first
      | (obtain ⟨rfl, rfl⟩ := Prod.mk.inj (Except.ok.inj read)
         exact Bool.noConfusion noSimple)
      | cases read

end Components

end SelectorList

end ScssLint
