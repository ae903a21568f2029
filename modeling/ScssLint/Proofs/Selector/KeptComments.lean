import ScssLint.Proofs.Comment.Ahead
import ScssLint.Proofs.Css.Outside
import ScssLint.Proofs.Selector.Tokens

/-! # Comments in selectors

A comment outside all brackets changes nothing of a selector list but the texts of its nodes
(`SelectorList.ofText_respells`): which nodes there are, where they stand and what their arguments
are is the same whatever the comment says. A node is kept as it is written from the end of the node
in front of it, so the list does tell which comments stand in front of names, brackets and signs
that it keeps (`SelectorList.keptComments`), and it tells no others.
-/

namespace ScssLint

open Css
open Comment (blockText)

/-- A component without the text that it keeps as it is written. -/
def Component.bare : Component → Component
  | .className _ => .className []
  | .identifier _ => .identifier []
  | .attr _ => .attr []
  | .tag _ => .tag []
  | .other _ => .other []
  | component => component

def SelectorNode.bare (node : SelectorNode) : SelectorNode :=
  { node with component := node.component.bare }

/-- A selector list without the texts that its own nodes keep as they are written. -/
def SelectorList.bare (list : SelectorList) : SelectorList :=
  list.map (·.map SelectorNode.bare)

theorem Component.isCombinator_bare (component : Component) :
    component.bare.isCombinator = component.isCombinator := by
  cases component <;> rfl

namespace Css

/-- Whether the comments in front of a token are dropped with it or the node it stands for. -/
def Token.dropsComments : Token → Bool
  | whitespace | comma | colon => true
  | delim sign => ['.', '&', '*', '>', '+', '~'].contains sign
  | _ => false

end Css

namespace SelectorList

/-- The signs of which no text is kept but their own. -/
theorem eq_delim_of_dropsComments {token : Token} (drops : token.dropsComments = true)
    (dark : token ≠ .whitespace) (noComma : token ≠ .comma) (noColon : token ≠ .colon) :
    ∃ sign ∈ ['.', '&', '*', '>', '+', '~'], token = .delim sign := by
  cases token with
  | delim sign => exact ⟨sign, List.contains_iff_mem.1 drops, rfl⟩
  | whitespace => exact absurd rfl dark
  | comma => exact absurd rfl noComma
  | colon => exact absurd rfl noColon
  | _ => exact Bool.noConfusion drops

/-- The comments that are kept with the pieces behind them: not those behind a colon, nor those in
front of signs of which no text is kept. -/
def keptComments (behindColon : Bool) : List Piece → List Text
  | [] => []
  | piece :: rest =>
      if behindColon || piece.token.dropsComments then
        keptComments (piece.token == .colon) rest
      else
        spelling piece.lead :: keptComments (piece.token == .colon) rest

section Kept

variable {pieces pieces' : List Piece}

theorem tokens_agree (agree : AllAgree pieces pieces') : tokens pieces' = tokens pieces := by
  induction agree with
  | nil => rfl
  | cons agrees _ ih => exact congrArg₂ List.cons agrees.token ih

/-- The comments in front of each of some pieces. -/
def leads (pieces : List Piece) : List Text :=
  pieces.map fun piece => spelling piece.lead

/-- **What is kept as it is written tells the comments in it.** -/
theorem piecesText_iff (agree : AllAgree pieces pieces') :
    piecesText pieces' = piecesText pieces ↔ leads pieces' = leads pieces := by
  induction agree with
  | nil => exact iff_of_true rfl rfl
  | @cons piece piece' rest rest' agrees agree ih =>
      have bytes : Text.bytes piece'.text = Text.bytes piece.text := by
        obtain ⟨text, text'⟩ := agrees.text_eq
        rw [text, text', Text.bytes_append, Text.bytes_append, agrees.length]
      have cons (piece : Piece) (rest : List Piece) :
          piecesText (piece :: rest) = piece.text ++ piecesText rest := rfl
      rw [cons, cons, leads, leads, List.map_cons, List.map_cons, List.cons.injEq,
        ← agrees.text_iff]
      constructor
      · intro same
        obtain ⟨first, others⟩ := Text.append_inj_of_bytes same bytes
        exact ⟨first, ih.1 others⟩
      · rintro ⟨first, others⟩
        rw [first, ih.2 others]

/-- Whether a colon stands last, or `behindColon` if there are no pieces. -/
def endsInColon (behindColon : Bool) : List Piece → Bool
  | [] => behindColon
  | piece :: rest => endsInColon (piece.token == .colon) rest

theorem keptComments_append (behindColon : Bool) (pieces more : List Piece) :
    keptComments behindColon (pieces ++ more) =
      keptComments behindColon pieces ++ keptComments (endsInColon behindColon pieces) more := by
  induction pieces generalizing behindColon with
  | nil => rfl
  | cons piece pieces ih =>
      rw [List.cons_append, keptComments, keptComments, ih, endsInColon]
      split <;> rfl

theorem length_keptComments (agree : AllAgree pieces pieces') (behindColon : Bool) :
    (keptComments behindColon pieces').length = (keptComments behindColon pieces).length := by
  induction agree generalizing behindColon with
  | nil => rfl
  | cons agrees _ ih =>
      rw [keptComments, keptComments, agrees.token]
      split
      · exact ih _
      · rw [List.length_cons, List.length_cons, ih]

theorem endsInColon_agrees (agree : AllAgree pieces pieces') (behindColon : Bool) :
    endsInColon behindColon pieces' = endsInColon behindColon pieces := by
  induction agree generalizing behindColon with
  | nil => rfl
  | cons agrees _ ih => rw [endsInColon, endsInColon, agrees.token, ih]

/-- The comments in two runs of pieces are told by those in each. -/
theorem keptComments_append_iff (agree : AllAgree pieces pieces') (more more' : List Piece)
    (behindColon : Bool) :
    keptComments behindColon (pieces' ++ more') = keptComments behindColon (pieces ++ more) ↔
      keptComments behindColon pieces' = keptComments behindColon pieces ∧
        keptComments (endsInColon behindColon pieces) more' =
          keptComments (endsInColon behindColon pieces) more := by
  rw [keptComments_append, keptComments_append, endsInColon_agrees agree]
  constructor
  · exact fun same => List.append_inj same (length_keptComments agree behindColon)
  · rintro ⟨first, others⟩
    rw [first, others]

end Kept

section Names

variable {piece piece' : Piece} {pieces pieces' rest rest' : List Piece}

/-- The tokens of which the rest of a name is made. -/
def isNamePart (piece : Piece) : Bool :=
  isDelim '#' piece || isCurlyBlock piece || carriesOnName piece

theorem isNamePart_of_mem_tail :
    ∀ piece ∈ pieces.take (tailLength pieces), isNamePart piece = true := by
  have both {hash block : Piece} (isTail : (isDelim '#' hash && isCurlyBlock block) = true) :
      isNamePart hash = true ∧ isNamePart block = true := by
    obtain ⟨isHash, isBlock⟩ := Bool.and_eq_true_iff.1 isTail
    exact ⟨by rw [isNamePart, isHash]; rfl, by rw [isNamePart, isBlock, Bool.or_true]; rfl⟩
  induction pieces using tailLength.induct with
  | case1 hash block isTail =>
      obtain ⟨first, second⟩ := both isTail
      have length : tailLength [hash, block] = 2 := by simp only [tailLength, isTail, ↓reduceIte]
      rw [length]
      exact List.forall_mem_cons.2 ⟨first, List.forall_mem_singleton.2 second⟩
  | case2 hash block isTail piece more carries ih =>
      obtain ⟨first, second⟩ := both isTail
      have length : tailLength (hash :: block :: piece :: more) = tailLength more + 3 := by
        simp only [tailLength, isTail, carries, ↓reduceIte, Nat.add_comm]
      have third : isNamePart piece = true := by rw [isNamePart, carries, Bool.or_true]
      rw [length]
      exact List.forall_mem_cons.2 ⟨first, List.forall_mem_cons.2 ⟨second,
        List.forall_mem_cons.2 ⟨third, ih⟩⟩⟩
  | case3 hash block isTail piece more stops ih =>
      obtain ⟨first, second⟩ := both isTail
      have length : tailLength (hash :: block :: piece :: more) =
          tailLength (piece :: more) + 2 := by
        simp only [tailLength, isTail, stops, ↓reduceIte, Bool.false_eq_true, Nat.add_comm]
      rw [length]
      exact List.forall_mem_cons.2 ⟨first, List.forall_mem_cons.2 ⟨second, ih⟩⟩
  | case4 hash block rest noTail =>
      have none : tailLength (hash :: block :: rest) = 0 := by
        cases rest <;> simp only [tailLength, noTail, ↓reduceIte, Bool.false_eq_true]
      rw [none]
      exact List.forall_mem_nil _
  | case5 pieces short =>
      rcases pieces with _ | ⟨hash, _ | ⟨block, rest⟩⟩
      · exact List.forall_mem_nil _
      · exact List.forall_mem_nil _
      · exact absurd rfl (short hash block rest)

theorem isNamePart_of_mem_name {count : Nat} (named : nameLength? pieces = some count) :
    ∀ piece ∈ pieces.take count, isNamePart piece = true := by
  rcases pieces with _ | ⟨piece, rest⟩
  · exact absurd named (Option.some_ne_none _).symm
  rw [nameLength?.eq_def] at named
  dsimp only at named
  split at named
  · rename_i name isIdent
    have first : isNamePart piece = true := by
      rw [isNamePart, carriesOnName, isIdent, Bool.or_true]
    rw [← Option.some.inj named, Nat.add_comm]
    exact List.forall_mem_cons.2 ⟨first, isNamePart_of_mem_tail⟩
  · rename_i isHash
    split at named
    · rename_i block more
      split at named
      · rename_i isBlock
        have first : isNamePart piece = true := by
          rw [isNamePart, isDelim, isHash]
          rfl
        have second : isNamePart block = true := by
          rw [isNamePart, isBlock, Bool.or_true]
          rfl
        rw [← Option.some.inj named, Nat.add_comm]
        exact List.forall_mem_cons.2 ⟨first, List.forall_mem_cons.2 ⟨second,
          isNamePart_of_mem_tail⟩⟩
      · cases named
    · cases named
  · cases named

theorem token_of_isNamePart (part : isNamePart piece = true) :
    piece.token.dropsComments = false ∧ (piece.token == .colon) = false := by
  simp only [isNamePart, isDelim, isCurlyBlock, Bool.or_eq_true, beq_iff_eq] at part
  rcases part with (isHash | isBlock) | carries
  · rw [isHash]
    exact ⟨rfl, rfl⟩
  · rw [isBlock]
    exact ⟨rfl, rfl⟩
  · unfold carriesOnName at carries
    split at carries
    · rename_i same
      rw [same]
      exact ⟨rfl, rfl⟩
    · rename_i same
      rw [same]
      exact ⟨rfl, rfl⟩
    · rename_i same
      rw [same]
      exact ⟨rfl, rfl⟩
    · exact Bool.noConfusion carries

theorem keptComments_of_isNamePart (parts : ∀ piece ∈ pieces, isNamePart piece = true) :
    keptComments false pieces = leads pieces ∧ endsInColon false pieces = false := by
  induction pieces with
  | nil => exact ⟨rfl, rfl⟩
  | cons piece rest ih =>
      obtain ⟨first, others⟩ := List.forall_mem_cons.1 parts
      obtain ⟨keeps, noColon⟩ := token_of_isNamePart first
      obtain ⟨kept, ends⟩ := ih others
      rw [keptComments, endsInColon, keeps, noColon, kept]
      exact ⟨rfl, ends⟩

theorem isNamePart_agrees (agree : AllAgree pieces pieces')
    (parts : ∀ piece ∈ pieces, isNamePart piece = true) :
    ∀ piece ∈ pieces', isNamePart piece = true := by
  induction agree with
  | nil => exact List.forall_mem_nil _
  | @cons piece piece' rest rest' agrees _ ih =>
      obtain ⟨first, others⟩ := List.forall_mem_cons.1 parts
      refine List.forall_mem_cons.2 ⟨?_, ih others⟩
      rw [isNamePart, isDelim_congr agrees.token, isCurlyBlock_congr agrees.token,
        carriesOnName_congr agrees.token]
      exact first

theorem keptComments_cons (keeps : piece.token.dropsComments = false)
    (parts : ∀ piece ∈ rest, isNamePart piece = true) :
    keptComments false (piece :: rest) = leads (piece :: rest) ∧
      endsInColon false (piece :: rest) = false := by
  have noColon : (piece.token == .colon) = false := by
    refine beq_eq_false_iff_ne.2 fun isColon => ?_
    rw [isColon] at keeps
    exact Bool.noConfusion keeps
  obtain ⟨kept, ends⟩ := keptComments_of_isNamePart parts
  rw [keptComments, endsInColon, keeps, noColon, kept]
  exact ⟨rfl, ends⟩

/-- **A glued node tells the comments in it.** -/
theorem glued_iff (agree : AllAgree (piece :: rest) (piece' :: rest'))
    (parts : ∀ piece ∈ rest, isNamePart piece = true)
    (keeps : piece.token.dropsComments = false) :
    (piecesText (piece' :: rest') = piecesText (piece :: rest) ↔
        keptComments false (piece' :: rest') = keptComments false (piece :: rest)) ∧
      endsInColon false (piece :: rest) = false := by
  cases agree with
  | cons agrees agree =>
      have keeps' : piece'.token.dropsComments = false := by rwa [agrees.token]
      obtain ⟨kept, ends⟩ := keptComments_cons keeps parts
      obtain ⟨kept', _⟩ := keptComments_cons keeps' (isNamePart_agrees agree parts)
      rw [kept, kept']
      exact ⟨piecesText_iff (.cons agrees agree), ends⟩

/-- What is read from the same number of pieces that agree. -/
inductive TakesAlike (pieces pieces' : List Piece) :
    Except SelectorFault (Component × Nat) → Except SelectorFault (Component × Nat) → Prop
  | error (fault : SelectorFault) : TakesAlike pieces pieces' (.error fault) (.error fault)
  | ok {component component' : Component} {count : Nat} : component'.bare = component.bare →
      (component' = component ↔ keptComments false (pieces'.take (count + 1)) =
        keptComments false (pieces.take (count + 1))) →
      endsInColon false (pieces.take (count + 1)) = false →
      TakesAlike pieces pieces' (.ok (component, count)) (.ok (component', count))

/-- A node without a text of its own. -/
theorem TakesAlike.dropped {component : Component} (agrees : Agrees piece piece')
    (drops : piece.token.dropsComments = true) (noColon : piece.token ≠ .colon) :
    TakesAlike (piece :: rest) (piece' :: rest') (.ok (component, 0)) (.ok (component, 0)) := by
  refine .ok rfl (iff_of_true rfl ?_) ?_
  · rw [List.take_succ_cons, List.take_succ_cons, keptComments, keptComments, agrees.token, drops]
    rfl
  · exact beq_eq_false_iff_ne.2 noColon

/-- A node that is kept as it is written. -/
theorem TakesAlike.glued (node : Text → Component) (count : Nat)
    (agree : AllAgree (piece :: rest) (piece' :: rest'))
    (parts : ∀ piece ∈ rest.take count, isNamePart piece = true)
    (keeps : piece.token.dropsComments = false)
    (bare : ∀ text text', (node text').bare = (node text).bare)
    (tells : node (piecesText (piece' :: rest'.take count)) =
        node (piecesText (piece :: rest.take count)) →
      piecesText (piece' :: rest'.take count) = piecesText (piece :: rest.take count)) :
    TakesAlike (piece :: rest) (piece' :: rest')
      (.ok (node (piecesText (piece :: rest.take count)), count))
      (.ok (node (piecesText (piece' :: rest'.take count)), count)) := by
  have taken : AllAgree (piece :: rest.take count) (piece' :: rest'.take count) :=
    List.forall₂_take (count + 1) agree
  obtain ⟨same, ends⟩ := glued_iff taken parts keeps
  refine .ok (bare _ _) ?_ ends
  rw [List.take_succ_cons, List.take_succ_cons, ← same]
  exact ⟨tells, congrArg node⟩

theorem piecesText_singleton (piece : Piece) : piecesText [piece] = piece.text :=
  List.append_nil _

/-- A node of one piece that is kept as it is written. -/
theorem TakesAlike.single (node : Text → Component)
    (agree : AllAgree (piece :: rest) (piece' :: rest')) (keeps : piece.token.dropsComments = false)
    (bare : ∀ text text', (node text').bare = (node text).bare)
    (tells : node piece'.text = node piece.text → piece'.text = piece.text) :
    TakesAlike (piece :: rest) (piece' :: rest') (.ok (node piece.text, 0))
      (.ok (node piece'.text, 0)) := by
  rw [← piecesText_singleton piece, ← piecesText_singleton piece'] at tells ⊢
  exact .glued node 0 agree (List.forall_mem_nil _) keeps bare tells

/-- A class name is kept as it is written, without the comments in front of its dot. -/
theorem TakesAlike.className {count : Nat} (agree : AllAgree (piece :: rest) (piece' :: rest'))
    (isDot : piece.token = .delim '.') (parts : ∀ piece ∈ rest.take count, isNamePart piece = true) :
    TakesAlike (piece :: rest) (piece' :: rest')
      (.ok (.className (piecesText (rest.take count)), count))
      (.ok (.className (piecesText (rest'.take count)), count)) := by
  cases agree with
  | cons agrees agree =>
    have taken : AllAgree (rest.take count) (rest'.take count) := List.forall₂_take count agree
    obtain ⟨kept, ends⟩ := keptComments_of_isNamePart parts
    obtain ⟨kept', _⟩ := keptComments_of_isNamePart (isNamePart_agrees taken parts)
    refine .ok rfl ?_ ?_
    · rw [List.take_succ_cons, List.take_succ_cons, keptComments, keptComments, agrees.token, isDot]
      refine Iff.trans ⟨Component.className.inj, congrArg _⟩ ((piecesText_iff taken).trans ?_)
      rw [← kept, ← kept']
      rfl
    · rw [List.take_succ_cons, endsInColon, isDot]
      exact ends

end Names

section Components

variable {piece piece' : Piece} {rest rest' : List Piece}

theorem isNamePart_of_mem_hash :
    ∀ piece ∈ rest.take ((if rest.head?.any isCurlyBlock = true then 1 else 0) +
      tailLength (rest.drop (if rest.head?.any isCurlyBlock = true then 1 else 0))),
      isNamePart piece = true := by
  cases rest with
  | nil =>
      rw [List.take_nil]
      exact List.forall_mem_nil _
  | cons block rest =>
      rw [List.head?_cons, Option.any_some]
      split
      · rename_i isBlock
        have first : isNamePart block = true := by
          rw [isNamePart, isBlock, Bool.or_true]
          rfl
        rw [Nat.add_comm, List.take_succ_cons]
        exact List.forall_mem_cons.2 ⟨first, isNamePart_of_mem_tail⟩
      · rw [Nat.zero_add]
        exact isNamePart_of_mem_tail

/-- Square brackets and the comments in front of them. -/
theorem withoutBrackets_iff (agrees : Agrees piece piece')
    (isSquare : piece.token = .opening .square)
    (same : Text.trim (withoutBrackets piece'.text) = Text.trim (withoutBrackets piece.text)) :
    piece'.text = piece.text := by
  obtain ⟨text, text'⟩ := agrees.text_eq
  rcases agrees.lead_cases with ⟨none, none'⟩ | ⟨tail, tail', some, some'⟩
  · rw [text, text', none, none']
  · obtain ⟨inside, own⟩ := piece.exists_own
    obtain ⟨more, bracket⟩ := List.head?_eq_some_iff.1 (agrees.square isSquare)
    have spelled : spelling piece.own = '[' :: (more ++ spelling inside) := by
      rw [own, spelling_cons, bracket]
      rfl
    have trimmed (lead : Text) : Text.trim (withoutBrackets ('/' :: lead ++ spelling piece.own)) =
        '/' :: lead ++ '[' :: Text.trimEnd (more ++ spelling inside) := by
      rw [spelled]
      refine (Text.trim_cons_of_dark (by decide) _).trans ?_
      rw [List.cons_append, ← Text.trimEnd_append_cons (by decide)]
      rfl
    rw [text, text', some, some', trimmed, trimmed] at same
    have length := agrees.length
    rw [some, some'] at length
    rw [agrees.text_iff, some, some']
    exact (Text.append_inj_of_bytes same length).1

theorem component_agrees (agree : AllAgree (piece :: rest) (piece' :: rest'))
    (dark : piece.token ≠ .whitespace) (noComma : piece.token ≠ .comma)
    (noColon : piece.token ≠ .colon) :
    TakesAlike (piece :: rest) (piece' :: rest') (component piece rest)
      (component piece' rest') := by
  cases agree with
  | cons agrees agree =>
  have same := tokens_agree agree
  have whole : AllAgree (piece :: rest) (piece' :: rest') := .cons agrees agree
  simp only [component, agrees.token, nameLength?_congr same, head?_any_isCurlyBlock_congr same,
    tailLength_congr same, tailLength_congr (tokens_drop same _)]
  split
  case h_1 isSign | h_2 isSign | h_3 isSign | h_4 isSign | h_5 isSign =>
    exact .dropped agrees (by rw [isSign]; rfl) noColon
  case h_6 isDot =>
    split
    · rename_i named
      exact .className whole isDot (isNamePart_of_mem_name named)
    · exact .error _
  case h_7 isPercent =>
    split
    · rename_i count named
      exact .glued .other count whole (isNamePart_of_mem_name named) (by rw [isPercent]; rfl)
        (fun _ _ => rfl) Component.other.inj
    · exact .error _
  case h_8 isHash =>
    exact .glued .other _ whole isNamePart_of_mem_hash (by rw [isHash]; rfl) (fun _ _ => rfl)
      Component.other.inj
  case h_9 isIdent =>
    exact .glued .tag _ whole isNamePart_of_mem_tail (by rw [isIdent]; rfl) (fun _ _ => rfl)
      Component.tag.inj
  case h_10 isIdHash =>
    refine .glued (fun text => .identifier (text.drop 1)) _ whole isNamePart_of_mem_tail
      (by rw [isIdHash]; rfl) (fun _ _ => rfl) fun tells => ?_
    obtain ⟨c, tail, tail', text, text'⟩ := agrees.head?_text
    have behind := Component.identifier.inj tells
    change piece'.text ++ _ = piece.text ++ _
    change (piece'.text ++ _).drop 1 = (piece.text ++ _).drop 1 at behind
    rw [text, text'] at behind ⊢
    exact congrArg (c :: ·) behind
  case h_11 isSquare =>
    exact .single (fun text => .attr (Text.trim (withoutBrackets text))) whole
      (by rw [isSquare]; rfl) (fun _ _ => rfl)
      fun tells => withoutBrackets_iff agrees isSquare (Component.attr.inj tells)
  case h_12 =>
    refine .single .other whole (Bool.eq_false_iff.2 fun drops => ?_) (fun _ _ => rfl)
      Component.other.inj
    obtain ⟨sign, member, isSign⟩ := eq_delim_of_dropsComments drops dark noComma noColon
    simp only [List.mem_cons, List.not_mem_nil, or_false] at member
    rcases member with rfl | rfl | rfl | rfl | rfl | rfl <;> contradiction

theorem pseudo_agrees (agree : AllAgree rest rest') : pseudo rest' = pseudo rest := by
  cases agree with
  | nil => rfl
  | cons agrees agree =>
      simp only [pseudo, agrees.token, agrees.body, elementName?_congr (tokens_agree agree)]

theorem selectorFunction?_agrees (agree : AllAgree rest rest') :
    (selectorFunction? rest').map (fun (name, argument) => (name, argument.body)) =
      (selectorFunction? rest).map (fun (name, argument) => (name, argument.body)) := by
  cases agree with
  | nil => rfl
  | cons agrees agree =>
      simp only [selectorFunction?, agrees.token]
      repeat' split
      · exact congrArg (fun body => some (_, body)) agrees.body
      · rfl
      · rfl

/-- Whether all comments are dropped in front of the pieces that a colon takes. -/
def DropsComments (taken : List Piece) : Prop :=
  keptComments true taken = [] ∧ endsInColon true taken = false

theorem dropsComments_singleton (noColon : piece.token ≠ .colon) : DropsComments [piece] :=
  ⟨by rw [keptComments, Bool.true_or]; rfl, beq_eq_false_iff_ne.2 noColon⟩

theorem dropsComments_selectorFunction {found : Text × Piece}
    (isFunction : selectorFunction? rest = some found) : DropsComments (rest.take 1) := by
  cases rest with
  | nil => exact absurd isFunction.symm (Option.some_ne_none _)
  | cons first more =>
      rw [List.take_succ_cons, List.take_zero]
      refine dropsComments_singleton fun isColon => ?_
      rw [selectorFunction?, isColon] at isFunction
      exact absurd isFunction.symm (Option.some_ne_none _)

theorem dropsComments_pseudo {result : Component} {count : Nat}
    (read : pseudo rest = .ok (result, count)) : DropsComments (rest.take count) := by
  cases rest with
  | nil => cases read
  | cons first more =>
      have single (noColon : first.token ≠ .colon) : DropsComments ((first :: more).take 1) :=
        dropsComments_singleton noColon
      rw [pseudo] at read
      split at read
      · rename_i isColon
        cases more with
        | nil => cases read
        | cons second more =>
            have noColon : second.token ≠ .colon := by
              intro isColon
              rw [elementName?, isColon] at read
              cases read
            split at read
            · cases read
              refine ⟨?_, beq_eq_false_iff_ne.2 noColon⟩
              change keptComments true (first :: [second]) = []
              rw [keptComments, Bool.true_or, isColon]
              exact (dropsComments_singleton noColon).1
            · cases read
      · rename_i name isIdent
        have taken := single (by rw [isIdent]; exact Token.noConfusion)
        split at read <;> cases read <;> exact taken
      · rename_i name isFunction
        cases read
        exact single (by rw [isFunction]; exact Token.noConfusion)
      · cases read

theorem readComponent_agrees (agree : AllAgree (piece :: rest) (piece' :: rest'))
    (dark : piece.token ≠ .whitespace) (noComma : piece.token ≠ .comma) :
    TakesAlike (piece :: rest) (piece' :: rest') (readComponent piece rest)
      (readComponent piece' rest') := by
  cases agree with
  | cons agrees agree =>
  by_cases isColon : piece.token = .colon
  · have isColon' : piece'.token = .colon := agrees.token.trans isColon
    -- the comments in front of a colon and behind it are dropped, whatever follows
    have drops {component : Component} {count : Nat} (taken : DropsComments (rest.take count)) :
        TakesAlike (piece :: rest) (piece' :: rest') (.ok (component, count))
          (.ok (component, count)) := by
      obtain ⟨none, ends⟩ := taken
      have none' : keptComments true (rest'.take count) = [] := by
        have same := length_keptComments (List.forall₂_take count agree) true
        rw [none] at same
        exact List.eq_nil_of_length_eq_zero same
      refine .ok rfl (iff_of_true rfl ?_) ?_
      · rw [List.take_succ_cons, List.take_succ_cons, keptComments, keptComments, isColon, isColon']
        exact none'.trans none.symm
      · rw [List.take_succ_cons, endsInColon, isColon]
        exact ends
    have functions := selectorFunction?_agrees agree
    rw [readComponent, readComponent, if_pos isColon, if_pos isColon']
    cases function : selectorFunction? rest with
    | none =>
        rw [function, Option.map_none, Option.map_eq_none_iff] at functions
        rw [functions]
        dsimp only
        rw [pseudo_agrees agree]
        cases read : pseudo rest with
        | error fault => exact .error fault
        | ok found => exact drops (dropsComments_pseudo read)
    | some found =>
        obtain ⟨name, argument⟩ := found
        rw [function, Option.map_some, Option.map_eq_some_iff] at functions
        obtain ⟨⟨name', argument'⟩, function', same⟩ := functions
        obtain ⟨rfl, body⟩ := Prod.mk.inj same
        rw [function']
        dsimp only at body ⊢
        rw [body]
        cases readSelectors true argument.body.pieces with
        | error fault => exact .error fault
        | ok list => exact drops (dropsComments_selectorFunction function)
  · have noColon' : piece'.token ≠ .colon := by rwa [agrees.token]
    rw [readComponent_of_ne isColon, readComponent_of_ne noColon']
    exact component_agrees (.cons agrees agree) dark noComma isColon

end Components

section Lists

/-- Whether what is read is the same but for texts that are kept as they are written, and nothing but
these if `told`. -/
inductive ReadsAlike {α : Type} (bare : α → α) (told : Prop) :
    Except SelectorFault α → Except SelectorFault α → Prop
  | error (fault : SelectorFault) : ReadsAlike bare told (.error fault) (.error fault)
  | ok {value value' : α} : bare value' = bare value → (value' = value ↔ told) →
      ReadsAlike bare told (.ok value) (.ok value')

variable {pieces pieces' : List Piece}

theorem isCombinator_of_bare {component component' : Component}
    (bare : component'.bare = component.bare) :
    component'.isCombinator = component.isCombinator := by
  rw [← component'.isCombinator_bare, bare, component.isCombinator_bare]

theorem behindGap_alike {component component' : Component} (bare : component'.bare = component.bare)
    (gap? : Option Nat) (start : Nat) :
    (behindGap gap? ⟨component', start⟩).map SelectorNode.bare =
        (behindGap gap? ⟨component, start⟩).map SelectorNode.bare ∧
      (behindGap gap? ⟨component', start⟩ = behindGap gap? ⟨component, start⟩ ↔
        component' = component) := by
  have node : SelectorNode.bare ⟨component', start⟩ = SelectorNode.bare ⟨component, start⟩ :=
    congrArg (SelectorNode.mk · start) bare
  have single : [SelectorNode.mk component' start] = [⟨component, start⟩] ↔
      component' = component := by
    rw [List.singleton_inj, SelectorNode.mk.injEq, and_iff_left rfl]
  cases gap? with
  | none => exact ⟨congrArg ([·]) node, single⟩
  | some gap =>
      rw [behindGap, behindGap]
      dsimp only
      rw [isCombinator_of_bare bare]
      split
      · exact ⟨congrArg ([·]) node, single⟩
      · exact ⟨congrArg (_ :: [·]) node, (List.cons_inj_right _).trans single⟩

/-- **Nodes tell the comments that are kept with them.** -/
theorem readNodes_agrees (agree : AllAgree pieces pieces')
    (noComma : ∀ piece ∈ pieces, piece.token ≠ .comma) (behindSimple : Bool) (gap? : Option Nat) :
    ReadsAlike (List.map SelectorNode.bare) (keptComments false pieces' = keptComments false pieces)
      (readNodes behindSimple gap? pieces) (readNodes behindSimple gap? pieces') := by
  induction pieces using induct_drop generalizing behindSimple gap? pieces' with
  | nil =>
      cases agree
      rw [readNodes]
      exact .ok rfl (iff_of_true rfl rfl)
  | cons piece rest ih =>
    cases agree with
    | @cons _ piece' _ rest' agrees agree =>
        obtain ⟨isNoComma, others⟩ := List.forall_mem_cons.1 noComma
        by_cases blank : piece.token = .whitespace
        · have blank' : piece'.token = .whitespace := agrees.token.trans blank
          have behind := ih 0 agree others behindSimple
            (gap? <|> if behindSimple then some piece.start else none)
          rw [readNodes, readNodes, if_pos blank, if_pos blank', agrees.start, keptComments,
            keptComments, blank, blank']
          exact behind
        · have dark' : piece'.token ≠ .whitespace := by rwa [agrees.token]
          have first := readComponent_agrees (.cons agrees agree) blank isNoComma
          rw [readNodes_cons blank, readNodes_cons dark', agrees.start]
          generalize readComponent piece rest = found at first ⊢
          generalize readComponent piece' rest' = found' at first ⊢
          cases first with
          | error fault => exact .error fault
          | @ok component component' taken bare told ends =>
              have behind := ih taken (List.forall₂_drop taken agree)
                (fun piece member => others piece (List.mem_of_mem_drop member))
                (!component.isCombinator) none
              dsimp only
              rw [isCombinator_of_bare bare]
              generalize readNodes (!component.isCombinator) none (rest.drop taken) = later at behind ⊢
              generalize readNodes (!component.isCombinator) none (rest'.drop taken) = later' at behind ⊢
              cases behind with
              | error fault => exact .error fault
              | @ok nodes nodes' bareNodes toldNodes =>
                  obtain ⟨bareFirst, toldFirst⟩ := behindGap_alike bare gap? piece.start
                  have length := congrArg List.length bareFirst
                  rw [List.length_map, List.length_map] at length
                  refine .ok ?_ ?_
                  · rw [List.map_append, List.map_append, bareFirst, bareNodes]
                  · have kept := keptComments_append_iff
                      (List.forall₂_take (taken + 1) (.cons agrees agree)) (rest.drop taken)
                      (rest'.drop taken) false
                    rw [ends, ← told, ← toldNodes, ← toldFirst, List.take_succ_cons,
                      List.take_succ_cons, List.cons_append, List.cons_append,
                      List.take_append_drop, List.take_append_drop] at kept
                    rw [kept]
                    constructor
                    · exact fun same => List.append_inj same length
                    · rintro ⟨first, others⟩
                      rw [first, others]

theorem noComma_agrees (agree : AllAgree pieces pieces')
    (noComma : ∀ piece ∈ pieces, piece.token ≠ .comma) : ∀ piece ∈ pieces', piece.token ≠ .comma := by
  induction agree with
  | nil => exact noComma
  | cons agrees _ ih =>
      obtain ⟨first, others⟩ := List.forall_mem_cons.1 noComma
      exact List.forall_mem_cons.2 ⟨by rwa [agrees.token], ih others⟩

theorem exists_cut_agrees {segment behind : List Piece} {comma : Piece}
    (agree : AllAgree (segment ++ comma :: behind) pieces') :
    ∃ segment' comma' behind', pieces' = segment' ++ comma' :: behind' ∧
      AllAgree segment segment' ∧ Agrees comma comma' ∧ AllAgree behind behind' := by
  induction segment generalizing pieces' with
  | nil =>
      cases agree with
      | @cons _ comma' _ behind' agrees agree => exact ⟨[], comma', behind', rfl, .nil, agrees, agree⟩
  | cons piece segment ih =>
      cases agree with
      | @cons _ piece' _ _ agrees agree =>
          obtain ⟨segment', comma', behind', rfl, before, isComma, later⟩ := ih agree
          exact ⟨piece' :: segment', comma', behind', rfl, .cons agrees before, isComma, later⟩

theorem keptComments_comma {piece : Piece} (isComma : piece.token = .comma) (behindColon : Bool)
    (rest : List Piece) : keptComments behindColon (piece :: rest) = keptComments false rest := by
  rw [keptComments, isComma, Token.dropsComments, Bool.or_true]
  rfl

theorem isEmpty_alike {selector selector' : Selector}
    (bare : selector'.map SelectorNode.bare = selector.map SelectorNode.bare) :
    selector = [] ∧ selector' = [] ∨ ∃ node rest node' rest', selector = node :: rest ∧
      selector' = node' :: rest' := by
  cases selector with
  | nil => exact .inl ⟨rfl, List.map_eq_nil_iff.1 bare⟩
  | cons node rest =>
      obtain ⟨node', rest', written, _⟩ := List.map_eq_cons_iff.1 bare
      exact .inr ⟨node, rest, node', rest', rfl, written⟩

/-- **Selectors tell the comments that are kept with their nodes.** -/
theorem readSelectors_agrees (agree : AllAgree pieces pieces') (first : Bool) :
    ReadsAlike SelectorList.bare (keptComments false pieces' = keptComments false pieces)
      (readSelectors first pieces) (readSelectors first pieces') := by
  induction pieces using induct_cut generalizing first pieces' with
  | last segment noComma _ =>
      have nodes := readNodes_agrees agree noComma false none
      rw [readSelectors_of_noComma noComma,
        readSelectors_of_noComma (noComma_agrees agree noComma)]
      generalize readNodes false none segment = found at nodes ⊢
      generalize readNodes false none pieces' = found' at nodes ⊢
      cases nodes with
      | error fault => exact .error fault
      | @ok selector selector' bare told =>
          rcases isEmpty_alike bare with ⟨rfl, rfl⟩ | ⟨node, rest, node', rest', rfl, rfl⟩
          · exact .error _
          · exact .ok (congrArg ([·]) bare) (List.singleton_inj.trans told)
  | comma segment comma behind noComma isComma _ others =>
      obtain ⟨segment', comma', behind', rfl, before, agrees, later⟩ := exists_cut_agrees agree
      have isComma' : comma'.token = .comma := agrees.token.trans isComma
      have nodes := readNodes_agrees before noComma false none
      have behindComma := others later false
      rw [readSelectors_of_comma noComma isComma,
        readSelectors_of_comma (noComma_agrees before noComma) isComma']
      generalize readNodes false none segment = found at nodes ⊢
      generalize readNodes false none segment' = found' at nodes ⊢
      generalize readSelectors false behind = more at behindComma ⊢
      generalize readSelectors false behind' = more' at behindComma ⊢
      cases nodes with
      | error fault => exact .error fault
      | @ok selector selector' bare told =>
          rcases isEmpty_alike bare with ⟨rfl, rfl⟩ | ⟨node, rest, node', rest', rfl, rfl⟩
          · exact .error _
          · cases behindComma with
            | error fault => exact .error fault
            | @ok list list' bareList toldList =>
                refine .ok (congrArg₂ List.cons bare bareList) ?_
                have kept := keptComments_append_iff before (comma :: behind) (comma' :: behind')
                  false
                rw [keptComments_comma isComma, keptComments_comma isComma', ← told,
                  ← toldList] at kept
                rw [kept, List.cons.injEq]

end Lists

/-- **Comments outside all brackets leave a selector list alone, but for the texts of its nodes.**
Other texts in their place leave nodes, offsets and arguments as they are and a refusal its fault,
and nothing changes exactly if none of them stands in front of a name, a bracket or a sign that is
kept as it is written. -/
theorem ofText_respells {text text' : Text} (respells : Respells text text') :
    (ofText text').map SelectorList.bare = (ofText text).map SelectorList.bare ∧
      ∀ list, ofText text = .ok list →
        (ofText text' = .ok list ↔
          keptComments false (Forest.ofText text').pieces =
            keptComments false (Forest.ofText text).pieces) := by
  have alike := readSelectors_agrees respells.allAgree true
  rw [ofText, ofText]
  generalize readSelectors true (Forest.ofText text).pieces = read at alike ⊢
  generalize readSelectors true (Forest.ofText text').pieces = read' at alike ⊢
  cases alike with
  | error fault =>
      refine ⟨rfl, fun list accepted => ?_⟩
      cases accepted
  | @ok value value' bare told =>
      refine ⟨congrArg Except.ok bare, fun list accepted => ?_⟩
      obtain rfl := Except.ok.inj accepted
      rw [Except.ok.injEq]
      exact told

/-- A comment is respelled where a text is cut around it. -/
theorem respells_of_cut {text before after : Text} (respells : Respells text before)
    (front body body' behind : Text) (cut : before = front ++ (blockText body ++ behind))
    (cut' : after = front ++ (blockText body' ++ behind))
    (outside : ⟨.comment, Text.bytes front, blockText body⟩ ∈ (Forest.ofText before).outside)
    (apart : ¬ ['*', '/'] <:+: body ∧ ¬ ['*', '/'] <:+: body')
    (length : Text.bytes body' = Text.bytes body) : Respells text after := by
  subst cut cut'
  exact .step respells outside apart.1 apart.2 length

/-- Comments in front of a dot, a comma and a colon, and behind the colon. -/
theorem ofText_respells_dropped :
    Respells "é/*x*/.b/*, */,c:/*d*/not(e)".toList "é/*.*/.b/*é*/,c:/*)*/not(e)".toList ∧
      (ofText "é/*x*/.b/*, */,c:/*d*/not(e)".toList).toOption.isSome = true ∧
      ofText "é/*.*/.b/*é*/,c:/*)*/not(e)".toList =
        ofText "é/*x*/.b/*, */,c:/*d*/not(e)".toList := by
  have first : Respells "é/*x*/.b/*, */,c:/*d*/not(e)".toList
      "é/*.*/.b/*, */,c:/*d*/not(e)".toList :=
    respells_of_cut .refl ['é'] ['x'] ['.'] ".b/*, */,c:/*d*/not(e)".toList
      (by decide +kernel) (by decide +kernel) (by decide +kernel) (by decide) rfl
  have second : Respells "é/*x*/.b/*, */,c:/*d*/not(e)".toList
      "é/*.*/.b/*é*/,c:/*d*/not(e)".toList :=
    respells_of_cut first "é/*.*/.b".toList [',', ' '] ['é'] ",c:/*d*/not(e)".toList
      (by decide +kernel) (by decide +kernel) (by decide +kernel) (by decide) rfl
  have respells : Respells "é/*x*/.b/*, */,c:/*d*/not(e)".toList
      "é/*.*/.b/*é*/,c:/*)*/not(e)".toList :=
    respells_of_cut second "é/*.*/.b/*é*/,c:".toList ['d'] [')'] "not(e)".toList
      (by decide +kernel) (by decide +kernel) (by decide +kernel) (by decide) rfl
  have accepted : (ofText "é/*x*/.b/*, */,c:/*d*/not(e)".toList).toOption.isSome = true := by
    decide +kernel
  obtain ⟨_, told⟩ := ofText_respells respells
  refine ⟨respells, accepted, ?_⟩
  cases read : ofText "é/*x*/.b/*, */,c:/*d*/not(e)".toList with
  | error fault =>
      rw [read] at accepted
      exact Bool.noConfusion accepted
  | ok list => exact (told list read).2 (by decide +kernel)

/-- A comment in front of the name of an element is part of that name. -/
theorem ofText_ne_of_respells :
    ¬ ∀ text text', Respells text text' → ofText text' = ofText text := by
  intro always
  have respells : Respells "a/*x*/b".toList "a/*y*/b".toList :=
    respells_of_cut .refl ['a'] ['x'] ['y'] ['b'] (by decide +kernel) (by decide +kernel)
      (by decide +kernel) (by decide) rfl
  have texts := congrArg (·.toOption.map selectorListText) (always _ _ respells)
  exact absurd texts (by decide +kernel)

end SelectorList

end ScssLint
