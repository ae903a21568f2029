import ScssLint.Proofs.Css.Balance
import ScssLint.Proofs.Css.Parts
import ScssLint.Proofs.Css.Runs
import ScssLint.Proofs.Selector.Places

/-! # Class names with interpolations

A class name can be glued together from runs of name characters and interpolations (`GluedName`).
Behind the dot it is read as one node if each run behind an interpolation is one token, and none
follows an interpolation that starts the name (`GluedName.IsJoined`); otherwise it is not
(`GluedName.parse_iff`).
-/

namespace ScssLint

open Css

/-- A run of letters, digits, hyphens and underscores. -/
structure NameRun where
  text : Text
  plain : ∀ c ∈ text, isRunChar c = true
  written : text ≠ []

structure Interpolation where
  content : Text
  balanced : IsBalanced content

def Interpolation.text (interpolation : Interpolation) : Text :=
  '#' :: '\x7B' :: (interpolation.content ++ ['\x7D'])

/-- An interpolation with the run that follows it, if there is one. -/
structure NameLink where
  interpolation : Interpolation
  run? : Option NameRun

namespace NameLink

/-- The text of a run that may be missing. -/
def runText (run? : Option NameRun) : Text :=
  run?.elim [] NameRun.text

def text (link : NameLink) : Text :=
  link.interpolation.text ++ runText link.run?

/-- The text of some links. -/
def joined (links : List NameLink) : Text :=
  links.flatMap text

/-- Whether each run is one token. -/
def AreWords (links : List NameLink) : Prop :=
  ∀ link ∈ links, ∀ run ∈ link.run?, isWord run.text = true

end NameLink

/-- Runs and interpolations that are glued together, no run to another: perhaps a run, which starts
as an identifier, and then interpolations with or without a run behind each of them. -/
structure GluedName where
  first? : Option NameRun
  links : List NameLink
  starts : ∀ run ∈ first?, startsIdent run.text = true
  written : first? ≠ none ∨ links ≠ []

namespace GluedName

def text (name : GluedName) : Text :=
  NameLink.runText name.first? ++ NameLink.joined name.links

/-- Whether no run follows an interpolation that starts the name, and each run behind another one is
one token. -/
structure IsJoined (name : GluedName) : Prop where
  starts : name.first? = none → ∀ link ∈ name.links.head?, link.run? = none
  words : NameLink.AreWords name.links

end GluedName

namespace NameLink

@[simp] theorem joined_nil : joined [] = [] := rfl

@[simp] theorem joined_cons (link : NameLink) (links : List NameLink) :
    joined (link :: links) = link.text ++ joined links := rfl

theorem joined_bare (interpolation : Interpolation) (links : List NameLink) :
    joined (⟨interpolation, none⟩ :: links) = interpolation.text ++ joined links := by
  simp [text, runText]

theorem joined_run (interpolation : Interpolation) (run : NameRun) (links : List NameLink) :
    joined (⟨interpolation, some run⟩ :: links) =
      interpolation.text ++ (run.text ++ joined links) := by
  simp [text, runText]

theorem head?_joined (links : List NameLink) : ∀ c ∈ (joined links).head?, c = '#' := by
  cases links with
  | nil => exact fun _ first => absurd first (Option.not_mem_none _)
  | cons link links => exact fun _ first => (Option.some.inj first).symm

/-- Whether two pieces are those of an interpolation. -/
structure IsSlot (interpolation : Interpolation) (hash block : Piece) : Prop where
  sign : hash.token = .delim '#'
  opens : block.token = .opening .curly
  text : hash.text ++ block.text = interpolation.text

/-- The pieces as which links are read. Behind a run that is not one token it does not matter what
follows. -/
inductive AreRead : List NameLink → List Piece → Prop
  | done : AreRead [] []
  | bare {interpolation : Interpolation} {hash block : Piece} {links : List NameLink}
      {pieces : List Piece} : IsSlot interpolation hash block → AreRead links pieces →
      AreRead (⟨interpolation, none⟩ :: links) (hash :: block :: pieces)
  | word {interpolation : Interpolation} {run : NameRun} {hash block piece : Piece}
      {links : List NameLink} {pieces : List Piece} : IsSlot interpolation hash block →
      isWord run.text = true → SelectorList.carriesOnName piece = true → piece.text = run.text →
      AreRead links pieces →
      AreRead (⟨interpolation, some run⟩ :: links) (hash :: block :: piece :: pieces)
  | hyphen {interpolation : Interpolation} {run : NameRun} {hash block piece : Piece}
      {links : List NameLink} {pieces : List Piece} : IsSlot interpolation hash block →
      isWord run.text = false → piece.token = .delim '-' →
      AreRead (⟨interpolation, some run⟩ :: links) (hash :: block :: piece :: pieces)
  | number {interpolation : Interpolation} {run : NameRun} {hash block number next : Piece}
      {unit : Text} {links : List NameLink} {pieces : List Piece} :
      IsSlot interpolation hash block → isWord run.text = false → number.token = .number →
      number.text ++ unit = run.text → unit ≠ [] → next.token ≠ .delim '#' →
      AreRead (⟨interpolation, some run⟩ :: links) (hash :: block :: number :: next :: pieces)

/-- The pieces of a text from `offset` on. -/
def piecesFrom (offset : Nat) (text : Text) : List Piece :=
  (Forest.ofLexemes (lexemesFrom offset text)).pieces

theorem pieces_cons {lexeme : Lexeme} (opensNone : lexeme.token.opens? = none)
    (noComment : lexeme.token ≠ .comment) (later : List Lexeme) :
    (Forest.ofLexemes (lexeme :: later)).pieces =
      ⟨[], lexeme, none⟩ :: (Forest.ofLexemes later).pieces := by
  rw [Forest.ofLexemes_leaf opensNone]
  exact Forest.piecesBehind_leaf noComment

theorem piecesFrom_lexeme {offset : Nat} {text : Text} {lexeme : Lexeme} {later : List Lexeme}
    (reads : lexemesFrom offset text = lexeme :: later) (opensNone : lexeme.token.opens? = none)
    (noComment : lexeme.token ≠ .comment) :
    piecesFrom offset text = ⟨[], lexeme, none⟩ :: (Forest.ofLexemes later).pieces := by
  rw [piecesFrom, reads, pieces_cons opensNone noComment]

theorem text_leaf (lexeme : Lexeme) : (Piece.mk [] lexeme none).text = lexeme.text :=
  List.append_nil _

/-- **Links are read so.** -/
theorem areRead (links : List NameLink) (offset : Nat) :
    AreRead links (piecesFrom offset (joined links)) := by
  induction links generalizing offset with
  | nil =>
      rw [piecesFrom, joined_nil, lexemesFrom]
      exact .done
  | cons link links ih =>
      obtain ⟨interpolation, run?⟩ := link
      have order : joined (⟨interpolation, run?⟩ :: links) =
          '#' :: '\x7B' :: (interpolation.content ++ '\x7D' :: (runText run? ++ joined links)) := by
        simp [text, Interpolation.text]
      obtain ⟨hash, block, cut, sign, hashText, opens, blockText⟩ := pieces_interpolation
        interpolation.balanced offset (runText run? ++ joined links)
      have slot : IsSlot interpolation hash block := by
        refine ⟨sign, opens, ?_⟩
        rw [hashText, blockText]
        rfl
      rw [order, piecesFrom, cut]
      cases run? with
      | none => exact .bare slot (ih _)
      | some run =>
          have ends := head?_joined links
          cases word : isWord run.text with
          | true =>
              obtain ⟨token, lexes, kind⟩ := lexes_word ends run.plain run.written word
              have single := piecesFrom_lexeme (lexes (offset + Text.bytes interpolation.content + 3))
                (by rcases kind with ⟨_, rfl⟩ | rfl | rfl <;> rfl)
                (by rcases kind with ⟨_, rfl⟩ | rfl | rfl <;> exact fun same => Token.noConfusion same)
              rw [← piecesFrom, runText, Option.elim_some, single]
              refine .word slot word ?_ (text_leaf _) (ih _)
              rcases kind with ⟨_, rfl⟩ | rfl | rfl <;> rfl
          | false =>
              rcases lexemesFrom_broken ends run.plain run.written word
                (offset + Text.bytes interpolation.content + 3) with
                ⟨later, reads⟩ | ⟨number, unit, next, later, whole, left, reads, starts⟩
              · rw [← piecesFrom, runText, Option.elim_some,
                  piecesFrom_lexeme reads rfl fun same => Token.noConfusion same]
                exact .hyphen slot word rfl
              · rw [← piecesFrom, runText, Option.elim_some,
                  piecesFrom_lexeme reads rfl (fun same => Token.noConfusion same),
                  pieces_cons (Token.opens?_of_startsRun starts)
                    (Token.ne_comment_of_startsRun starts)]
                refine .number slot word ?_ ?_ left ?_
                · rfl
                · rw [text_leaf, whole]
                · exact Token.ne_hash_of_startsRun starts

open SelectorList (carriesOnName isDelim isCurlyBlock nameLength? tailLength tailLength_of_ne)

section Tails

variable {interpolation : Interpolation} {hash block piece : Piece} {links : List NameLink}
  {pieces : List Piece}

theorem carriesOnName_of_hash (sign : piece.token = .delim '#') : carriesOnName piece = false := by
  rw [carriesOnName, sign]

/-- What a piece behind an interpolation adds to the name. -/
theorem tailLength_slot (slot : IsSlot interpolation hash block) (pieces : List Piece) :
    tailLength (hash :: block :: pieces) =
      if pieces.head?.any carriesOnName then 3 + tailLength pieces.tail
      else 2 + tailLength pieces := by
  have sign : isDelim '#' hash = true := by
    rw [isDelim, slot.sign]
    rfl
  have opens : isCurlyBlock block = true := by
    rw [isCurlyBlock, slot.opens]
    rfl
  cases pieces with
  | nil => simp only [tailLength, sign, opens, Bool.and_self, ↓reduceIte]; rfl
  | cons piece pieces => simp only [tailLength, sign, opens, Bool.and_self, ↓reduceIte]; rfl

theorem AreRead.head_not_carried (read : AreRead links pieces) :
    pieces.head?.any carriesOnName = false := by
  cases read with
  | done => rfl
  | bare slot _ | word slot _ _ _ _ | hyphen slot _ _ | number slot _ _ _ _ _ =>
      exact carriesOnName_of_hash slot.sign

theorem piecesText_nil : piecesText [] = [] := rfl

theorem piecesText_cons (piece : Piece) (pieces : List Piece) :
    piecesText (piece :: pieces) = piece.text ++ piecesText pieces := rfl

theorem piecesText_slot (slot : IsSlot interpolation hash block) (pieces : List Piece) :
    piecesText (hash :: block :: pieces) = interpolation.text ++ piecesText pieces := by
  rw [piecesText_cons, piecesText_cons, ← List.append_assoc, slot.text]

theorem areWords_cons {link : NameLink} :
    AreWords (link :: links) ↔ (∀ run ∈ link.run?, isWord run.text = true) ∧ AreWords links :=
  List.forall_mem_cons

theorem not_isComma_of_slot (slot : IsSlot interpolation hash block)
    (others : ∀ piece ∈ pieces, piece.token ≠ .comma) :
    ∀ piece ∈ hash :: block :: pieces, piece.token ≠ .comma := by
  refine List.forall_mem_cons.2 ⟨?_, List.forall_mem_cons.2 ⟨?_, others⟩⟩
  · rw [slot.sign]
    exact fun same => Token.noConfusion same
  · rw [slot.opens]
    exact fun same => Token.noConfusion same

/-- **Where each run is one token, a name takes all the links.** -/
theorem AreRead.whole (read : AreRead links pieces) (words : AreWords links) :
    tailLength pieces = pieces.length ∧ piecesText pieces = joined links ∧
      ∀ piece ∈ pieces, piece.token ≠ .comma := by
  induction read with
  | done => exact ⟨rfl, rfl, List.forall_mem_nil _⟩
  | bare slot read ih =>
      obtain ⟨length, text, noComma⟩ := ih (areWords_cons.1 words).2
      refine ⟨?_, ?_, not_isComma_of_slot slot noComma⟩
      · rw [tailLength_slot slot, read.head_not_carried, if_neg Bool.false_ne_true, length,
          List.length_cons, List.length_cons]
        omega
      · rw [piecesText_slot slot, text, joined_bare]
  | @word _ _ _ _ piece _ _ slot word carries same read ih =>
      obtain ⟨length, text, noComma⟩ := ih (areWords_cons.1 words).2
      refine ⟨?_, ?_, not_isComma_of_slot slot (List.forall_mem_cons.2 ⟨?_, noComma⟩)⟩
      · rw [tailLength_slot slot, List.head?_cons, Option.any_some, if_pos carries, List.tail_cons,
          length, List.length_cons, List.length_cons, List.length_cons]
        omega
      · rw [piecesText_slot slot, piecesText_cons, text, same, joined_run]
      · intro isComma
        rw [carriesOnName, isComma] at carries
        exact Bool.noConfusion carries
  | hyphen _ broken _ | number _ broken _ _ _ _ =>
      rw [(areWords_cons.1 words).1 _ rfl] at broken
      exact Bool.noConfusion broken

/-- **Otherwise something is left of them.** -/
theorem AreRead.left (read : AreRead links pieces) (broken : ¬ AreWords links) :
    ∃ behind, piecesText (pieces.take (tailLength pieces)) ++ behind = joined links ∧
      behind ≠ [] := by
  induction read with
  | done => exact absurd (List.forall_mem_nil _) broken
  | bare slot read ih =>
      obtain ⟨behind, text, left⟩ :=
        ih fun words => broken (areWords_cons.2 ⟨fun _ none => absurd none (Option.not_mem_none _), words⟩)
      refine ⟨behind, ?_, left⟩
      rw [tailLength_slot slot, read.head_not_carried, if_neg Bool.false_ne_true, Nat.add_comm,
        List.take_succ_cons, List.take_succ_cons, piecesText_slot slot, List.append_assoc, text,
        joined_bare]
  | @word _ run _ _ piece _ _ slot word carries same read ih =>
      obtain ⟨behind, text, left⟩ := ih fun words => broken (areWords_cons.2
        ⟨fun run' member => by rw [← Option.some.inj member]; exact word, words⟩)
      refine ⟨behind, ?_, left⟩
      rw [tailLength_slot slot, List.head?_cons, Option.any_some, if_pos carries, List.tail_cons,
        Nat.add_comm, List.take_succ_cons, List.take_succ_cons, List.take_succ_cons,
        piecesText_slot slot, piecesText_cons, List.append_assoc, List.append_assoc, text, same,
        joined_run]
  | @hyphen _ run _ _ piece links pieces slot _ isHyphen =>
      have noName : carriesOnName piece = false := by
        rw [carriesOnName, isHyphen]
      have noSign : piece.token ≠ .delim '#' := by
        rw [isHyphen]
        decide
      refine ⟨run.text ++ joined links, ?_, List.append_ne_nil_of_left_ne_nil run.written _⟩
      rw [tailLength_slot slot, List.head?_cons, Option.any_some, noName, if_neg Bool.false_ne_true,
        tailLength_of_ne noSign, joined_run]
      change piecesText [_, _] ++ _ = _
      rw [piecesText_slot slot, piecesText_nil, List.append_nil]
  | @number _ run _ _ number next unit links pieces slot _ isNumber whole more other =>
      have named : carriesOnName number = true := by
        rw [carriesOnName, isNumber]
      refine ⟨unit ++ joined links, ?_, List.append_ne_nil_of_left_ne_nil more _⟩
      rw [tailLength_slot slot, List.head?_cons, Option.any_some, if_pos named, List.tail_cons,
        tailLength_of_ne other, joined_run, ← whole]
      change piecesText [_, _, number] ++ _ = _
      rw [piecesText_slot slot, piecesText_cons, piecesText_nil, List.append_nil, List.append_assoc,
        List.append_assoc]

/-- How links start. A run behind the first interpolation starts with no sign of another one. -/
theorem AreRead.start {link : NameLink} (read : AreRead (link :: links) pieces) :
    ∃ hash block more, pieces = hash :: block :: more ∧ IsSlot link.interpolation hash block ∧
      (link.run? = none → AreRead links more) ∧ (link.run? ≠ none → tailLength more = 0) := by
  cases read with
  | bare slot read => exact ⟨_, _, _, rfl, slot, fun _ => read, fun some => absurd rfl some⟩
  | word slot _ carries _ _ =>
      refine ⟨_, _, _, rfl, slot, fun none => absurd none (Option.some_ne_none _), fun _ => tailLength_of_ne ?_ _⟩
      intro sign
      rw [carriesOnName_of_hash sign] at carries
      exact Bool.noConfusion carries
  | hyphen slot _ isHyphen =>
      refine ⟨_, _, _, rfl, slot, fun none => absurd none (Option.some_ne_none _), fun _ => tailLength_of_ne ?_ _⟩
      rw [isHyphen]
      decide
  | number slot _ isNumber _ _ _ =>
      refine ⟨_, _, _, rfl, slot, fun none => absurd none (Option.some_ne_none _), fun _ => tailLength_of_ne ?_ _⟩
      rw [isNumber]
      exact fun same => Token.noConfusion same

theorem nameLength?_slot (slot : IsSlot interpolation hash block) (pieces : List Piece) :
    nameLength? (hash :: block :: pieces) = some (2 + tailLength pieces) := by
  have opens : isCurlyBlock block = true := by
    rw [isCurlyBlock, slot.opens]
    rfl
  rw [nameLength?, slot.sign]
  simp only [opens, ↓reduceIte]

end Tails

end NameLink

namespace SelectorList

theorem readSelectors_ne_nil {first : Bool} {pieces : List Piece} :
    readSelectors first pieces ≠ .ok [] := by
  intro read
  obtain ⟨_, selector, others, same, _⟩ := exists_first read
  exact absurd same.symm (List.cons_ne_nil selector others)

/-- A single selector is read from all the pieces. -/
theorem readNodes_of_readSelectors {first : Bool} {pieces : List Piece} {selector : Selector}
    (read : readSelectors first pieces = .ok [selector]) :
    readNodes false none pieces = .ok selector := by
  obtain ⟨segment, found, others, same, _, readFirst, ends⟩ := exists_first read
  obtain ⟨rfl, rfl⟩ := List.cons.inj same
  rcases ends with ⟨rfl, _⟩ | ⟨_, behind, _, readOthers⟩
  · exact readFirst
  · exact absurd readOthers readSelectors_ne_nil

/-- Without a comma there is one selector. -/
theorem readSelectors_singleton {first : Bool} {pieces : List Piece} {node : SelectorNode}
    {nodes : Selector} (noComma : ∀ piece ∈ pieces, piece.token ≠ .comma)
    (read : readNodes false none pieces = .ok (node :: nodes)) :
    readSelectors first pieces = .ok [node :: nodes] := by
  rw [readSelectors_of_noComma noComma, read]

/-- What is read behind a dot. -/
theorem readNodes_dot {dot : Piece} (isDot : dot.token = .delim '.') {pieces : List Piece}
    {count : Nat} (named : nameLength? pieces = some count) :
    readNodes false none (dot :: pieces) =
      match readNodes true none (pieces.drop count) with
      | .error fault => .error fault
      | .ok nodes =>
          .ok (⟨.className (piecesText (pieces.take count)), dot.start⟩ :: nodes) := by
  rw [readNodes_cons (by rw [isDot]; exact fun same => Token.noConfusion same),
    readComponent_dot isDot named]
  rfl

end SelectorList

namespace GluedName

open NameLink

open SelectorList (nameLength?)

/-- The pieces of a name that starts with a run. -/
theorem piecesFrom_run (run : NameRun) (starts : startsIdent run.text = true)
    (links : List NameLink) (offset : Nat) :
    piecesFrom offset (run.text ++ joined links) =
      ⟨[], ⟨.ident run.text, offset, run.text⟩, none⟩ ::
        piecesFrom (offset + Text.bytes run.text) (joined links) :=
  piecesFrom_lexeme (lexes_run (head?_joined links) run.plain starts offset) rfl
    fun same => Token.noConfusion same

/-- **A joined name is read to its end.** -/
theorem IsJoined.whole {name : GluedName} (isJoined : name.IsJoined) (offset : Nat) :
    nameLength? (piecesFrom offset name.text) = some (piecesFrom offset name.text).length ∧
      piecesText (piecesFrom offset name.text) = name.text ∧
      ∀ piece ∈ piecesFrom offset name.text, piece.token ≠ .comma := by
  obtain ⟨first?, links, starts, written⟩ := name
  obtain ⟨noRun, words⟩ := isJoined
  cases first? with
  | some run =>
      obtain ⟨length, text, noComma⟩ := (areRead links (offset + Text.bytes run.text)).whole words
      have spelled : GluedName.text ⟨some run, links, starts, written⟩ =
          run.text ++ joined links := rfl
      rw [spelled, piecesFrom_run run (starts run rfl) links offset]
      refine ⟨?_, ?_, List.forall_mem_cons.2 ⟨fun same => Token.noConfusion same, noComma⟩⟩
      · rw [List.length_cons, ← length, Nat.add_comm _ 1]
        rfl
      · rw [piecesText_cons, text_leaf, text]
  | none =>
      cases links with
      | nil => exact absurd rfl (written.resolve_left (not_not_intro rfl))
      | cons link links =>
          have read := areRead (link :: links) offset
          obtain ⟨_, text, noComma⟩ := read.whole words
          obtain ⟨hash, block, more, same, slot, bare, _⟩ := read.start
          have length := ((bare (noRun rfl link rfl)).whole (areWords_cons.1 words).2).1
          have spelled : GluedName.text ⟨none, link :: links, starts, written⟩ =
              joined (link :: links) := rfl
          rw [spelled]
          refine ⟨?_, text, noComma⟩
          rw [same, nameLength?_slot slot, length, List.length_cons, List.length_cons]
          congr 1
          omega

/-- **Of any other name a part is left.** -/
theorem exists_left {name : GluedName} (apart : ¬ name.IsJoined) (offset : Nat) :
    ∃ count behind, nameLength? (piecesFrom offset name.text) = some count ∧
      piecesText ((piecesFrom offset name.text).take count) ++ behind = name.text ∧
      behind ≠ [] := by
  obtain ⟨first?, links, starts, written⟩ := name
  cases first? with
  | some run =>
      have broken : ¬ AreWords links := fun words => apart ⟨fun none => absurd none (Option.some_ne_none _), words⟩
      obtain ⟨behind, text, left⟩ := (areRead links (offset + Text.bytes run.text)).left broken
      have spelled : GluedName.text ⟨some run, links, starts, written⟩ =
          run.text ++ joined links := rfl
      rw [spelled, piecesFrom_run run (starts run rfl) links offset]
      refine ⟨_, behind, rfl, ?_, left⟩
      rw [Nat.add_comm, List.take_succ_cons, piecesText_cons, text_leaf, List.append_assoc, text]
  | none =>
      cases links with
      | nil => exact absurd rfl (written.resolve_left (not_not_intro rfl))
      | cons link links =>
          obtain ⟨hash, block, more, same, slot, bare, noTail⟩ :=
            (areRead (link :: links) offset).start
          have spelled : GluedName.text ⟨none, link :: links, starts, written⟩ =
              joined (link :: links) := rfl
          rw [spelled, same]
          obtain ⟨interpolation, run?⟩ := link
          cases run? with
          | none =>
              have broken : ¬ AreWords links := fun words => apart
                ⟨fun _ link first => by rw [← Option.some.inj first],
                  areWords_cons.2 ⟨fun _ none => absurd none (Option.not_mem_none _), words⟩⟩
              obtain ⟨behind, text, left⟩ := (bare rfl).left broken
              refine ⟨_, behind, nameLength?_slot slot more, ?_, left⟩
              rw [Nat.add_comm, List.take_succ_cons, List.take_succ_cons, piecesText_slot slot,
                List.append_assoc, text, joined_bare]
          | some run =>
              refine ⟨_, run.text ++ joined links, nameLength?_slot slot more, ?_,
                List.append_ne_nil_of_left_ne_nil run.written _⟩
              rw [noTail (Option.some_ne_none _), joined_run]
              change piecesText [_, _] ++ _ = _
              rw [piecesText_slot slot, piecesText_nil, List.append_nil]

theorem head?_text (name : GluedName) : ∀ c ∈ name.text.head?, c.isDigit = false := by
  obtain ⟨first?, links, starts, written⟩ := name
  intro c first
  cases first? with
  | none =>
      rw [head?_joined links c first]
      rfl
  | some run =>
      have ident := starts run rfl
      obtain ⟨text, plain, _⟩ := run
      cases text with
      | nil => exact Bool.noConfusion ident
      | cons d tail =>
          obtain rfl : d = c := Option.some.inj first
          have noNumber : ¬ StartsNumber d (tail ++ []) :=
            not_startsNumber_of_startsIdent plain ident
          apply Bool.eq_false_iff.2
          intro digit
          exact noNumber (.inl digit)

theorem pieces_dot (name : GluedName) :
    (Forest.ofText ('.' :: name.text)).pieces =
      ⟨[], ⟨.delim '.', 0, ['.']⟩, none⟩ :: piecesFrom 1 name.text :=
  piecesFrom_lexeme (lexes_dot name.head?_text 0) rfl fun same => Token.noConfusion same

/-- **A class name with interpolations is one node if and only if it is joined.** -/
theorem parse_iff (name : GluedName) :
    SelectorList.parse ('.' :: name.text) = .ok [[⟨.className name.text, 0⟩]] ↔ name.IsJoined := by
  rw [SelectorList.parse_eq_ok_iff, pieces_dot]
  constructor
  · intro read
    apply Classical.byContradiction
    intro apart
    obtain ⟨count, behind, named, whole, left⟩ := exists_left apart 1
    have node := SelectorList.readNodes_of_readSelectors read
    rw [SelectorList.readNodes_dot rfl named] at node
    split at node
    · cases node
    · have same := (List.cons.inj (Except.ok.inj node)).1
      injection same with same _
      injection same with same
      rw [same] at whole
      exact left (List.append_right_eq_self.1 whole)
  · intro isJoined
    obtain ⟨named, text, noComma⟩ := isJoined.whole 1
    refine SelectorList.readSelectors_singleton
      (List.forall_mem_cons.2 ⟨fun same => Token.noConfusion same, noComma⟩) ?_
    rw [SelectorList.readNodes_dot rfl named, List.drop_length, List.take_length, text,
      SelectorList.readNodes]
    rfl

/-- The name `a`, an interpolation, a hyphen and another interpolation. -/
def hyphenated : GluedName where
  first? := some ⟨['a'], List.forall_mem_singleton.2 rfl, List.cons_ne_nil _ _⟩
  links := [⟨⟨['$', 'b'], by decide +kernel⟩,
      some ⟨['-'], List.forall_mem_singleton.2 rfl, List.cons_ne_nil _ _⟩⟩,
    ⟨⟨['$', 'c'], by decide +kernel⟩, none⟩]
  starts := by
    rintro run first
    obtain rfl := Option.some.inj first
    rfl
  written := .inl (Option.some_ne_none _)

/-- Not every class name with interpolations is one node: the hyphen ends this one. -/
theorem parse_ne_hyphenated :
    ¬ ∀ name : GluedName,
      SelectorList.parse ('.' :: name.text) = .ok [[⟨.className name.text, 0⟩]] := by
  intro always
  have kinds : (SelectorList.parse ('.' :: hyphenated.text)).toOption.map
      (·.map (·.map SelectorNode.kind)) = some [[.className, .other, .other]] := by
    decide +kernel
  rw [always hyphenated] at kinds
  exact absurd kinds (by decide)

end GluedName

end ScssLint
