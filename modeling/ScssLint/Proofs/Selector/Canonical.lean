import ScssLint.Proofs.Css.Passages
import ScssLint.Proofs.Selector.Places
import ScssLint.Proofs.Stylesheet.Statements

/-! # Reading back what is written

Canonical selector lists consist of compounds with single combinators between them, to any depth of
arguments (`SelectorList.IsCanonical`). What is written of such a list is read as the list, apart
from the places of its nodes (`SelectorList.exists_parse_selectorListText`).
-/

namespace ScssLint

open Css

mutual

/-- A component without the places of the nodes in its argument. -/
def Component.unplaced : Component → Component
  | .pseudoClass name argument => .pseudoClass name argument.unplaced
  | component => component

def PseudoArgument.unplaced : PseudoArgument → PseudoArgument
  | .selectors list => .selectors (unplacedSelectors list)
  | argument => argument

def SelectorNode.unplaced : SelectorNode → SelectorNode
  | ⟨component, _⟩ => ⟨component.unplaced, 0⟩

/-- Nodes without their places. -/
def unplacedNodes : List SelectorNode → List SelectorNode
  | [] => []
  | node :: rest => node.unplaced :: unplacedNodes rest

/-- A selector list without the places of its nodes. -/
def unplacedSelectors : List (List SelectorNode) → List (List SelectorNode)
  | [] => []
  | selector :: rest => unplacedNodes selector :: unplacedSelectors rest

end

/-! ### Canonical lists -/

/-- What a compound can start with. -/
inductive Component.IsHead : List Component → Prop
  | none : IsHead []
  | tag (name : Identifier) : IsHead [.tag name.text]
  | universal : IsHead [.universal]
  | nesting : IsHead [.nesting]
  | suffix (name : Identifier) {mark : Text} : mark = [] ∨ mark = ['-'] ∨ mark = ['_'] →
      IsHead [.nesting, .tag (mark ++ name.text)]

/-- What else a compound can hold, if arguments have to be `inner`. -/
inductive Component.IsSimple (inner : SelectorList → Prop) : Component → Prop
  | className (name : Identifier) : IsSimple inner (.className name.text)
  | identifier (name : Identifier) : IsSimple inner (.identifier name.text)
  | attr (name : Identifier) : IsSimple inner (.attr name.text)
  | attrValue (name value : Identifier) : IsSimple inner (.attr (name.text ++ '=' :: value.text))
  | pseudoClass (name : Identifier) : isSingleColonElement name.text = false →
      IsSimple inner (.pseudoClass name.text .absent)
  | function (name : Identifier) {list : SelectorList} : takesSelectors name.text = true →
      inner list → IsSimple inner (.pseudoClass name.text (.selectors list))
  | raw (name : Identifier) {text : Text} : takesSelectors name.text = false →
      name.text ≠ ['u', 'r', 'l'] → isBare text = true → Text.trim text = text →
      IsSimple inner (.pseudoClass name.text (.raw text))
  | pseudoElement (name : Identifier) : IsSimple inner (.pseudoElement name.text)

/-- Simple selectors without a combinator between them. -/
structure Selector.IsCompound (inner : SelectorList → Prop) (nodes : Selector) : Prop where
  written : nodes ≠ []
  parts : ∃ head tail, nodes.map (·.component) = head ++ tail ∧ Component.IsHead head ∧
    ∀ component ∈ tail, Component.IsSimple inner component

/-- Compounds with single combinators between them. -/
inductive Selector.IsCanonical (inner : SelectorList → Prop) : Selector → Prop
  | compound {nodes : Selector} : IsCompound inner nodes → IsCanonical inner nodes
  | join {first rest : Selector} {kind : Combinator} {offset : Nat} : IsCompound inner first →
      IsCanonical inner rest → IsCanonical inner (first ++ ⟨.combinator kind, offset⟩ :: rest)

/-- Whether a list is canonical and lists in arguments nest less than `depth` times in it. -/
def SelectorList.IsCanonical : Nat → SelectorList → Prop
  | 0, _ => False
  | depth + 1, list =>
      list ≠ [] ∧ ∀ selector ∈ list, Selector.IsCanonical (IsCanonical depth) selector

/-! ### Texts -/

theorem selectorText_append (first rest : Selector) :
    selectorText (first ++ rest) = selectorText first ++ selectorText rest := by
  induction first with
  | nil => rfl
  | cons node first ih =>
      rw [List.cons_append, selectorText, ih, selectorText, List.append_assoc]

theorem selectorText_singleton (component : Component) (offset : Nat) :
    selectorText [⟨component, offset⟩] = component.text := by
  rw [selectorText, selectorText, List.append_nil, SelectorNode.text]

theorem selectorListText_cons (selector next : Selector) (rest : SelectorList) :
    selectorListText (selector :: next :: rest) =
      selectorText selector ++ (',' :: ' ' :: selectorListText (next :: rest)) := by
  rw [selectorListText, furtherSelectorsText, selectorListText]
  rfl

theorem unplacedNodes_append (first rest : Selector) :
    unplacedNodes (first ++ rest) = unplacedNodes first ++ unplacedNodes rest := by
  induction first with
  | nil => rfl
  | cons node first ih => rw [List.cons_append, unplacedNodes, ih, unplacedNodes, List.cons_append]

/-- The signs in front of which a simple selector ends. -/
def endsSimple : Text → Bool
  | [] => true
  | c :: _ => ['.', '#', '[', ':', ' ', ',', ')'].contains c

theorem stopsName_of_endsSimple {rest : Text} (ends : endsSimple rest = true) :
    stopsName rest = true ∧ rest.head? ≠ some '=' := by
  cases rest with
  | nil => exact ⟨rfl, (Option.some_ne_none _).symm⟩
  | cons c rest =>
      have sign : c ∈ ['.', '#', '[', ':', ' ', ',', ')'] := List.contains_iff_mem.1 ends
      simp only [List.mem_cons, List.not_mem_nil, or_false] at sign
      rcases sign with rfl | rfl | rfl | rfl | rfl | rfl | rfl <;> exact ⟨rfl, by simp⟩

/-! ### Pieces that are read as nodes -/

namespace SelectorList

/-- Whether no name goes on with some pieces. -/
def EndsName (pieces : List Piece) : Prop :=
  ∀ piece ∈ pieces.head?, piece.token ≠ .delim '#'

/-- Whether some pieces are neither commas nor single hashes. -/
def ArePlain (pieces : List Piece) : Prop :=
  ∀ piece ∈ pieces, piece.token ≠ .comma ∧ piece.token ≠ .delim '#'

/-- What a reader of nodes knows of the pieces in front. -/
structure Front where
  behindSimple : Bool
  gap? : Option Nat

namespace Front

def read (front : Front) (pieces : List Piece) : Except SelectorFault Selector :=
  readNodes front.behindSimple front.gap? pieces

/-- The combinator that pending white space stands for. -/
def gap (front : Front) : Selector :=
  front.gap?.toList.map (⟨.combinator .descendant, ·⟩)

/-- Behind a simple selector. -/
def simple : Front := ⟨true, none⟩

/-- Behind a combinator, or in front of everything. -/
def start : Front := ⟨false, none⟩

end Front

/-- Whether some pieces are read as nodes in front of others. -/
def Yields (front : Front) (pieces : List Piece) (nodes : Selector) (front' : Front) : Prop :=
  ∀ behind, EndsName behind → front.read (pieces ++ behind) = (front'.read behind).map (nodes ++ ·)

section Yields

variable {front front' front'' : Front} {pieces later : List Piece} {nodes others : Selector}
  {piece : Piece} {component : Component}

theorem EndsName.append (plain : ArePlain pieces) (ends : EndsName later) :
    EndsName (pieces ++ later) := by
  cases pieces with
  | nil => exact ends
  | cons piece pieces =>
      intro first isFirst
      obtain rfl := Option.some.inj isFirst
      exact (plain piece List.mem_cons_self).2

theorem ArePlain.append (plain : ArePlain pieces) (plain' : ArePlain later) :
    ArePlain (pieces ++ later) :=
  List.forall_mem_append.2 ⟨plain, plain'⟩

theorem Yields.append (first : Yields front pieces nodes front')
    (second : Yields front' later others front'') (plain : ArePlain later) :
    Yields front (pieces ++ later) (nodes ++ others) front'' := by
  intro behind ends
  rw [List.append_assoc, first _ (.append plain ends), second behind ends]
  cases front''.read behind with
  | error fault => rfl
  | ok found => exact congrArg Except.ok (List.append_assoc nodes others found).symm

/-- What is read if nothing follows. -/
theorem Yields.read (yields : Yields front pieces nodes front') : front.read pieces = .ok nodes := by
  have whole := yields [] fun piece none => absurd none (Option.not_mem_none piece)
  rw [List.append_nil] at whole
  rw [whole, Front.read, readNodes]
  exact congrArg Except.ok (List.append_nil nodes)

theorem behindGap_simple (simple : component.isCombinator = false) (offset : Nat) :
    behindGap front.gap? ⟨component, offset⟩ = front.gap ++ [⟨component, offset⟩] := by
  obtain ⟨behindSimple, gap?⟩ := front
  cases gap? with
  | none => rfl
  | some gap =>
      dsimp only [behindGap]
      rw [simple]
      rfl

/-- A component in front of others. -/
theorem Front.read_cons {count : Nat} {behind : List Piece} (dark : piece.token ≠ .whitespace)
    (read : readComponent piece behind = .ok (component, count)) (front : Front) :
    front.read (piece :: behind) =
      (Front.read ⟨!component.isCombinator, none⟩ (behind.drop count)).map
        (behindGap front.gap? ⟨component, piece.start⟩ ++ ·) := by
  rw [Front.read, readNodes_cons dark, read, Front.read]
  dsimp only
  cases readNodes (!component.isCombinator) none (behind.drop count) with
  | error fault => rfl
  | ok nodes => rfl

/-- A simple selector. -/
theorem yields_component (dark : piece.token ≠ .whitespace)
    (simple : component.isCombinator = false)
    (read : ∀ behind, EndsName behind →
      readComponent piece (later ++ behind) = .ok (component, later.length)) (front : Front) :
    Yields front (piece :: later) (front.gap ++ [⟨component, piece.start⟩]) .simple := by
  intro behind ends
  rw [List.cons_append, front.read_cons dark (read behind ends), List.drop_left, simple,
    behindGap_simple simple]
  rfl

/-- White space. -/
theorem yields_space (blank : piece.token = .whitespace) (front : Front) :
    Yields front [piece] []
      ⟨front.behindSimple, front.gap? <|> if front.behindSimple then some piece.start else none⟩ := by
  intro behind _
  rw [Front.read, List.singleton_append, readNodes, if_pos blank, Front.read]
  generalize readNodes _ _ behind = result
  cases result with
  | error fault => rfl
  | ok found => rfl

/-- A combinator that is written takes the place of white space in front of it. -/
theorem yields_combinator {kind : Combinator} (dark : piece.token ≠ .whitespace)
    (read : ∀ behind, readComponent piece behind = .ok (.combinator kind, 0)) (front : Front) :
    Yields front [piece] [⟨.combinator kind, piece.start⟩] .start := by
  intro behind _
  have absorbed : behindGap front.gap? ⟨.combinator kind, piece.start⟩ =
      [⟨.combinator kind, piece.start⟩] := by
    unfold behindGap
    split
    · rfl
    · rfl
  rw [List.singleton_append, front.read_cons dark (read behind), absorbed]
  rfl

end Yields

/-! ### Texts that are read as nodes -/

/-- Whether a text is read as nodes wherever it stands in front of `rest`, with the combinator that
white space in front of it stands for. -/
def ReadsNodes (text rest : Text) (nodes : Selector) : Prop :=
  ∀ offset, ∃ pieces read, ReadsPieces offset text rest pieces ∧ ArePlain pieces ∧
    unplacedNodes read = unplacedNodes nodes ∧
    ∀ front : Front, Yields front pieces (front.gap ++ read) .simple

/-- Whether a text is read as a simple selector wherever it stands in front of `rest`. -/
def ReadsSimple (text rest : Text) (component : Component) : Prop :=
  ∀ offset, ∃ piece later read, ReadsPieces offset text rest (piece :: later) ∧
    ArePlain (piece :: later) ∧ piece.token ≠ .whitespace ∧ read.isCombinator = false ∧
    Component.unplaced read = component.unplaced ∧
    ∀ behind, EndsName behind → readComponent piece (later ++ behind) = .ok (read, later.length)

/-- Whether a text is read as selectors wherever it stands in front of `rest`. -/
def ReadsSelectors (text rest : Text) (list : SelectorList) : Prop :=
  ∀ offset, ∃ pieces read, ReadsPieces offset text rest pieces ∧
    unplacedSelectors read = unplacedSelectors list ∧ ∀ first, readSelectors first pieces = .ok read

/-- Whether what is written of a list is read as the list. -/
def ReadsBack (list : SelectorList) : Prop :=
  ∀ rest, endsSimple rest = true → ReadsSelectors (selectorListText list) rest list

section Reading

variable {text rest more : Text} {nodes others : Selector} {component : Component}

theorem ReadsSimple.readsNodes (reads : ReadsSimple text rest component) (place : Nat) :
    ReadsNodes text rest [⟨component, place⟩] := by
  intro offset
  obtain ⟨piece, later, read, readsPieces, plain, dark, simple, same, yields⟩ := reads offset
  refine ⟨_, [⟨read, piece.start⟩], readsPieces, plain, ?_, yields_component dark simple yields⟩
  simp only [unplacedNodes, SelectorNode.unplaced, same]

theorem ReadsNodes.append (first : ReadsNodes text (more ++ rest) nodes)
    (second : ReadsNodes more rest others) : ReadsNodes (text ++ more) rest (nodes ++ others) := by
  intro offset
  obtain ⟨pieces, read, readsPieces, plain, same, yields⟩ := first offset
  obtain ⟨pieces', read', readsPieces', plain', same', yields'⟩ := second (offset + Text.bytes text)
  refine ⟨_, read ++ read', readsPieces.append readsPieces', plain.append plain', ?_, fun front => ?_⟩
  · rw [unplacedNodes_append, unplacedNodes_append, same, same']
  · rw [← List.append_assoc]
    exact (yields front).append (yields' .simple) plain'

end Reading

section Components

variable (name : Identifier) {rest : Text}

theorem plain_token {token : Token} (noComma : token ≠ .comma) (noHash : token ≠ .delim '#')
    (offset : Nat) (text : Text) : ArePlain [tokenPiece token offset text] :=
  List.forall_mem_singleton.2 ⟨noComma, noHash⟩

theorem tailLength_of_endsName {behind : List Piece} (ends : EndsName behind) :
    tailLength behind = 0 := by
  cases behind with
  | nil => rfl
  | cons piece behind => exact tailLength_of_ne (ends piece rfl) behind

theorem piecesText_token (token : Token) (offset : Nat) (text : Text) :
    piecesText [tokenPiece token offset text] = text := by
  simp [piecesText, tokenPiece, Piece.text, Piece.lexemes]

/-- A simple selector that is a single token. -/
theorem readsSimple_token {token : Token} {text : Text} {component : Component}
    (cut : Lexes token text rest) (inert : token.isInert = true) (noComma : token ≠ .comma)
    (noHash : token ≠ .delim '#') (noColon : token ≠ .colon) (dark : token ≠ .whitespace)
    (simple : component.isCombinator = false)
    (read : ∀ offset behind, EndsName behind →
      SelectorList.component (tokenPiece token offset text) behind = .ok (component, 0)) :
    ReadsSimple text rest component := by
  intro offset
  refine ⟨tokenPiece token offset text, [], component, .of_isInert cut inert,
    plain_token noComma noHash _ _, dark, simple, rfl, fun behind ends => ?_⟩
  have single : (tokenPiece token offset text).token ≠ .colon := noColon
  exact (readComponent_of_ne single behind).trans (read offset behind ends)

theorem readsSimple_tag {text name : Text} (cut : Lexes (.ident name) text rest) :
    ReadsSimple text rest (.tag text) := by
  refine readsSimple_token cut rfl Token.noConfusion Token.noConfusion Token.noConfusion
    Token.noConfusion rfl fun offset behind ends => ?_
  change Except.ok (Component.tag (piecesText (_ :: behind.take (tailLength behind))),
    tailLength behind) = _
  rw [tailLength_of_endsName ends, List.take_zero, piecesText_token]

theorem readsSimple_universal (noEquals : rest.head? ≠ some '=') :
    ReadsSimple ['*'] rest .universal :=
  readsSimple_token (lexes_star noEquals) rfl Token.noConfusion (by decide) Token.noConfusion
    Token.noConfusion rfl fun _ _ _ => rfl

theorem readsSimple_nesting (rest : Text) : ReadsSimple ['&'] rest .nesting :=
  readsSimple_token (lexes_ampersand rest) rfl Token.noConfusion (by decide) Token.noConfusion
    Token.noConfusion rfl fun _ _ _ => rfl

theorem readsSimple_identifier (stops : stopsName rest = true) :
    ReadsSimple ('#' :: name.text) rest (.identifier name.text) := by
  refine readsSimple_token (lexes_idHash name stops) rfl Token.noConfusion Token.noConfusion
    Token.noConfusion Token.noConfusion rfl fun offset behind ends => ?_
  change Except.ok (Component.identifier
    ((piecesText (_ :: behind.take (tailLength behind))).drop 1), tailLength behind) = _
  rw [tailLength_of_endsName ends, List.take_zero, piecesText_token]
  rfl

/-- No digit starts an identifier. -/
theorem head_noDigit (rest : Text) : ∀ c ∈ (name.text ++ rest).head?, c.isDigit = false := by
  obtain ⟨c, tail, same, lower, _⟩ := exists_identifier name
  intro d first
  rw [same] at first
  obtain rfl := Option.some.inj first
  exact isDigit_of_isLower lower

theorem readsSimple_className (stops : stopsName rest = true) :
    ReadsSimple ('.' :: name.text) rest (.className name.text) := by
  intro offset
  have dot : ReadsPieces offset ['.'] (name.text ++ rest) _ :=
    .of_isInert (lexes_dot (head_noDigit name rest)) rfl
  have named : ReadsPieces (offset + Text.bytes ['.']) name.text rest _ :=
    .of_isInert (lexes_identifier name stops) rfl
  refine ⟨tokenPiece (.delim '.') offset ['.'], [tokenPiece (.ident name.text) _ name.text],
    .className name.text, dot.append named, ?_, Token.noConfusion, rfl, rfl, fun behind ends => ?_⟩
  · exact (plain_token Token.noConfusion (by decide) _ _).append
      (plain_token Token.noConfusion Token.noConfusion _ _)
  · have length (offset : Nat) :
        nameLength? (tokenPiece (.ident name.text) offset name.text :: behind) = some 1 :=
      congrArg (fun more => some (1 + more)) (tailLength_of_endsName ends)
    have isDot : (tokenPiece (.delim '.') offset ['.']).token = .delim '.' := rfl
    rw [List.singleton_append, readComponent_dot isDot (length _), List.take_succ_cons,
      List.take_zero, piecesText_token]
    rfl

/-- The inside of square brackets. -/
theorem withoutBrackets_append (inside : Text) :
    withoutBrackets ('[' :: (inside ++ [']'])) = inside := by
  rw [withoutBrackets, List.getLast?_concat, if_pos rfl, List.dropLast_concat]

theorem readsSimple_attr {inside : Text}
    (reads : ∀ offset, ∃ pieces, ReadsPieces offset inside (']' :: rest) pieces)
    (dark : ∀ c ∈ inside, isBlank c = false) :
    ReadsSimple ('[' :: (inside ++ [']'])) rest (.attr inside) := by
  intro offset
  obtain ⟨pieces, readsInside⟩ := reads (offset + Text.bytes ['['])
  obtain ⟨piece, readsPieces, opens, _, _, _, spelled⟩ := ReadsPieces.enclose
    (lexes_openingSquare _) (lexes_closingSquare rest) rfl rfl readsInside
  refine ⟨piece, [], .attr inside, readsPieces, ?_, ?_, rfl, rfl, fun behind _ => ?_⟩
  · refine List.forall_mem_singleton.2 ?_
    rw [opens]
    exact ⟨Token.noConfusion, Token.noConfusion⟩
  · rw [opens]
    exact Token.noConfusion
  · rw [List.nil_append, readComponent_of_ne (by rw [opens]; exact Token.noConfusion), component,
      opens]
    dsimp only
    rw [spelled]
    change Except.ok (Component.attr (Text.trim (withoutBrackets ('[' :: (inside ++ [']'])))), 0) = _
    rw [withoutBrackets_append, trim_of_dark dark]
    rfl

theorem readsSimple_attrName (rest : Text) :
    ReadsSimple ('[' :: (name.text ++ [']'])) rest (.attr name.text) :=
  readsSimple_attr (fun _ => ⟨_, .of_isInert (lexes_identifier name rfl) rfl⟩) name.dark

theorem readsSimple_attrValue (value : Identifier) (rest : Text) :
    ReadsSimple ('[' :: (name.text ++ '=' :: value.text ++ [']'])) rest
      (.attr (name.text ++ '=' :: value.text)) := by
  refine readsSimple_attr (fun offset => ?_) ?_
  · have named : ReadsPieces offset name.text (['='] ++ value.text ++ ']' :: rest) _ :=
      .of_isInert (lexes_identifier name rfl) rfl
    have sign : ReadsPieces (offset + Text.bytes name.text) ['='] (value.text ++ ']' :: rest) _ :=
      .of_isInert (lexes_equals _) rfl
    exact ⟨_, named.append (sign.append (.of_isInert (lexes_identifier value rfl) rfl))⟩
  · exact List.forall_mem_append.2 ⟨name.dark, List.forall_mem_cons.2 ⟨by simp [isBlank], value.dark⟩⟩

/-- What stands behind a single colon. -/
theorem readsSimple_pseudo {text : Text} {component : Component}
    (reads : ∀ offset, ∃ piece read, ReadsPieces offset text rest [piece] ∧
      piece.token ≠ .comma ∧ piece.token ≠ .delim '#' ∧ Component.isCombinator read = false ∧
      read.unplaced = component.unplaced ∧
      ∀ (colon : Piece) behind, colon.token = .colon →
        readComponent colon (piece :: behind) = .ok (read, 1)) :
    ReadsSimple (':' :: text) rest component := by
  intro offset
  obtain ⟨piece, read, readsPieces, noComma, noHash, simple, same, yields⟩ :=
    reads (offset + Text.bytes [':'])
  have colon : ReadsPieces offset [':'] (text ++ rest) _ := .of_isInert (lexes_colon _) rfl
  refine ⟨tokenPiece .colon offset [':'], [piece], read, colon.append readsPieces, ?_,
    Token.noConfusion, simple, same, fun behind _ => yields _ behind rfl⟩
  exact (plain_token Token.noConfusion Token.noConfusion _ _).append
    (List.forall_mem_singleton.2 ⟨noComma, noHash⟩)

theorem readsSimple_pseudoClass (single : isSingleColonElement name.text = false)
    (stops : stopsName rest = true) :
    ReadsSimple (':' :: name.text) rest (.pseudoClass name.text .absent) := by
  refine readsSimple_pseudo fun offset => ⟨tokenPiece (.ident name.text) offset name.text,
    .pseudoClass name.text .absent, .of_isInert (lexes_identifier name stops) rfl,
    Token.noConfusion, Token.noConfusion, rfl, rfl, fun colon behind isColon => ?_⟩
  rw [readComponent, if_pos isColon]
  change (if isSingleColonElement name.text then _ else _) = _
  rw [if_neg (by rw [single]; exact Bool.noConfusion)]

/-- Two colons. -/
theorem readsSimple_pseudoElement (stops : stopsName rest = true) :
    ReadsSimple (':' :: ':' :: name.text) rest (.pseudoElement name.text) := by
  intro offset
  have colon : ReadsPieces offset [':'] (':' :: name.text ++ rest) _ :=
    .of_isInert (lexes_colon _) rfl
  have second : ReadsPieces (offset + Text.bytes [':']) [':'] (name.text ++ rest) _ :=
    .of_isInert (lexes_colon _) rfl
  have named : ReadsPieces (offset + Text.bytes [':'] + Text.bytes [':']) name.text rest _ :=
    .of_isInert (lexes_identifier name stops) rfl
  refine ⟨tokenPiece .colon offset [':'], [tokenPiece .colon _ [':'], tokenPiece _ _ name.text],
    .pseudoElement name.text, colon.append (second.append named), ?_, Token.noConfusion, rfl, rfl,
    fun behind _ => rfl⟩
  have isColon (offset : Nat) : ArePlain [tokenPiece .colon offset [':']] :=
    plain_token Token.noConfusion Token.noConfusion _ _
  exact (isColon offset).append ((isColon _).append
    (plain_token Token.noConfusion Token.noConfusion _ _))

/-- A pseudo-class with its argument. -/
theorem readsSimple_function {inside : Text} {component : Component}
    (other : name.text ≠ ['u', 'r', 'l'])
    (reads : ∀ offset, ∃ pieces read, ReadsPieces offset inside (')' :: rest) pieces ∧
      Component.isCombinator read = false ∧ read.unplaced = component.unplaced ∧
      ∀ (colon piece : Piece) behind, colon.token = .colon → piece.token = .function name.text →
        piece.body.pieces = pieces → piece.body.text = inside →
        readComponent colon (piece :: behind) = .ok (read, 1)) :
    ReadsSimple (':' :: name.text ++ ('(' :: inside ++ [')'])) rest component := by
  have order : ':' :: name.text ++ ('(' :: inside ++ [')']) =
      ':' :: (name.text ++ ['('] ++ (inside ++ [')'])) := by simp
  rw [order]
  refine readsSimple_pseudo fun offset => ?_
  obtain ⟨pieces, read, readsInside, simple, same, yields⟩ :=
    reads (offset + Text.bytes (name.text ++ ['(']))
  obtain ⟨piece, readsPieces, opens, _, body, spelled, _⟩ := ReadsPieces.enclose
    (lexes_function name other _) (lexes_parenthesis rest) rfl rfl readsInside
  refine ⟨piece, read, readsPieces, ?_, ?_, simple, same,
    fun colon behind isColon => yields colon piece behind isColon opens body spelled⟩
  · rw [opens]
    exact Token.noConfusion
  · rw [opens]
    exact Token.noConfusion

/-- A pseudo-class whose argument is taken as it is. -/
theorem readsSimple_raw {inside : Text} (takes : takesSelectors name.text = false)
    (other : name.text ≠ ['u', 'r', 'l']) (bare : isBare inside = true)
    (trimmed : Text.trim inside = inside) :
    ReadsSimple (':' :: name.text ++ ('(' :: inside ++ [')'])) rest
      (.pseudoClass name.text (.raw inside)) := by
  refine readsSimple_function name other fun offset => ?_
  obtain ⟨pieces, readsInside⟩ := exists_readsPieces_bare bare offset rest
  refine ⟨pieces, .pseudoClass name.text (.raw inside), readsInside, rfl, rfl,
    fun colon piece behind isColon isFunction _ spelled => ?_⟩
  have none : selectorFunction? (piece :: behind) = none := by
    rw [selectorFunction?, isFunction]
    simp only [takes, Bool.false_eq_true, ↓reduceIte]
  rw [readComponent, if_pos isColon, none]
  dsimp only
  rw [pseudo, isFunction]
  dsimp only
  rw [spelled, trimmed]

/-- A pseudo-class whose argument is a selector list. -/
theorem readsSimple_selectors {list : SelectorList} (takes : takesSelectors name.text = true)
    (reads : ReadsSelectors (selectorListText list) (')' :: rest) list) :
    ReadsSimple (':' :: name.text ++ ('(' :: selectorListText list ++ [')'])) rest
      (.pseudoClass name.text (.selectors list)) := by
  have other : name.text ≠ ['u', 'r', 'l'] := by
    intro isUrl
    rw [isUrl] at takes
    exact absurd takes (by decide)
  refine readsSimple_function name other fun offset => ?_
  obtain ⟨pieces, read, readsPieces, same, yields⟩ := reads offset
  refine ⟨pieces, .pseudoClass name.text (.selectors read), readsPieces, rfl, ?_,
    fun colon piece behind isColon isFunction body _ => ?_⟩
  · simp only [Component.unplaced, PseudoArgument.unplaced, same]
  · have function : selectorFunction? (piece :: behind) = some (name.text, piece) := by
      rw [selectorFunction?, isFunction]
      simp only [takes, ↓reduceIte]
    rw [readComponent, if_pos isColon, function]
    dsimp only
    rw [body, yields true]

end Components

/-! ### Canonical lists are read back -/

section Canonical

variable {inner : SelectorList → Prop} {component : Component} {nodes : Selector} {rest : Text}

/-- **A simple selector is read back.** -/
theorem readsSimple_of_isSimple (isSimple : Component.IsSimple inner component)
    (back : ∀ list, inner list → ReadsBack list) (ends : endsSimple rest = true) :
    ReadsSimple component.text rest component := by
  obtain ⟨stops, _⟩ := stopsName_of_endsSimple ends
  cases isSimple with
  | className name => exact readsSimple_className name stops
  | identifier name => exact readsSimple_identifier name stops
  | attr name => exact readsSimple_attrName name rest
  | attrValue name value => exact readsSimple_attrValue name value rest
  | pseudoClass name single =>
      have reads := readsSimple_pseudoClass name single stops
      rwa [← List.append_nil (':' :: name.text)] at reads
  | function name takes isInner =>
      exact readsSimple_selectors name takes (back _ isInner (')' :: rest) rfl)
  | raw name takes other bare trimmed => exact readsSimple_raw name takes other bare trimmed
  | pseudoElement name => exact readsSimple_pseudoElement name stops

/-- In front of a simple selector another one ends. -/
theorem endsSimple_of_isSimple (isSimple : Component.IsSimple inner component) (more : Text) :
    endsSimple (component.text ++ more) = true := by
  cases isSimple <;> rfl

/-- Whether a text starts, and not with white space. -/
def StartsDark (text : Text) : Prop :=
  ∃ c tail, text = c :: tail ∧ isSpace c = false

theorem StartsDark.append {text : Text} (starts : StartsDark text) (more : Text) :
    StartsDark (text ++ more) := by
  obtain ⟨c, tail, rfl, dark⟩ := starts
  exact ⟨c, tail ++ more, rfl, dark⟩

theorem startsDark_of_isSimple (isSimple : Component.IsSimple inner component) :
    StartsDark component.text := by
  cases isSimple <;> exact ⟨_, _, rfl, rfl⟩

/-- Simple selectors one behind the other. -/
theorem readsNodes_of_forall (back : ∀ list, inner list → ReadsBack list)
    (written : nodes ≠ []) (simple : ∀ node ∈ nodes, Component.IsSimple inner node.component)
    (ends : endsSimple rest = true) : ReadsNodes (selectorText nodes) rest nodes := by
  induction nodes with
  | nil => exact absurd rfl written
  | cons node nodes ih =>
      obtain ⟨component, place⟩ := node
      obtain ⟨first, others⟩ := List.forall_mem_cons.1 simple
      have single (rest : Text) (ends : endsSimple rest = true) :
          ReadsNodes component.text rest [⟨component, place⟩] :=
        (readsSimple_of_isSimple first back ends).readsNodes place
      cases nodes with
      | nil =>
          rw [selectorText_singleton]
          exact single rest ends
      | cons next nodes =>
          have later := ih (List.cons_ne_nil _ _) others
          have follows : endsSimple (selectorText (next :: nodes) ++ rest) = true := by
            obtain ⟨isSimple, _⟩ := List.forall_mem_cons.1 others
            obtain ⟨component, place⟩ := next
            rw [selectorText, SelectorNode.text, List.append_assoc]
            exact endsSimple_of_isSimple isSimple _
          exact (single _ follows).append later

/-- The first components of a compound. -/
theorem readsNodes_of_isHead {components : List Component} (isHead : Component.IsHead components)
    (same : nodes.map (·.component) = components) (written : nodes ≠ [])
    (ends : endsSimple rest = true) : ReadsNodes (selectorText nodes) rest nodes := by
  obtain ⟨stops, noEquals⟩ := stopsName_of_endsSimple ends
  cases isHead with
  | none => exact absurd (List.map_eq_nil_iff.1 same) written
  | tag name =>
      obtain ⟨⟨_, place⟩, rfl, rfl⟩ := List.map_eq_singleton_iff.1 same
      rw [selectorText_singleton]
      exact (readsSimple_tag (lexes_identifier name stops)).readsNodes place
  | universal =>
      obtain ⟨⟨_, place⟩, rfl, rfl⟩ := List.map_eq_singleton_iff.1 same
      rw [selectorText_singleton]
      exact (readsSimple_universal noEquals).readsNodes place
  | nesting =>
      obtain ⟨⟨_, place⟩, rfl, rfl⟩ := List.map_eq_singleton_iff.1 same
      rw [selectorText_singleton]
      exact (readsSimple_nesting rest).readsNodes place
  | @suffix name mark kind =>
      obtain ⟨⟨_, place⟩, others, rfl, rfl, tail⟩ := List.map_eq_cons_iff.1 same
      obtain ⟨⟨_, place'⟩, rfl, rfl⟩ := List.map_eq_singleton_iff.1 tail
      have cut : Lexes (.ident (mark ++ name.text)) (mark ++ name.text) rest := by
        rcases kind with rfl | rfl | rfl
        · exact lexes_identifier name stops
        · exact lexes_hyphen name stops
        · exact lexes_underscore name stops
      have whole := ((readsSimple_nesting (mark ++ name.text ++ rest)).readsNodes place).append
        ((readsSimple_tag cut).readsNodes place')
      rw [selectorText, selectorText_singleton]
      exact whole

theorem startsDark_of_isHead {components : List Component} (isHead : Component.IsHead components)
    (same : nodes.map (·.component) = components) (written : nodes ≠ []) :
    StartsDark (selectorText nodes) := by
  cases isHead with
  | none => exact absurd (List.map_eq_nil_iff.1 same) written
  | tag name =>
      obtain ⟨⟨_, place⟩, rfl, rfl⟩ := List.map_eq_singleton_iff.1 same
      obtain ⟨c, tail, spelled, lower, _⟩ := exists_identifier name
      rw [selectorText_singleton]
      exact ⟨c, tail, spelled, isSpace_of_isLower lower⟩
  | universal | nesting =>
      obtain ⟨⟨_, place⟩, rfl, rfl⟩ := List.map_eq_singleton_iff.1 same
      exact ⟨_, _, rfl, rfl⟩
  | suffix name _ =>
      obtain ⟨⟨_, place⟩, others, rfl, rfl, _⟩ := List.map_eq_cons_iff.1 same
      exact ⟨_, _, rfl, rfl⟩

/-- **A compound is read back**, and white space does not start it. -/
theorem readsNodes_of_isCompound (compound : Selector.IsCompound inner nodes)
    (back : ∀ list, inner list → ReadsBack list) :
    StartsDark (selectorText nodes) ∧
      ∀ rest, endsSimple rest = true → ReadsNodes (selectorText nodes) rest nodes := by
  obtain ⟨written, head, tail, same, isHead, simple⟩ := compound
  obtain ⟨first, others, rfl, sameFirst, sameOthers⟩ := List.map_eq_append_iff.1 same
  have simple : ∀ node ∈ others, Component.IsSimple inner node.component := fun node member =>
    simple node.component (sameOthers ▸ List.mem_map_of_mem member)
  cases first with
  | nil =>
      rw [List.nil_append] at written ⊢
      refine ⟨?_, fun rest ends => readsNodes_of_forall back written simple ends⟩
      cases others with
      | nil => exact absurd rfl written
      | cons node others =>
          obtain ⟨component, place⟩ := node
          rw [selectorText, SelectorNode.text]
          exact (startsDark_of_isSimple (simple _ List.mem_cons_self)).append _
  | cons node first =>
      rw [selectorText_append]
      refine ⟨(startsDark_of_isHead isHead sameFirst (List.cons_ne_nil _ _)).append _,
        fun rest ends => ?_⟩
      cases others with
      | nil =>
          rw [List.append_nil, selectorText, List.append_nil]
          exact readsNodes_of_isHead isHead sameFirst (List.cons_ne_nil _ _) ends
      | cons next others =>
          have follows : endsSimple (selectorText (next :: others) ++ rest) = true := by
            obtain ⟨component, place⟩ := next
            rw [selectorText, SelectorNode.text, List.append_assoc]
            exact endsSimple_of_isSimple (simple _ List.mem_cons_self) _
          exact (readsNodes_of_isHead isHead sameFirst (List.cons_ne_nil _ _) follows).append
            (readsNodes_of_forall back (List.cons_ne_nil _ _) simple ends)

theorem StartsDark.not_isSpace {text : Text} (starts : StartsDark text) :
    ∀ c ∈ text.head?, isSpace c = false := by
  obtain ⟨c, tail, rfl, dark⟩ := starts
  intro d first
  obtain rfl := Option.some.inj first
  exact dark

/-- A space in front of something else. -/
theorem readsPieces_space {more : Text} (starts : StartsDark more) (offset : Nat) :
    ReadsPieces offset [' '] more [tokenPiece .whitespace offset [' ']] :=
  .of_isInert (lexes_space (List.forall_mem_singleton.2 rfl) starts.not_isSpace) rfl

theorem plain_space (offset : Nat) : ArePlain [tokenPiece .whitespace offset [' ']] :=
  plain_token Token.noConfusion Token.noConfusion _ _

/-- Whether a text is read as a combinator between simple selectors, wherever it stands in front of
`more`. White space is read as one along with what follows. -/
def ReadsCombinator (kind : Combinator) (more : Text) : Prop :=
  ∀ offset, ∃ pieces nodes front place, ReadsPieces offset kind.text more pieces ∧ ArePlain pieces ∧
    Yields .simple pieces nodes front ∧ nodes ++ front.gap = [⟨.combinator kind, place⟩]

theorem readsCombinator_descendant {more : Text} (starts : StartsDark more) :
    ReadsCombinator .descendant more := by
  intro offset
  exact ⟨_, [], ⟨true, some offset⟩, offset, readsPieces_space starts offset, plain_space offset,
    yields_space rfl .simple, rfl⟩

/-- A combinator that is written as a sign between spaces. -/
theorem readsCombinator_sign {kind : Combinator} {c : Char} {more : Text}
    (sign : c = '>' ∨ c = '+' ∨ c = '~') (text : kind.text = [' ', c, ' '])
    (read : ∀ offset behind,
      SelectorList.component (tokenPiece (.delim c) offset [c]) behind = .ok (.combinator kind, 0))
    (starts : StartsDark more) : ReadsCombinator kind more := by
  have dark : isSpace c = false ∧ c ≠ '#' := by
    rcases sign with rfl | rfl | rfl <;> decide
  have noHash : Token.delim c ≠ .delim '#' := fun same => dark.2 (Token.delim.inj same)
  have plainSign (offset : Nat) : ArePlain [tokenPiece (.delim c) offset [c]] :=
    plain_token Token.noConfusion noHash _ _
  have readSign (offset : Nat) (behind : List Piece) :
      readComponent (tokenPiece (.delim c) offset [c]) behind = .ok (.combinator kind, 0) :=
    (readComponent_of_ne Token.noConfusion behind).trans (read offset behind)
  have yieldsSign (offset : Nat) (front : Front) :
      Yields front [tokenPiece (.delim c) offset [c]] [⟨.combinator kind, offset⟩] .start :=
    yields_combinator Token.noConfusion (readSign offset) front
  intro offset
  have space : ReadsPieces offset [' '] ([c] ++ [' '] ++ more) _ :=
    readsPieces_space ⟨c, ' ' :: more, rfl, dark.1⟩ offset
  have signed : ReadsPieces (offset + Text.bytes [' ']) [c] ([' '] ++ more) _ :=
    .of_isInert (lexes_combinator sign more) rfl
  rw [text]
  exact ⟨_, _, .start, offset + Text.bytes [' '],
    space.append (signed.append (readsPieces_space starts _)),
    (plain_space _).append ((plainSign _).append (plain_space _)),
    (yields_space rfl .simple).append
      ((yieldsSign _ _).append (yields_space rfl .start) (plain_space _))
      ((plainSign _).append (plain_space _)), rfl⟩

theorem readsCombinator (kind : Combinator) {more : Text} (starts : StartsDark more) :
    ReadsCombinator kind more := by
  cases kind with
  | descendant => exact readsCombinator_descendant starts
  | child => exact readsCombinator_sign (.inl rfl) rfl (fun _ _ => rfl) starts
  | adjacentSibling => exact readsCombinator_sign (.inr (.inl rfl)) rfl (fun _ _ => rfl) starts
  | generalSibling => exact readsCombinator_sign (.inr (.inr rfl)) rfl (fun _ _ => rfl) starts

/-- Nodes with a combinator between them. -/
theorem ReadsNodes.join {text more : Text} {kind : Combinator} {others : Selector} {place : Nat}
    (first : ReadsNodes text (kind.text ++ more ++ rest) nodes) (starts : StartsDark more)
    (second : ReadsNodes more rest others) :
    ReadsNodes (text ++ (kind.text ++ more)) rest (nodes ++ ⟨.combinator kind, place⟩ :: others) := by
  intro offset
  obtain ⟨pieces, read, readsPieces, plain, same, yields⟩ := first offset
  obtain ⟨between, written, front', place', readsBetween, plain', yields', isCombinator⟩ :=
    readsCombinator kind (starts.append rest) (offset + Text.bytes text)
  obtain ⟨pieces', read', readsPieces', plain'', same', yields''⟩ :=
    second (offset + Text.bytes text + Text.bytes kind.text)
  refine ⟨_, read ++ ⟨.combinator kind, place'⟩ :: read',
    readsPieces.append (readsBetween.append readsPieces'), plain.append (plain'.append plain''), ?_,
    fun front => ?_⟩
  · simp only [unplacedNodes_append, unplacedNodes, SelectorNode.unplaced, Component.unplaced, same,
      same']
  · have whole := (yields front).append (yields'.append (yields'' front') plain'')
      (plain'.append plain'')
    rw [← List.append_assoc written, isCombinator, List.append_assoc] at whole
    exact whole

/-- **A selector is read back**, and white space does not start it. -/
theorem readsNodes_of_isCanonical {selector : Selector}
    (canonical : Selector.IsCanonical inner selector)
    (back : ∀ list, inner list → ReadsBack list) :
    StartsDark (selectorText selector) ∧
      ∀ rest, endsSimple rest = true → ReadsNodes (selectorText selector) rest selector := by
  induction canonical with
  | compound compound => exact readsNodes_of_isCompound compound back
  | @join first others kind place compound _ ih =>
      obtain ⟨starts, reads⟩ := readsNodes_of_isCompound compound back
      obtain ⟨startsOthers, readsOthers⟩ := ih
      rw [selectorText_append, selectorText, SelectorNode.text, Component.text]
      refine ⟨starts.append _, fun rest ends => ?_⟩
      have follows : endsSimple (kind.text ++ selectorText others ++ rest) = true := by
        cases kind <;> rfl
      exact (reads _ follows).join startsOthers (readsOthers rest ends)

/-- White space in front of a list does not matter. -/
theorem readSelectors_space {piece : Piece} {pieces : List Piece} {first : Bool}
    (blank : piece.token = .whitespace) :
    readSelectors first (piece :: pieces) = readSelectors first pieces := by
  have noComma {segment : List Piece} (others : ∀ piece ∈ segment, piece.token ≠ .comma) :
      ∀ found ∈ piece :: segment, found.token ≠ .comma :=
    List.forall_mem_cons.2 ⟨by rw [blank]; exact Token.noConfusion, others⟩
  have nodes (segment : List Piece) :
      readNodes false none (piece :: segment) = readNodes false none segment := by
    rw [readNodes, if_pos blank]
    rfl
  cases isCut pieces with
  | last others =>
      rw [readSelectors_of_noComma (noComma others), readSelectors_of_noComma others, nodes]
  | comma others isComma =>
      rw [← List.cons_append, readSelectors_of_comma (noComma others) isComma,
        readSelectors_of_comma others isComma, nodes]

/-- The pieces of a selector between commas. -/
theorem exists_segment_of_readsNodes {selector : Selector}
    (starts : StartsDark (selectorText selector))
    (reads : ReadsNodes (selectorText selector) rest selector) (offset : Nat) :
    ∃ pieces node later, ReadsPieces offset (selectorText selector) rest pieces ∧
      (∀ piece ∈ pieces, piece.token ≠ .comma) ∧
      readNodes false none pieces = .ok (node :: later) ∧
      unplacedNodes (node :: later) = unplacedNodes selector := by
  obtain ⟨pieces, read, readsPieces, plain, same, yields⟩ := reads offset
  have found : readNodes false none pieces = .ok read := (yields .start).read
  cases read with
  | nil =>
      cases selector with
      | nil =>
          obtain ⟨c, tail, nothing, _⟩ := starts
          exact absurd nothing.symm (List.cons_ne_nil c tail)
      | cons node later =>
          rw [unplacedNodes, unplacedNodes] at same
          exact absurd same.symm (List.cons_ne_nil _ _)
  | cons node later =>
      exact ⟨pieces, node, later, readsPieces, fun piece member => (plain piece member).1, found,
        same⟩

/-- **Selectors are read back** if each of them is, with a comma and a space between them. -/
theorem readsBack_of_forall {list : SelectorList} (written : list ≠ [])
    (selectors : ∀ selector ∈ list, StartsDark (selectorText selector) ∧
      ∀ rest, endsSimple rest = true → ReadsNodes (selectorText selector) rest selector) :
    StartsDark (selectorListText list) ∧ ReadsBack list := by
  induction list with
  | nil => exact absurd rfl written
  | cons selector list ih =>
      obtain ⟨⟨starts, reads⟩, others⟩ := List.forall_mem_cons.1 selectors
      cases list with
      | nil =>
          rw [selectorListText, furtherSelectorsText, List.append_nil]
          refine ⟨starts, fun rest ends offset => ?_⟩
          obtain ⟨pieces, node, later, readsPieces, noComma, found, same⟩ :=
            exists_segment_of_readsNodes starts (reads rest ends) offset
          rw [selectorListText, furtherSelectorsText, List.append_nil]
          refine ⟨pieces, [node :: later], readsPieces, ?_, fun first => ?_⟩
          · rw [unplacedSelectors, unplacedSelectors, unplacedSelectors, unplacedSelectors, same]
          · rw [readSelectors_of_noComma noComma, found]
      | cons next list =>
          obtain ⟨startsOthers, back⟩ := ih (List.cons_ne_nil _ _) others
          rw [selectorListText_cons]
          refine ⟨starts.append _, fun rest ends offset => ?_⟩
          rw [selectorListText_cons]
          obtain ⟨pieces, node, later, readsPieces, noComma, found, same⟩ :=
            exists_segment_of_readsNodes starts
              (reads ([','] ++ ([' '] ++ selectorListText (next :: list)) ++ rest) rfl) offset
          have comma : ReadsPieces (offset + Text.bytes (selectorText selector)) [',']
              ([' '] ++ selectorListText (next :: list) ++ rest) _ :=
            .of_isInert (lexes_comma _) rfl
          have space := readsPieces_space (startsOthers.append rest)
            (offset + Text.bytes (selectorText selector) + Text.bytes [','])
          obtain ⟨behind, read, readsBehind, sameBehind, yields⟩ := back rest ends
            (offset + Text.bytes (selectorText selector) + Text.bytes [','] + Text.bytes [' '])
          refine ⟨_, (node :: later) :: read,
            readsPieces.append (comma.append (space.append readsBehind)), ?_, fun first => ?_⟩
          · rw [unplacedSelectors, unplacedSelectors, same, sameBehind]
          · rw [List.singleton_append, List.singleton_append, readSelectors_of_comma noComma rfl,
              found]
            dsimp only
            rw [readSelectors_space rfl, yields]

/-- **Canonical lists are read back.** -/
theorem readsBack_of_isCanonical {depth : Nat} {list : SelectorList}
    (canonical : list.IsCanonical depth) : ReadsBack list := by
  induction depth generalizing list with
  | zero => exact canonical.elim
  | succ depth ih =>
      obtain ⟨written, selectors⟩ := canonical
      exact (readsBack_of_forall written fun selector member =>
        readsNodes_of_isCanonical (selectors selector member) fun _ inner => ih inner).2

end Canonical

/-- **What is written of a canonical selector list is read as the list**, apart from the places of
its nodes. -/
theorem exists_parse_selectorListText {depth : Nat} {list : SelectorList}
    (canonical : list.IsCanonical depth) :
    ∃ read, parse (selectorListText list) = .ok read ∧
      unplacedSelectors read = unplacedSelectors list := by
  obtain ⟨pieces, read, readsPieces, same, yields⟩ :=
    readsBack_of_isCanonical canonical [] rfl 0
  refine ⟨read, parse_eq_ok_iff.2 ?_, same⟩
  rw [readsPieces.ofText]
  exact yields true

/-- `.g h, *` -/
def listInside : SelectorList :=
  [[⟨.className ['g'], 0⟩] ++ ⟨.combinator .descendant, 0⟩ :: [⟨.tag ['h'], 0⟩], [⟨.universal, 0⟩]]

/-- The list above in the argument of a pseudo-class. -/
def listAround : SelectorList :=
  [[⟨.tag ['a'], 0⟩, ⟨.attr ['b', '=', 'c'], 0⟩] ++ ⟨.combinator .child, 0⟩ ::
    [⟨.nesting, 0⟩, ⟨.tag ['-', 'f'], 0⟩, ⟨.pseudoClass ['n', 'o', 't'] (.selectors listInside), 0⟩,
      ⟨.pseudoClass ['l', 'a', 'n', 'g'] (.raw "de, *-CH".toList), 0⟩]]

theorem exists_parse_selectorListText_around :
    selectorListText listAround = "a[b=c] > &-f:not(.g h, *):lang(de, *-CH)".toList ∧
      listAround.IsCanonical 2 ∧ ∃ read, parse (selectorListText listAround) = .ok read ∧
        unplacedSelectors read = unplacedSelectors listAround := by
  have inside : listInside.IsCanonical 1 := by
    refine ⟨List.cons_ne_nil _ _, List.forall_mem_cons.2 ⟨.join ?_ (.compound ?_),
      List.forall_mem_singleton.2 (.compound ?_)⟩⟩
    · exact ⟨List.cons_ne_nil _ _, [], _, rfl, .none,
        List.forall_mem_singleton.2 (.className ⟨['g'], rfl⟩)⟩
    · exact ⟨List.cons_ne_nil _ _, _, [], rfl, .tag ⟨['h'], rfl⟩, List.forall_mem_nil _⟩
    · exact ⟨List.cons_ne_nil _ _, _, [], rfl, .universal, List.forall_mem_nil _⟩
  have around : listAround.IsCanonical 2 := by
    refine ⟨List.cons_ne_nil _ _, List.forall_mem_singleton.2 (.join ?_ (.compound ?_))⟩
    · refine ⟨List.cons_ne_nil _ _, [.tag ['a']], _, rfl, .tag ⟨['a'], rfl⟩, ?_⟩
      exact List.forall_mem_singleton.2 (.attrValue ⟨['b'], rfl⟩ ⟨['c'], rfl⟩)
    · refine ⟨List.cons_ne_nil _ _, [.nesting, .tag ['-', 'f']], _, rfl,
        .suffix ⟨['f'], rfl⟩ (.inr (.inl rfl)),
        List.forall_mem_cons.2 ⟨?_, List.forall_mem_singleton.2 ?_⟩⟩
      · exact .function ⟨['n', 'o', 't'], rfl⟩ (by decide) inside
      · exact .raw ⟨['l', 'a', 'n', 'g'], rfl⟩ (by decide) (by decide) (by decide) (by decide)
  exact ⟨by decide, around, exists_parse_selectorListText around⟩

end SelectorList

end ScssLint
