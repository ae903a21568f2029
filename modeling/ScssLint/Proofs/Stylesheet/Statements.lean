import ScssLint.Proofs.Stylesheet.Cutting
import ScssLint.Proofs.Text.Searching

/-! # Reading single statements

A statement without a block and the header of a block are read back from their parts, whatever white
space stands behind them and whatever follows (`Line.exists_outline`, `Header.exists_outline`).
-/

namespace ScssLint

open Css

section Characters

theorem isBlank_of_isIdentifierChar {c : Char} (inside : isIdentifierChar c = true) :
    isBlank c = false := by
  have range : 45 ≤ c.toNat ∧ c.toNat ≤ 122 := by
    simp only [isIdentifierChar, Bool.or_eq_true, beq_iff_eq] at inside
    rcases inside with ((lower | digit) | rfl) | rfl
    · have bounds := toNat_of_isLower lower
      omega
    · have bounds := toNat_of_isDigit digit
      omega
    · decide
    · decide
  simp [isBlank]
  omega

namespace Identifier

variable (name : Identifier)

theorem ne_nil : name.text ≠ [] := by
  obtain ⟨c, tail, same, _, _⟩ := exists_identifier name
  rw [same]
  exact List.cons_ne_nil c tail

theorem isIdentifierChar_of_mem : ∀ c ∈ name.text, isIdentifierChar c = true := by
  obtain ⟨text, sound⟩ := name
  cases text with
  | nil => exact Bool.noConfusion sound
  | cons c tail =>
      rw [isIdentifier, Bool.and_eq_true, List.all_eq_true] at sound
      intro d member
      rcases List.mem_cons.1 member with rfl | later
      · simp [isIdentifierChar, sound.1]
      · exact sound.2 d later

theorem dark : ∀ c ∈ name.text, isBlank c = false :=
  fun c member => isBlank_of_isIdentifierChar (name.isIdentifierChar_of_mem c member)

theorem noColon : ':' ∉ name.text := by
  intro member
  exact absurd (name.isIdentifierChar_of_mem ':' member) (by decide)

end Identifier

theorem dark_slot (slot? : Option Identifier) :
    ∀ c ∈ slot?.elim [] slotText, isBlank c = false := by
  cases slot? with
  | none => exact fun c member => absurd member List.not_mem_nil
  | some name =>
      have opening : ∀ c ∈ ['#', '\x7B', '$'], isBlank c = false := by simp [isBlank]
      have closing : ∀ c ∈ ['\x7D'], isBlank c = false := List.forall_mem_singleton.2 rfl
      exact List.forall_mem_append.2 ⟨List.forall_mem_append.2 ⟨opening, name.dark⟩, closing⟩

theorem noColon_slot (slot? : Option Identifier) : ':' ∉ slot?.elim [] slotText := by
  cases slot? with
  | none => exact List.not_mem_nil
  | some name =>
      have inside := name.noColon
      simp [slotText, inside]

theorem Word.dark (word : Word) : ∀ c ∈ word.text, isBlank c = false :=
  List.forall_mem_append.2 ⟨word.name.dark, dark_slot word.slot?⟩

theorem Words.isTight (words : Words) : IsTight isBlank words.text := by
  have others (words : List Word) :
      IsTight isBlank (words.flatMap fun word => ' ' :: word.text) := by
    induction words with
    | nil => exact .of_forall fun c member => absurd member List.not_mem_nil
    | cons word words ih =>
        have more : word.text ≠ [] := List.append_ne_nil_of_left_ne_nil word.name.ne_nil _
        exact .append (.cons more (.of_forall word.dark)) ih
  exact .append (.of_forall words.first.dark) (others words.others)

theorem trim_of_isTight {c : Char} {rest : Text} (dark : isBlank c = false)
    (tight : IsTight isBlank (c :: rest)) : Text.trim (c :: rest) = c :: rest := by
  have kept : ((c :: rest ++ []).reverse.dropWhile isBlank).reverse = c :: rest :=
    tight.dropBlanks (by simp)
  rw [List.append_nil] at kept
  rw [Text.trim, List.dropWhile_cons_of_neg (by simp [dark])]
  exact kept

theorem trim_of_dark {text : Text} (dark : ∀ c ∈ text, isBlank c = false) :
    Text.trim text = text := by
  cases text with
  | nil => rfl
  | cons c rest => exact trim_of_isTight (dark c List.mem_cons_self) (.of_forall dark)

/-- Words are trimmed to themselves, also with a space in front. -/
theorem Words.trim (words : Words) :
    Text.trim words.text = words.text ∧ Text.trim (' ' :: words.text) = words.text := by
  have whole : Text.trim words.text = words.text := by
    obtain ⟨c, tail, same, _, _⟩ := exists_identifier words.first.name
    have shape : words.text = c :: (tail ++ words.first.slot?.elim [] slotText ++
        words.others.flatMap fun word => ' ' :: word.text) := by
      rw [Words.text, Word.text, same]
      rfl
    have dark : isBlank c = false :=
      words.first.name.dark c (by rw [same]; exact List.mem_cons_self)
    have tight := words.isTight
    rw [shape] at tight ⊢
    exact trim_of_isTight dark tight
  exact ⟨whole, whole⟩

end Characters

section Declarations

theorem splitDeclaration?_append_colon {property : Text} (noColon : ':' ∉ property) (value : Text) :
    splitDeclaration? (property ++ ':' :: value) =
      if (Text.trim property).isEmpty || (Text.trim property).any isBlank then none
      else some (Text.trim property, Text.trim value) := by
  rw [splitDeclaration?, Text.splitWhere_char noColon]
  rfl

theorem splitDeclaration?_colon {property : Text} (noColon : ':' ∉ property)
    (written : property ≠ []) (dark : ∀ c ∈ property, isBlank c = false) (value : Text) :
    splitDeclaration? (property ++ ':' :: value) = some (property, Text.trim value) := by
  have single : ¬ (property.isEmpty || property.any isBlank) = true := by
    rw [Bool.or_eq_true, List.isEmpty_iff, List.any_eq_true]
    rintro (empty | ⟨c, member, blank⟩)
    · exact written empty
    · rw [dark c member] at blank
      exact Bool.noConfusion blank
  rw [splitDeclaration?_append_colon noColon, trim_of_dark dark, if_neg single]

theorem splitDeclaration?_noColon {text : Text} (noColon : ':' ∉ text) :
    splitDeclaration? text = none := by
  rw [splitDeclaration?, Text.splitWhere_noChar noColon]

end Declarations

section Outlines

open Outline (isSpacePart EndsStatement Ending ofPieces startsStatement)

variable {rest : Text} {behind : Forest} {ending : Ending} {later : List Piece}

theorem isTight_word (word : Word) : IsTight isSpacePart word.parts := by
  refine .of_forall ?_
  rw [Word.parts]
  cases word.slot? with
  | none => exact List.forall_mem_singleton.2 rfl
  | some name => exact List.forall_mem_cons.2 ⟨rfl, List.forall_mem_singleton.2 rfl⟩

theorem isTight_words (words : Words) : IsTight isSpacePart words.parts := by
  have others (words : List Word) :
      IsTight isSpacePart (words.flatMap fun word => spacePart :: word.parts) := by
    induction words with
    | nil => exact .of_forall fun part member => absurd member List.not_mem_nil
    | cons word words ih => exact .append (.cons (List.cons_ne_nil _ _) (isTight_word word)) ih
  exact .append (isTight_word words.first) (others words.others)

theorem isTight_paramParts (rule : AtRule) : IsTight isSpacePart rule.paramParts := by
  rw [AtRule.paramParts]
  cases rule.params? with
  | none => exact .of_forall fun part member => absurd member List.not_mem_nil
  | some params => exact .cons (List.cons_ne_nil _ _) (isTight_words params)

/-- The first token of a statement stands in front of the other pieces. -/
theorem piecesBehind_parts {token : Token} {text : Text} {parts : List Part}
    (separated : Separated rest (.token token text :: parts)) (offset : Nat) (lead : List Lexeme)
    (behind : Forest) :
    ((Forest.ofParts offset (.token token text :: parts)).append behind).piecesBehind lead =
      ⟨lead, ⟨token, offset, text⟩, none⟩ ::
        ((Forest.ofParts (offset + Text.bytes text) parts).pieces ++ behind.pieces) := by
  cases separated with
  | token simple _ separated =>
      rw [← separated.pieces_append]
      exact Forest.piecesBehind_leaf (ne_comment_of_isSimple simple)

theorem Property.exists_parts (property : Property) (parts : List Part) :
    ∃ token text others, property.parts ++ parts = .token token text :: others ∧
      startsStatement token = true := by
  cases property <;> exact ⟨_, _, _, rfl, rfl⟩

theorem Compound.exists_parts (compound : Compound) (parts : List Part) :
    ∃ token text others, compound.parts ++ parts = .token token text :: others ∧
      startsStatement token = true := by
  cases compound <;> exact ⟨_, _, _, rfl, rfl⟩

/-- A property is a single word. -/
theorem splitDeclaration?_property (property : Property) (value : Text) :
    splitDeclaration? (property.text ++ ':' :: value) =
      some (property.text, Text.trim value) := by
  have single (start : Text) (name : Identifier)
      (dark : ∀ c ∈ start, c ≠ ':' ∧ isBlank c = false) :
      splitDeclaration? (start ++ name.text ++ ':' :: value) =
        some (start ++ name.text, Text.trim value) := by
    refine splitDeclaration?_colon ?_ ?_ ?_ value
    · rw [List.mem_append, not_or]
      exact ⟨fun member => (dark ':' member).1 rfl, name.noColon⟩
    · exact List.append_ne_nil_of_right_ne_nil start name.ne_nil
    · exact List.forall_mem_append.2 ⟨fun c member => (dark c member).2, name.dark⟩
  cases property with
  | plain name => exact single [] name fun c member => absurd member List.not_mem_nil
  | «variable» name => exact single ['$'] name (by simp [isBlank])
  | custom name => exact single ['-', '-'] name (by simp [isBlank])

theorem splitDeclaration?_pseudo (name : Identifier) (value : Text) :
    splitDeclaration? ('.' :: name.text ++ ':' :: value) =
      some ('.' :: name.text, Text.trim value) := by
  refine splitDeclaration?_colon ?_ (List.cons_ne_nil _ _) ?_ value
  · exact List.not_mem_cons_of_ne_of_not_mem (by decide) name.noColon
  · exact List.forall_mem_cons.2 ⟨rfl, name.dark⟩

/-- A selector is no declaration, also with a colon in it. -/
theorem blockStatement_compound (compound : Compound) (slot? : Option Identifier) (block : Piece) :
    Outline.blockStatement (compound.text ++ slot?.elim [] slotText) block =
      (.rule (compound.text ++ slot?.elim [] slotText), true) := by
  have single (text : Text) (noColon : ':' ∉ text) :
      Outline.blockStatement (text ++ slot?.elim [] slotText) block =
        (.rule (text ++ slot?.elim [] slotText), true) := by
    have neither : ':' ∉ text ++ slot?.elim [] slotText := by
      rw [List.mem_append, not_or]
      exact ⟨noColon, noColon_slot slot?⟩
    rw [Outline.blockStatement, splitDeclaration?_noColon neither]
  cases compound with
  | «class» name =>
      exact single ('.' :: name.text)
        (List.not_mem_cons_of_ne_of_not_mem (by decide) name.noColon)
  | suffix name =>
      exact single ('&' :: '-' :: name.text) (List.not_mem_cons_of_ne_of_not_mem (by decide)
        (List.not_mem_cons_of_ne_of_not_mem (by decide) name.noColon))
  | pseudo name state =>
      have value : Text.trim (state.text ++ slot?.elim [] slotText) =
          state.text ++ slot?.elim [] slotText :=
        trim_of_dark (List.forall_mem_append.2 ⟨state.dark, dark_slot slot?⟩)
      have written : ¬ (state.text ++ slot?.elim [] slotText).isEmpty = true := by
        rw [List.isEmpty_iff]
        exact List.append_ne_nil_of_left_ne_nil state.ne_nil _
      have order : (Compound.pseudo name state).text ++ slot?.elim [] slotText =
          '.' :: name.text ++ ':' :: (state.text ++ slot?.elim [] slotText) := by
        simp [Compound.text]
      have noCustom : ¬ isCustomProperty ('.' :: name.text) = true := Bool.noConfusion
      rw [order, Outline.blockStatement, splitDeclaration?_pseudo]
      simp only [value]
      rw [if_neg noCustom, if_neg written]

theorem trim_paramParts (rule : AtRule) :
    Text.trim (partsText rule.paramParts) = rule.params?.elim [] (·.text) := by
  rw [partsText_paramParts]
  cases rule.params? with
  | none => rfl
  | some params => exact params.trim.2

section Lines

variable (ends : EndsStatement behind ending later) (noBlock : ∀ block, ending ≠ .block block)
  (offset : Nat) (lead : List Lexeme)

include ends noBlock

theorem exists_outline_declaration (property : Property) (value : Words)
    (separated : Separated rest (Line.declaration property value).parts) :
    ∃ span, ofPieces (((Forest.ofParts offset (Line.declaration property value).parts).append
        behind).piecesBehind lead) =
      .node (.declaration property.text value.text) span .nil (ofPieces later) := by
  have spelled := partsText_line (.declaration property value)
  have tight : IsTight isSpacePart (Line.declaration property value).parts := by
    refine .append (.of_forall ?_) ?_
    · cases property <;> simp [Property.parts, Identifier.part, isSpacePart]
    · exact .cons (List.cons_ne_nil _ _) (.cons (List.cons_ne_nil _ _) (isTight_words value))
  obtain ⟨token, text, others, shape, starts⟩ :=
    property.exists_parts (.token .colon [':'] :: spacePart :: value.parts)
  rw [Line.parts, shape] at separated tight spelled ⊢
  rw [piecesBehind_parts separated]
  cases separated with
  | token simple _ separated =>
      obtain ⟨before, cut, _, text⟩ :=
        Outline.exists_cut_lead simple separated tight ends lead offset _
      refine ⟨_, Outline.ofPieces_declaration cut starts noBlock ?_⟩
      rw [text, spelled, Line.text, splitDeclaration?_property, value.trim.2]

theorem exists_outline_atRule (rule : AtRule) (separated : Separated rest rule.parts) :
    ∃ span, ofPieces (((Forest.ofParts offset rule.parts).append behind).piecesBehind lead) =
      .node (rule.statement false) span .nil (ofPieces later) := by
  rw [AtRule.parts, piecesBehind_parts separated]
  cases separated with
  | token _ _ separated =>
      obtain ⟨before, cut, text⟩ :=
        Outline.exists_cut separated (isTight_paramParts rule) ends _
      rw [AtRule.statement, ← trim_paramParts, ← text]
      exact ⟨_, Outline.ofPieces_atRule rfl cut noBlock⟩

/-- **A statement without a block is read back.** -/
theorem Line.exists_outline (line : Line) :
    ∃ span, ofPieces (((Forest.ofParts offset line.parts).append behind).piecesBehind lead) =
      .node line.statement span .nil (ofPieces later) := by
  have separated : Separated [] line.parts := line.separated rfl
  cases line with
  | declaration property value =>
      exact exists_outline_declaration ends noBlock offset lead property value separated
  | «at» rule => exact exists_outline_atRule ends noBlock offset lead rule separated

end Lines

section Headers

variable {block : Piece} (ends : EndsStatement behind (.block block) later) (offset : Nat)
  (lead : List Lexeme)

include ends

theorem exists_outline_rule (compound : Compound) (slot? : Option Identifier)
    (separated : Separated rest (Header.rule compound slot?).parts) :
    ∃ span, ofPieces (((Forest.ofParts offset (Header.rule compound slot?).parts).append
        behind).piecesBehind lead) =
      .node (.rule (compound.text ++ slot?.elim [] slotText)) span
        (ofPieces block.body.pieces) (ofPieces later) := by
  have spelled := partsText_header (.rule compound slot?)
  have tight : IsTight isSpacePart (Header.rule compound slot?).parts := by
    refine .append (.of_forall ?_) (.of_forall ?_)
    · cases compound <;> simp [Compound.parts, Identifier.part, isSpacePart]
    · cases slot? <;> simp [slotParts, isSpacePart]
  obtain ⟨token, text, others, shape, starts⟩ := compound.exists_parts (slotParts slot?)
  rw [Header.parts, shape] at separated tight spelled ⊢
  rw [piecesBehind_parts separated]
  cases separated with
  | token simple _ separated =>
      obtain ⟨before, cut, written, text⟩ :=
        Outline.exists_cut_lead simple separated tight ends lead offset _
      have opens : Outline.blockStatement (Outline.bareText (Outline.withoutTrailingSpace before)) block =
          (.rule (compound.text ++ slot?.elim [] slotText), true) := by
        rw [text, spelled, Header.text, blockStatement_compound]
      exact ⟨_, Outline.ofPieces_block cut starts written opens⟩

theorem exists_outline_atBlock (rule : AtRule) (separated : Separated rest rule.parts) :
    ∃ span, ofPieces (((Forest.ofParts offset rule.parts).append behind).piecesBehind lead) =
      .node (rule.statement true) span (ofPieces block.body.pieces) (ofPieces later) := by
  rw [AtRule.parts, piecesBehind_parts separated]
  cases separated with
  | token _ _ separated =>
      obtain ⟨before, cut, text⟩ :=
        Outline.exists_cut separated (isTight_paramParts rule) ends _
      rw [AtRule.statement, ← trim_paramParts, ← text]
      exact ⟨_, Outline.ofPieces_atBlock rfl cut⟩

/-- **The header of a block is read back, and the block behind it.** -/
theorem Header.exists_outline (header : Header) :
    ∃ span, ofPieces (((Forest.ofParts offset header.parts).append behind).piecesBehind lead) =
      .node header.statement span (ofPieces block.body.pieces) (ofPieces later) := by
  have separated : Separated [] header.parts := header.separated rfl
  cases header with
  | rule compound slot? => exact exists_outline_rule ends offset lead compound slot? separated
  | «at» rule => exact exists_outline_atBlock ends offset lead rule separated

end Headers

end Outlines

end ScssLint
