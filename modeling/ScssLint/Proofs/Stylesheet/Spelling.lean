import ScssLint.Proofs.Css.Parts

/-! # Spelling statements

The parts of a statement in front of its end (`Line.parts`, `Header.parts`) spell its text, and the
lexer separates them in front of anything that ends a name (`Line.separated`, `Header.separated`).
-/

namespace ScssLint

open Css (Part Separated Lexes partsText partsText_cons partsText_append stopsName)

variable {rest : Text}

def Identifier.part (name : Identifier) : Part :=
  .token (.ident name.text) name.text

def slotParts (slot? : Option Identifier) : List Part :=
  slot?.elim [] fun name => [.slot name]

/-- One space. -/
def spacePart : Part :=
  .token .whitespace [' ']

def Word.parts (word : Word) : List Part :=
  word.name.part :: slotParts word.slot?

def Words.parts (words : Words) : List Part :=
  words.first.parts ++ words.others.flatMap fun word => spacePart :: word.parts

def Property.parts : Property → List Part
  | plain name => [name.part]
  | .variable name => [.token (.delim '$') ['$'], name.part]
  | custom name => [.token (.ident ('-' :: '-' :: name.text)) ('-' :: '-' :: name.text)]

def Compound.parts : Compound → List Part
  | .class name => [.token (.delim '.') ['.'], name.part]
  | suffix name =>
      [.token (.delim '&') ['&'], .token (.ident ('-' :: name.text)) ('-' :: name.text)]
  | pseudo name state =>
      [.token (.delim '.') ['.'], name.part, .token .colon [':'], state.part]

/-- The parts behind the name of an at-rule. -/
def AtRule.paramParts (rule : AtRule) : List Part :=
  rule.params?.elim [] fun params => spacePart :: params.parts

def AtRule.parts (rule : AtRule) : List Part :=
  .token (.atKeyword rule.name.text) ('@' :: rule.name.text) :: rule.paramParts

def Line.parts : Line → List Part
  | declaration property value =>
      property.parts ++ .token .colon [':'] :: spacePart :: value.parts
  | .at atRule => atRule.parts

def Header.parts : Header → List Part
  | rule compound slot? => compound.parts ++ slotParts slot?
  | .at atRule => atRule.parts

section Texts

theorem partsText_slotParts (slot? : Option Identifier) :
    partsText (slotParts slot?) = slot?.elim [] slotText := by
  cases slot? with
  | none => rfl
  | some name => exact List.append_nil (slotText name)

theorem partsText_word (word : Word) : partsText word.parts = word.text := by
  rw [Word.parts, partsText_cons, partsText_slotParts]
  rfl

theorem partsText_words (words : Words) : partsText words.parts = words.text := by
  have others (words : List Word) :
      partsText (words.flatMap fun word => spacePart :: word.parts) =
        words.flatMap fun word => ' ' :: word.text := by
    induction words with
    | nil => rfl
    | cons word words ih =>
        rw [List.flatMap_cons, partsText_append, ih, partsText_cons, partsText_word]
        rfl
  rw [Words.parts, partsText_append, partsText_word, others]
  rfl

theorem partsText_property (property : Property) :
    partsText property.parts = property.text := by
  cases property with
  | plain name => exact List.append_nil name.text
  | «variable» name => exact congrArg ('$' :: ·) (List.append_nil name.text)
  | custom name => exact List.append_nil ('-' :: '-' :: name.text)

theorem partsText_compound (compound : Compound) :
    partsText compound.parts = compound.text := by
  cases compound with
  | «class» name => exact congrArg ('.' :: ·) (List.append_nil name.text)
  | suffix name => exact congrArg ('&' :: ·) (List.append_nil ('-' :: name.text))
  | pseudo name state =>
      exact congrArg (fun text => '.' :: (name.text ++ ':' :: text)) (List.append_nil state.text)

theorem partsText_paramParts (rule : AtRule) :
    partsText rule.paramParts = rule.params?.elim [] fun params => ' ' :: params.text := by
  rw [AtRule.paramParts]
  cases rule.params? with
  | none => rfl
  | some params => exact congrArg (' ' :: ·) (partsText_words params)

theorem partsText_atRule (rule : AtRule) : partsText rule.parts = rule.text := by
  rw [AtRule.parts, partsText_cons, partsText_paramParts]
  rfl

theorem partsText_line (line : Line) : partsText line.parts = line.text := by
  cases line with
  | declaration property value =>
      rw [Line.parts, partsText_append, partsText_property, partsText_cons, partsText_cons,
        partsText_words]
      rfl
  | «at» atRule => exact partsText_atRule atRule

theorem partsText_header (header : Header) : partsText header.parts = header.text := by
  cases header with
  | rule compound slot? =>
      rw [Header.parts, partsText_append, partsText_compound, partsText_slotParts]
      rfl
  | «at» atRule => exact partsText_atRule atRule

end Texts

section Separation

theorem separated_slotParts (slot? : Option Identifier) : Separated rest (slotParts slot?) := by
  cases slot? with
  | none => exact .nil
  | some name => exact .slot .nil

theorem stopsName_slotParts (stops : stopsName rest = true) (slot? : Option Identifier) :
    stopsName (partsText (slotParts slot?) ++ rest) = true := by
  cases slot? with
  | none => exact stops
  | some name => rfl

theorem separated_identifier {parts : List Part} (name : Identifier)
    (stops : stopsName (partsText parts ++ rest) = true) (behind : Separated rest parts) :
    Separated rest (name.part :: parts) :=
  .token rfl (Css.lexes_identifier name stops) behind

theorem separated_word (stops : stopsName rest = true) (word : Word) :
    Separated rest word.parts :=
  separated_identifier word.name (stopsName_slotParts stops word.slot?)
    (separated_slotParts word.slot?)

/-- A space in front of a word is cut off as white space. -/
theorem separated_space {parts : List Part} (name : Identifier)
    (behind : Separated rest (name.part :: parts)) :
    Separated rest (spacePart :: name.part :: parts) := by
  refine .token rfl ?_ behind
  obtain ⟨c, tail, same, lower, _⟩ := Css.exists_identifier name
  have text : partsText (name.part :: parts) = c :: tail ++ partsText parts :=
    congrArg (· ++ partsText parts) same
  rw [text]
  apply Css.lexes_space (List.forall_mem_singleton.2 rfl)
  intro d member
  obtain rfl : c = d := Option.some.inj member
  exact Css.isSpace_of_isLower lower

theorem separated_words (stops : stopsName rest = true) (words : Words) :
    Separated rest words.parts := by
  have others (words : List Word) :
      Separated rest (words.flatMap fun word => spacePart :: word.parts) ∧
        stopsName (partsText (words.flatMap fun word => spacePart :: word.parts) ++ rest) =
          true := by
    induction words with
    | nil => exact ⟨.nil, stops⟩
    | cons word words ih =>
        refine ⟨?_, rfl⟩
        obtain ⟨behind, stopsBehind⟩ := ih
        exact separated_space word.name
          ((separated_word stopsBehind word).append behind)
  obtain ⟨behind, stopsBehind⟩ := others words.others
  exact (separated_word stopsBehind words.first).append behind

theorem separated_property (stops : stopsName rest = true) (property : Property) :
    Separated rest property.parts := by
  cases property with
  | plain name => exact separated_identifier name stops .nil
  | «variable» name =>
      refine .token rfl ?_ (separated_identifier name stops .nil)
      obtain ⟨c, tail, same, lower, _⟩ := Css.exists_identifier name
      have text : partsText [name.part] = c :: tail := (List.append_nil name.text).trans same
      rw [text]
      exact Css.lexes_dollar lower
  | custom name => exact .token rfl (Css.lexes_hyphens name stops) .nil

/-- A dot in front of an identifier is a sign by itself. -/
theorem separated_dot {parts : List Part} (name : Identifier)
    (behind : Separated rest (name.part :: parts)) :
    Separated rest (.token (.delim '.') ['.'] :: name.part :: parts) := by
  refine .token rfl ?_ behind
  obtain ⟨c, tail, same, lower, _⟩ := Css.exists_identifier name
  have text : partsText (name.part :: parts) = c :: tail ++ partsText parts :=
    congrArg (· ++ partsText parts) same
  rw [text]
  refine Css.lexes_dot fun d first => ?_
  obtain rfl := Option.some.inj first
  exact Css.isDigit_of_isLower lower

theorem separated_compound (stops : stopsName rest = true) (compound : Compound) :
    Separated rest compound.parts := by
  cases compound with
  | «class» name => exact separated_dot name (separated_identifier name stops .nil)
  | suffix name =>
      refine .token rfl (Css.lexes_ampersand _) ?_
      exact .token rfl (Css.lexes_hyphen name stops) .nil
  | pseudo name state =>
      refine separated_dot name (separated_identifier name rfl ?_)
      exact .token rfl (Css.lexes_colon _) (separated_identifier state stops .nil)

theorem separated_paramParts (stops : stopsName rest = true) (rule : AtRule) :
    Separated rest rule.paramParts := by
  rw [AtRule.paramParts]
  cases rule.params? with
  | none => exact .nil
  | some params => exact separated_space params.first.name (separated_words stops params)

theorem separated_atRule (stops : stopsName rest = true) (rule : AtRule) :
    Separated rest rule.parts := by
  refine .token rfl (Css.lexes_at rule.name ?_) (separated_paramParts stops rule)
  rw [AtRule.paramParts]
  cases rule.params? with
  | none => exact stops
  | some params => rfl

theorem Line.separated (stops : stopsName rest = true) (line : Line) :
    Separated rest line.parts := by
  cases line with
  | declaration property value =>
      refine (separated_property rfl property).append (.token rfl (Css.lexes_colon _) ?_)
      exact separated_space value.first.name (separated_words stops value)
  | «at» atRule => exact separated_atRule stops atRule

theorem Header.separated (stops : stopsName rest = true) (header : Header) :
    Separated rest header.parts := by
  cases header with
  | rule compound slot? =>
      exact (separated_compound (stopsName_slotParts stops slot?) compound).append
        (separated_slotParts slot?)
  | «at» atRule => exact separated_atRule stops atRule

end Separation

end ScssLint
