import ScssLint.Proofs.Css.Spacing

/-! # What is read in front of another text

A name, a number or a sign that ends in front of one text ends in front of another one, too, if no
such token goes on with either (`Css.Meets`, `Css.munch_meets`). The end of a text is such a text
itself, unless a backslash stands in front of it.
-/

namespace ScssLint

namespace Css

/-- Whether names, numbers and signs end in front of a text, whatever they are. -/
def endsToken : Text → Bool
  | [] => true
  | c :: rest =>
      stopsName (c :: rest) && c != '%' && c != '=' && c != '!' &&
        (c != '.' && c != '+' || digits rest == 0)

/-- Whether a text ends in a backslash that escapes nothing. `escaped` says whether a backslash
escapes the first character. -/
def dangles (escaped : Bool) : Text → Bool
  | [] => escaped
  | c :: rest => dangles (!escaped && c == '\\') rest

/-- Whether a text ends in a backslash with at most six hexadecimal digits behind it, an escape with
which white space goes on. -/
def endsInEscape : Text → Bool
  | [] => false
  | c :: rest => (c == '\\' && rest.length ≤ 6 && rest.all isHexDigit) || endsInEscape rest

/-- Whether white space comes first in `rest` if it does in `other`. -/
def SpacesMeet (rest other : Text) : Prop :=
  ∀ c ∈ other.head?, isSpace c = true → ∃ d ∈ rest.head?, isSpace d = true

/-- Whether what ends in front of `rest` ends in front of `other`, too, unless it is an escape or
white space. -/
structure Meets (rest other : Text) : Prop where
  ends : endsToken rest = true
  ends' : endsToken other = true
  inLine : newlineAhead other = false
  noAngle : other.head? ≠ some '>'

/-- Whether an escape at the end of `text` goes on neither with `rest` nor with `other`. -/
structure IsCalm (text rest other : Text) : Prop where
  inLine : dangles false text = false ∨ rest ≠ [] ∧ newlineAhead rest = false
  spaces : SpacesMeet rest other ∨ endsInEscape text = false

variable {text rest other : Text} {c : Char}

section Ends

theorem endsToken_cons (ends : endsToken (c :: rest) = true) :
    isNameChar c = false ∧ (c ≠ '\\' ∧ c ≠ '(' ∧ c ≠ '%' ∧ c ≠ '=' ∧ c ≠ '!') ∧
      (c = '.' ∨ c = '+' → digits rest = 0) := by
  simp only [endsToken, stopsName, Bool.and_eq_true, Bool.not_eq_true', Bool.or_eq_true,
    bne_iff_ne, beq_iff_eq] at ends
  obtain ⟨⟨⟨⟨⟨⟨noName, noEscape⟩, noParen⟩, noPercent⟩, noEquals⟩, noMark⟩, noNumber⟩ := ends
  refine ⟨noName, ⟨noEscape, noParen, noPercent, noEquals, noMark⟩, fun mark => ?_⟩
  rcases noNumber with ⟨noPoint, noPlus⟩ | none
  · exact absurd mark (not_or.2 ⟨noPoint, noPlus⟩)
  · exact none

/-- A sign that goes on with a token in front of it does not come first. -/
theorem head?_ne_of_endsToken (ends : endsToken rest = true) {sign : Char}
    (goesOn : endsToken [sign] = false) : rest.head? ≠ some sign := by
  intro first
  obtain ⟨tail, rfl⟩ := List.head?_eq_some_iff.1 first
  simp only [endsToken, Bool.and_eq_true] at ends
  rw [endsToken] at goesOn
  simp only [stopsName, digits] at goesOn ends
  simp_all

theorem any_head?_of_endsToken (ends : endsToken rest = true) :
    (rest.head?.any fun d => d.isDigit || d == '-') = false := by
  cases rest with
  | nil => rfl
  | cons c rest =>
      have noName := (endsToken_cons ends).1
      simp only [isNameChar, Bool.or_eq_false_iff] at noName
      simp [noName]

theorem digits_of_endsToken (ends : endsToken rest = true) : digits rest = 0 := by
  cases rest with
  | nil => rfl
  | cons c rest =>
      have noName := (endsToken_cons ends).1
      have noDigit : c.isDigit = false := by
        simp only [isNameChar, Bool.or_eq_false_iff] at noName
        exact noName.1.2
      simp [digits, noDigit]

theorem fractionLength_of_endsToken (ends : endsToken rest = true) : fractionLength rest = 0 := by
  unfold fractionLength
  split
  · rename_i tail
    rw [if_pos ((endsToken_cons ends).2.2 (.inl rfl))]
  · rfl

theorem startsIdent_of_endsToken (ends : endsToken rest = true) :
    startsIdent rest = false ∧ startsIdent ('-' :: rest) = false := by
  cases rest with
  | nil => exact ⟨rfl, rfl⟩
  | cons c rest =>
      obtain ⟨noName, ⟨noEscape, _⟩, _⟩ := endsToken_cons ends
      simp only [isNameChar, Bool.or_eq_false_iff, beq_eq_false_iff_ne] at noName
      obtain ⟨⟨noStart, _⟩, noHyphen⟩ := noName
      exact ⟨by simp [startsIdent, noStart, noEscape, noHyphen],
        by simp [startsIdent, noStart, noEscape, noHyphen]⟩

theorem name_of_endsToken (ends : endsToken rest = true) : name rest = ([], 0) := by
  cases rest with
  | nil => exact name.eq_1
  | cons c rest =>
      obtain ⟨noName, ⟨noEscape, _⟩, _⟩ := endsToken_cons ends
      refine @name_append [] (c :: rest) (List.forall_mem_nil _) ?_
      simp only [endsToken, Bool.and_eq_true] at ends
      exact ends.1.1.1.1

end Ends

section Numbers

variable (text) (ends : endsToken rest = true)

include ends

theorem digits_meets : digits (text ++ rest) = digits text := by
  rw [digits, digits, takeWhile_append]
  intro c first
  obtain ⟨tail, rfl⟩ := List.head?_eq_some_iff.1 first
  have noName := (endsToken_cons ends).1
  simp only [isNameChar, Bool.or_eq_false_iff] at noName
  exact noName.1.2

theorem fractionLength_meets : fractionLength (text ++ rest) = fractionLength text := by
  cases text with
  | nil => exact fractionLength_of_endsToken ends
  | cons c text =>
      by_cases point : c = '.'
      · subst point
        simp only [List.cons_append, fractionLength, digits_meets text ends]
      · rw [List.cons_append, fractionLength.eq_2 _ fun tail same => point (List.cons.inj same).1,
          fractionLength.eq_2 _ fun tail same => point (List.cons.inj same).1]

theorem startsNumber_meets : startsNumber (text ++ rest) = startsNumber text := by
  rw [startsNumber, startsNumber, digits_meets text ends, fractionLength_meets text ends]

/-- No power stands behind the sign of an exponent. -/
theorem digits_drop_signLength : digits (rest.drop (signLength rest)) = 0 := by
  rw [signLength]
  by_cases sign : rest.head? = some '+' ∨ rest.head? = some '-'
  · rw [if_pos sign]
    rcases sign with plus | minus
    · obtain ⟨tail, rfl⟩ := List.head?_eq_some_iff.1 plus
      exact (endsToken_cons ends).2.2 (.inr rfl)
    · exact absurd minus (head?_ne_of_endsToken ends rfl)
  · rw [if_neg sign]
    exact digits_of_endsToken ends

theorem exponentLength_meets : exponentLength (text ++ rest) = exponentLength text := by
  cases text with
  | nil =>
      cases rest with
      | nil => rfl
      | cons c rest =>
          have noName := (endsToken_cons ends).1
          have noMark : ¬ (c = 'e' ∨ c = 'E') := by
            rintro (rfl | rfl) <;> exact absurd noName (by decide)
          rw [List.nil_append, exponentLength_cons, if_neg noMark]
          rfl
  | cons c text =>
      have power : digits ((text ++ rest).drop (signLength (text ++ rest))) =
          digits (text.drop (signLength text)) := by
        cases text with
        | nil => exact digits_drop_signLength ends
        | cons d text =>
            have same : signLength (d :: text ++ rest) = signLength (d :: text) := rfl
            rw [same, List.drop_append_of_le_length (signLength_le (d :: text)),
              digits_meets _ ends]
      have sign : digits (text.drop (signLength text)) ≠ 0 →
          signLength (text ++ rest) = signLength text := by
        cases text with
        | nil => exact fun some => absurd rfl some
        | cons d text => exact fun _ => rfl
      rw [List.cons_append, exponentLength_cons, exponentLength_cons, power]
      split
      · split
        · rfl
        · rename_i some
          rw [sign some]
      · rfl

theorem mantissaLength_meets (c : Char) :
    mantissaLength (c :: text ++ rest) = mantissaLength (c :: text) := by
  have sign := signLength_le (c :: text)
  have whole := digits_le ((c :: text).drop (signLength (c :: text)))
  rw [List.length_drop] at whole
  have same : signLength (c :: text ++ rest) = signLength (c :: text) := rfl
  rw [mantissaLength, mantissaLength, same, List.drop_append_of_le_length sign,
    digits_meets _ ends, List.drop_append_of_le_length (by omega), fractionLength_meets _ ends]

/-- **A number is read to its end.** -/
theorem numberLength_meets (c : Char) :
    numberLength (c :: text ++ rest) = numberLength (c :: text) := by
  rw [numberLength_eq, numberLength_eq, mantissaLength_meets text ends,
    List.drop_append_of_le_length (mantissaLength_le _), exponentLength_meets _ ends]

end Numbers

section Signs

theorem head?_meets {sign : Char} (goesOn : endsToken [sign] = false)
    (meets : Meets rest other) (text : Text) :
    (text ++ other).head? = some sign ↔ (text ++ rest).head? = some sign := by
  cases text with
  | nil =>
      exact iff_of_false (head?_ne_of_endsToken meets.ends' goesOn)
        (head?_ne_of_endsToken meets.ends goesOn)
  | cons c text => exact Iff.rfl

theorem endsInEscape_of_cons (noEscape : endsInEscape (c :: text) = false) :
    endsInEscape text = false := by
  rw [endsInEscape, Bool.or_eq_false_iff] at noEscape
  exact noEscape.2

theorem IsCalm.of_cons (calm : IsCalm (c :: text) rest other) (noEscape : c ≠ '\\') :
    IsCalm text rest other := by
  refine ⟨?_, calm.spaces.imp_right endsInEscape_of_cons⟩
  rcases calm.inLine with whole | ahead
  · rw [dangles, Bool.not_false, Bool.true_and, beq_false_of_ne noEscape] at whole
    exact .inl whole
  · exact .inr ahead

theorem IsCalm.drop (calm : IsCalm text rest other) (count : Nat)
    (noEscape : '\\' ∉ text.take count) : IsCalm (text.drop count) rest other := by
  induction count generalizing text with
  | zero => exact calm
  | succ count ih =>
      cases text with
      | nil => exact calm
      | cons c text =>
          obtain ⟨other, noEscape⟩ := not_or.1 (mt List.mem_cons.2 noEscape)
          exact ih (calm.of_cons (Ne.symm other)) noEscape

theorem newlineAhead_meets (meets : Meets rest other) (calm : IsCalm ('\\' :: text) rest other) :
    newlineAhead (text ++ other) = newlineAhead (text ++ rest) := by
  cases text with
  | nil =>
      rcases calm.inLine with whole | ⟨_, inLine⟩
      · exact absurd whole (by decide)
      · rw [List.nil_append, List.nil_append, meets.inLine, inLine]
  | cons c text => rfl

theorem startsIdent_meets (meets : Meets rest other) (calm : IsCalm text rest other) :
    startsIdent (text ++ other) = startsIdent (text ++ rest) := by
  have none := startsIdent_of_endsToken meets.ends
  have none' := startsIdent_of_endsToken meets.ends'
  cases text with
  | nil => exact none'.1.trans none.1.symm
  | cons c text =>
      by_cases escapes : c = '\\'
      · subst escapes
        have ahead := newlineAhead_meets meets calm
        simp only [List.cons_append, startsIdent, Char.reduceEq, ↓reduceIte, ahead]
      · cases text with
        | nil =>
            by_cases hyphen : c = '-'
            · subst hyphen
              exact none'.2.trans none.2.symm
            · simp only [List.cons_append, startsIdent, escapes, hyphen, ↓reduceIte]
        | cons d text => simp only [List.cons_append, startsIdent, escapes, ↓reduceIte]

end Signs

section Names

theorem isNameChar_of_isHexDigit (hex : isHexDigit c = true) : isNameChar c = true := by
  have letter (isLetter : (c.isUpper || c.isLower) = true) : isNameChar c = true := by
    have alpha : c.isAlpha = true := isLetter
    rw [isNameChar, isNameStart, alpha]
    rfl
  simp only [isHexDigit, Bool.or_eq_true, Bool.and_eq_true, decide_eq_true_eq] at hex
  rcases hex with (digit | ⟨first, last⟩) | ⟨first, last⟩
  · simp only [isNameChar, digit, Bool.or_true, Bool.true_or]
  · have lower : c.isLower = true :=
      Bool.and_eq_true_iff.2 ⟨decide_eq_true first, decide_eq_true (Char.le_trans last (by decide))⟩
    exact letter (by rw [lower, Bool.or_true])
  · have upper : c.isUpper = true := decide_eq_true ⟨first, Char.le_trans last (by decide)⟩
    exact letter (by rw [upper, Bool.true_or])

theorem escapeDigits_meets (text : Text) (ends : endsToken rest = true) :
    escapeDigits (text ++ rest) = escapeDigits text := by
  rw [escapeDigits, List.take_append, takeWhile_append, escapeDigits]
  intro d first
  generalize 6 - text.length = count at first
  cases count with
  | zero => exact absurd first (Option.not_mem_none _)
  | succ count =>
      cases rest with
      | nil => exact absurd first (Option.not_mem_none _)
      | cons c rest =>
          obtain rfl := Option.some.inj first
          have noName := (endsToken_cons ends).1
          apply Bool.eq_false_iff.2
          intro hex
          rw [isNameChar_of_isHexDigit hex] at noName
          exact Bool.noConfusion noName

/-- A backslash in front of nothing but the digits of an escape. -/
theorem endsInEscape_of_escapeDigits (whole : text.length ≤ (escapeDigits text).length) :
    endsInEscape ('\\' :: text) = true := by
  have short : (text.take 6).length ≤ 6 := List.length_take_le 6 text
  have inside : (escapeDigits text).length ≤ (text.take 6).length :=
    length_takeWhile_le isHexDigit (text.take 6)
  have same : escapeDigits text = text :=
    ((List.takeWhile_prefix isHexDigit).trans (List.take_prefix 6 text)).eq_of_length_le whole
  have digits : (escapeDigits text).all isHexDigit = true := List.all_takeWhile
  rw [same] at digits
  have fits : decide (text.length ≤ 6) = true := decide_eq_true (by omega)
  rw [endsInEscape, fits, digits]
  rfl

theorem spaceLength_eq_zero : spaceLength text = 0 ↔ ∀ d ∈ text.head?, isSpace d = false := by
  cases text with
  | nil => simp [spaceLength]
  | cons c text =>
      simp only [spaceLength, List.head?_cons, Option.mem_some_iff, forall_eq']
      split
      · rename_i breaks
        simp [breaks.1, isSpace]
      · split
        · rename_i space
          simp [space]
        · rename_i dark
          simpa using dark

theorem spaceLength_meets (meets : Meets rest other) (spaces : text = [] → SpacesMeet rest other)
    (within : spaceLength (text ++ rest) ≤ text.length) :
    spaceLength (text ++ other) = spaceLength (text ++ rest) := by
  cases text with
  | nil =>
      have none := Nat.le_zero.1 within
      rw [none, List.nil_append]
      rw [List.nil_append, spaceLength_eq_zero] at none
      refine spaceLength_eq_zero.2 fun d first => Bool.eq_false_iff.2 fun space => ?_
      obtain ⟨d', first', space'⟩ := spaces rfl d first space
      rw [none d' first'] at space'
      exact Bool.noConfusion space'
  | cons c text =>
      -- A carriage return may be followed by a line feed that belongs to it.
      have feed : c = '\r' → (text ++ other).head? = some '\n' →
          (text ++ rest).head? = some '\n' := by
        intro _ second
        cases text with
        | nil =>
            obtain ⟨tail, rfl⟩ := List.head?_eq_some_iff.1 second
            exact Bool.noConfusion meets.inLine
        | cons d text => exact second
      have feed' : c = '\r' → (text ++ rest).head? = some '\n' →
          (text ++ other).head? = some '\n' := by
        rintro rfl second
        cases text with
        | nil =>
            rw [List.cons_append, spaceLength, if_pos ⟨rfl, second⟩] at within
            exact absurd within (by decide)
        | cons d text => exact second
      have same : (c = '\r' ∧ (text ++ other).head? = some '\n') ↔
          (c = '\r' ∧ (text ++ rest).head? = some '\n') :=
        and_congr_right fun isReturn => ⟨feed isReturn, feed' isReturn⟩
      simp only [List.cons_append, spaceLength, same]

theorem escape_meets (meets : Meets rest other) (calm : IsCalm ('\\' :: text) rest other)
    (written : text ≠ []) (within : (escape (text ++ rest)).2 ≤ text.length) :
    escape (text ++ other) = escape (text ++ rest) := by
  obtain ⟨c, text, rfl⟩ := List.exists_cons_of_ne_nil written
  by_cases hex : isHexDigit c = true
  · have inside := length_escapeDigits_le (c :: text)
    have reads {more : Text} (ends : endsToken more = true) : escape (c :: text ++ more) =
        (charOfDigits (escapeDigits (c :: text)), (escapeDigits (c :: text)).length +
          spaceLength ((c :: text).drop (escapeDigits (c :: text)).length ++ more)) := by
      rw [List.cons_append, escape_of_isHexDigit hex, ← List.cons_append,
        escapeDigits_meets _ ends, List.drop_append_of_le_length inside]
    have spaces (ended : (c :: text).drop (escapeDigits (c :: text)).length = []) :
        SpacesMeet rest other := by
      refine calm.spaces.resolve_right fun noEscape => ?_
      rw [endsInEscape_of_escapeDigits (List.drop_eq_nil_iff.1 ended)] at noEscape
      exact Bool.noConfusion noEscape
    rw [reads meets.ends] at within
    rw [reads meets.ends, reads meets.ends', spaceLength_meets meets spaces]
    rw [List.length_drop]
    dsimp only at within
    omega
  · simp only [List.cons_append, escape, hex]
    rfl

/-- Behind an escape, the rest of a text is as calm as the text. -/
theorem IsCalm.behind_escape {text : Text} (calm : IsCalm ('\\' :: text) rest other)
    (written : text ≠ []) (within : (escape (text ++ rest)).2 ≤ text.length) :
    IsCalm (text.drop (escape (text ++ rest)).2) rest other := by
  obtain ⟨c, text, rfl⟩ := List.exists_cons_of_ne_nil written
  obtain ⟨more, length, plain⟩ := escape_cons c (text ++ rest)
  rw [List.cons_append, length, List.length_cons] at within
  rw [List.cons_append, length, List.drop_succ_cons]
  rw [List.take_append_of_le_length (Nat.le_of_succ_le_succ within)] at plain
  have behind : IsCalm text rest other :=
    ⟨calm.inLine, calm.spaces.imp_right fun noEscape =>
      endsInEscape_of_cons (endsInEscape_of_cons noEscape)⟩
  exact behind.drop more fun escapes => absurd (plain _ escapes) (by decide)

/-- **A name is read to its end.** -/
theorem name_meets (meets : Meets rest other) (calm : IsCalm text rest other)
    (within : (name (text ++ rest)).2 ≤ text.length) :
    name (text ++ other) = name (text ++ rest) := by
  induction text using induct_drop with
  | nil => exact (name_of_endsToken meets.ends').trans (name_of_endsToken meets.ends).symm
  | cons c text ih =>
      have goesOn {decoded : Char} {more : Nat} (inside : more ≤ text.length)
          (unit : nameUnit? c (text ++ rest) = some (decoded, more))
          (unit' : nameUnit? c (text ++ other) = some (decoded, more))
          (calm : IsCalm (text.drop more) rest other) :
          name (c :: text ++ other) = name (c :: text ++ rest) := by
        simp only [List.cons_append, name.eq_2, unit, List.length_cons,
          List.drop_append_of_le_length inside] at within
        have same := ih more calm
          (by rw [List.length_drop]; omega)
        simp only [List.cons_append, name.eq_2, unit, unit',
          List.drop_append_of_le_length inside, same]
      by_cases escapes : c = '\\'
      · subst escapes
        have ahead := newlineAhead_meets meets calm
        by_cases breaks : newlineAhead (text ++ rest) = true
        · have none (more : Text) (breaks : newlineAhead (text ++ more) = true) :
              name ('\\' :: text ++ more) = ([], 0) := by
            simp [name.eq_2, nameUnit?, breaks]
          rw [none rest breaks, none other (ahead.trans breaks)]
        · have unit (more : Text) (inLine : newlineAhead (text ++ more) = false) :
              nameUnit? '\\' (text ++ more) = some (escape (text ++ more)) := by
            simp [nameUnit?, inLine]
          have inLine := Bool.eq_false_iff.2 breaks
          have short : (escape (text ++ rest)).2 ≤ text.length := by
            simp only [List.cons_append, name.eq_2, unit rest inLine, List.length_cons]
              at within
            omega
          have written : text ≠ [] := by
            rintro rfl
            rcases calm.inLine with whole | ⟨written, _⟩
            · exact absurd whole (by decide)
            · obtain ⟨d, tail, rfl⟩ := List.exists_cons_of_ne_nil written
              obtain ⟨more, length, _⟩ := escape_cons d tail
              rw [List.nil_append, length] at short
              exact absurd short (Nat.not_succ_le_zero more)
          have same := escape_meets meets calm written short
          have unit' : nameUnit? '\\' (text ++ other) = some (escape (text ++ rest)) := by
            rw [unit other (ahead.trans inLine), same]
          exact goesOn short (unit rest inLine) unit' (calm.behind_escape written short)
      · have plain (more : Text) : nameUnit? c (text ++ more) = nameUnit? c [] := by
          simp [nameUnit?, escapes]
        cases unit : nameUnit? c [] with
        | none => simp only [List.cons_append, name.eq_2, plain, unit]
        | some found =>
            obtain ⟨decoded, more⟩ := found
            have single : more = 0 := by
              rcases nameUnit?_cases unit with ⟨same, _⟩ | ⟨_, same⟩
              · exact absurd same escapes
              · exact same
            subst single
            exact goesOn (Nat.zero_le _) ((plain rest).trans unit) ((plain other).trans unit)
              (calm.of_cons escapes)

end Names

section Tokens

/-- The tokens that end with a mark of their own, if they do not end with the text or the line. -/
def Token.endsItself : Token → Bool
  | string | badString | url | badUrl | comment | function _ => true
  | _ => false

/-- Whether a token ends among `length` further characters without such a mark. -/
structure EndsFreely (length : Nat) (munched : Munched) : Prop where
  within : munched.2 ≤ length
  plain : munched.1.endsItself = false

/-- The branches of the lexer are chosen in the same way in front of another text. -/
theorem EndsFreely.ite {p : Prop} [Decidable p] {first first' second second' : Munched}
    {length : Nat} (free : EndsFreely length (if p then first else second))
    (chosen : p → EndsFreely length first → first' = first)
    (other : EndsFreely length second → second' = second) :
    (if p then first' else second') = if p then first else second := by
  by_cases holds : p
  · rw [if_pos holds] at free
    rw [if_pos holds, if_pos holds, chosen holds free]
  · rw [if_neg holds] at free
    rw [if_neg holds, if_neg holds, other free]

theorem startsWith_meets {start : Text} (goesOn : ∀ sign ∈ start, endsToken [sign] = false)
    (meets : Meets rest other) (text : Text) :
    Text.startsWith start (text ++ other) = Text.startsWith start (text ++ rest) := by
  induction start generalizing text with
  | nil => rfl
  | cons c start ih =>
      obtain ⟨first, later⟩ := List.forall_mem_cons.1 goesOn
      cases text with
      | nil =>
          have differs {more : Text} (ends : endsToken more = true) :
              Text.startsWith (c :: start) more = false := by
            apply Bool.eq_false_iff.2
            intro begins
            obtain ⟨tail, rfl⟩ := List.isPrefixOf_iff_prefix.1 begins
            exact head?_ne_of_endsToken ends first rfl
          exact (differs meets.ends').trans (differs meets.ends).symm
      | cons d text => exact congrArg (c == d && ·) (ih later text)

theorem startsWith_angle_meets (meets : Meets rest other)
    (within : Text.startsWith ['-', '>'] (text ++ rest) = true → 2 ≤ text.length) :
    Text.startsWith ['-', '>'] (text ++ other) = Text.startsWith ['-', '>'] (text ++ rest) := by
  cases text with
  | nil =>
      rw [Bool.eq_false_iff.2 fun begins => absurd (within begins) (by decide)]
      refine Bool.eq_false_iff.2 fun begins => ?_
      obtain ⟨tail, rfl⟩ := List.isPrefixOf_iff_prefix.1 begins
      exact @head?_ne_of_endsToken _ meets.ends' '-' rfl rfl
  | cons c text =>
      cases text with
      | nil =>
          rw [Bool.eq_false_iff.2 fun begins => Nat.not_succ_le_self 1 (within begins)]
          refine Bool.eq_false_iff.2 fun begins => meets.noAngle ?_
          obtain ⟨tail, same⟩ := List.isPrefixOf_iff_prefix.1 begins
          exact congrArg List.head? (List.cons.inj same).2.symm
      | cons d text => rfl

theorem takeWhile_isSpace_meets
    (spaces : (∀ d ∈ text, isSpace d = true) → SpacesMeet rest other)
    (within : ((text ++ rest).takeWhile isSpace).length ≤ text.length) :
    (text ++ other).takeWhile isSpace = (text ++ rest).takeWhile isSpace := by
  induction text with
  | nil =>
      have none : rest.takeWhile isSpace = [] := List.length_eq_zero_iff.1 (Nat.le_zero.1 within)
      rw [List.nil_append, List.nil_append, none]
      cases other with
      | nil => rfl
      | cons c other =>
          refine List.takeWhile_cons_of_neg fun space => ?_
          obtain ⟨d, first, space'⟩ := spaces (List.forall_mem_nil _) c rfl space
          obtain ⟨tail, rfl⟩ := List.head?_eq_some_iff.1 first
          rw [List.takeWhile_cons_of_pos space'] at none
          exact List.cons_ne_nil _ _ none
  | cons c text ih =>
      by_cases space : isSpace c = true
      · rw [List.cons_append, List.takeWhile_cons_of_pos space, List.length_cons,
          List.length_cons] at within
        rw [List.cons_append, List.cons_append, List.takeWhile_cons_of_pos space,
          List.takeWhile_cons_of_pos space,
          ih (fun blank => spaces (List.forall_mem_cons.2 ⟨space, blank⟩))
            (Nat.le_of_succ_le_succ within)]
      · rw [List.cons_append, List.cons_append, List.takeWhile_cons_of_neg space,
          List.takeWhile_cons_of_neg space]

theorem munchNumber_meets (meets : Meets rest other) (calm : IsCalm (c :: text) rest other)
    (free : EndsFreely text.length (munchNumber (c :: text ++ rest))) :
    munchNumber (c :: text ++ other) = munchNumber (c :: text ++ rest) := by
  have number := numberLength_meets text meets.ends c
  have number' := numberLength_meets text meets.ends' c
  have inside := numberLength_le (c :: text)
  have ahead (more : Text) := @List.drop_append_of_le_length _ _ more _ inside
  have behind : IsCalm ((c :: text).drop (numberLength (c :: text))) rest other := by
    refine calm.drop _ fun escapes => ?_
    exact absurd (PlainFor.number (c :: text) _ escapes) (by decide)
  have within := free.within
  rw [munchNumber_eq, number, ahead] at within
  rw [munchNumber_eq, munchNumber_eq, number, number', ahead, ahead,
    startsIdent_meets meets behind]
  simp only [@head?_meets _ _ '%' rfl meets]
  by_cases percent : ((c :: text).drop (numberLength (c :: text)) ++ rest).head? = some '%'
  · rw [if_pos percent, if_pos percent]
  rw [if_neg percent] at within ⊢
  rw [if_neg percent]
  by_cases unit :
      startsIdent ((c :: text).drop (numberLength (c :: text)) ++ rest) = true
  · rw [if_pos unit] at within ⊢
    rw [if_pos unit, name_meets meets behind]
    rw [List.length_drop, List.length_cons]
    dsimp only at within
    omega
  · rw [if_neg unit, if_neg unit]

/-- No parenthesis is glued to an identifier. -/
theorem noCall_of_plain (plain : (munchIdent text).1.endsItself = false) :
    (text.drop (name text).2).head? ≠ some '(' := by
  intro call
  obtain ⟨argument, call⟩ := List.head?_eq_some_iff.1 call
  rw [munchIdent_of_call call] at plain
  repeat' split at plain
  · exact Bool.noConfusion plain
  · rcases urlLength_token (argument.drop (argument.takeWhile isSpace).length) with same | same
    · rw [same] at plain
      exact Bool.noConfusion plain
    · rw [same] at plain
      exact Bool.noConfusion plain
  · exact Bool.noConfusion plain

theorem munchIdent_meets (meets : Meets rest other) (calm : IsCalm (c :: text) rest other)
    (free : EndsFreely text.length (munchIdent (c :: text ++ rest))) :
    munchIdent (c :: text ++ other) = munchIdent (c :: text ++ rest) := by
  obtain ⟨within, plain⟩ := free
  have noCall := noCall_of_plain plain
  rw [munchIdent_of_plain noCall] at within
  have length : (name (c :: text ++ rest)).2 ≤ (c :: text).length := by
    rw [List.length_cons]
    dsimp only at within
    omega
  have same := name_meets meets calm length
  have noCall' : ((c :: text ++ other).drop (name (c :: text ++ other)).2).head? ≠ some '(' := by
    rw [List.drop_append_of_le_length length] at noCall
    rw [same, List.drop_append_of_le_length length]
    exact mt (head?_meets rfl meets _).1 noCall
  rw [munchIdent_of_plain noCall, munchIdent_of_plain noCall', same]

/-- **A token that ends in front of a text ends in front of another one, too, unless it goes on with
one of them.** -/
theorem munch_meets (meets : Meets rest other) (calm : IsCalm (c :: text) rest other)
    (noStar : c = '/' → text = [] → other.head? ≠ some '*')
    (noSpace : isSpace c = true → (∀ d ∈ text, isSpace d = true) → SpacesMeet rest other)
    (free : EndsFreely text.length (munch c (text ++ rest))) :
    munch c (text ++ other) = munch c (text ++ rest) := by
  have here : startsIdent (c :: (text ++ other)) = startsIdent (c :: (text ++ rest)) :=
    @startsIdent_meets (c :: text) _ _ meets calm
  have first : ((text ++ other).head?.any fun d => d.isDigit || d == '-') =
      (text ++ rest).head?.any fun d => d.isDigit || d == '-' := by
    cases text with
    | nil =>
        exact (any_head?_of_endsToken meets.ends').trans (any_head?_of_endsToken meets.ends).symm
    | cons d text => rfl
  have marks : ∀ sign ∈ ['!', '-', '-'], endsToken [sign] = false :=
    List.forall_mem_cons.2 ⟨rfl, List.forall_mem_cons.2 ⟨rfl, List.forall_mem_singleton.2 rfl⟩⟩
  dsimp only [munch] at free ⊢
  rw [here, first, digits_meets text meets.ends', ← digits_meets text meets.ends,
    startsNumber_meets text meets.ends', ← startsNumber_meets text meets.ends,
    startsWith_meets marks meets]
  simp only [@head?_meets _ _ '=' rfl meets]
  -- One branch of the lexer after the other, in its order.
  refine free.ite (fun space free => ?space) fun free => ?_
  case space => rw [takeWhile_isSpace_meets (noSpace space) free.within]
  refine free.ite (fun _ free => ?string) fun free => ?_
  case string =>
    have plain := free.plain
    dsimp only at plain
    split at plain <;> exact Bool.noConfusion plain
  refine free.ite (fun isHash free => ?hash) fun free => ?_
  case hash =>
    have calm := calm.of_cons (by rw [isHash]; decide)
    rw [startsIdent_meets meets calm]
    refine free.ite (fun _ free => ?_) fun free => free.ite (fun _ free => ?_) fun _ => rfl
    · rw [name_meets meets calm free.within]
    · rw [name_meets meets calm free.within]
  iterate 10 refine free.ite (fun _ _ => rfl) fun free => ?_
  refine free.ite (fun _ free => munchNumber_meets meets calm free) fun free => ?_
  have isClose : (c = '-' ∧ Text.startsWith ['-', '>'] (text ++ other) = true) ↔
      (c = '-' ∧ Text.startsWith ['-', '>'] (text ++ rest) = true) := by
    refine and_congr_right fun isHyphen => ?_
    rw [startsWith_angle_meets meets fun begins => ?_]
    have within := free.within
    rwa [if_pos ⟨isHyphen, begins⟩] at within
  simp only [isClose]
  iterate 2 refine free.ite (fun _ _ => rfl) fun free => ?_
  have noComment : ¬ (c = '/' ∧ (text ++ rest).head? = some '*') := by
    intro isComment
    have plain := free.plain
    rw [if_pos isComment] at plain
    exact Bool.noConfusion plain
  have noComment' : ¬ (c = '/' ∧ (text ++ other).head? = some '*') := by
    rintro ⟨isSlash, star⟩
    cases text with
    | nil => exact noStar isSlash rfl star
    | cons d text => exact noComment ⟨isSlash, star⟩
  rw [if_neg noComment] at free
  rw [if_neg noComment, if_neg noComment']
  have isAt : (c = '@' ∧ startsIdent (text ++ other) = true) ↔
      (c = '@' ∧ startsIdent (text ++ rest) = true) := by
    refine and_congr_right fun isAt => ?_
    rw [startsIdent_meets meets (calm.of_cons (by rw [isAt]; decide))]
  simp only [isAt]
  refine free.ite (fun isAt free => ?atKeyword) fun free => ?_
  case atKeyword =>
    rw [name_meets meets (calm.of_cons (by rw [isAt.1]; decide)) free.within]
  exact free.ite (fun _ free => munchIdent_meets meets calm free) fun _ => rfl

theorem escape_le (text : Text) : (escape text).2 ≤ text.length := by
  cases text with
  | nil => exact Nat.le_refl 0
  | cons c text =>
      by_cases hex : isHexDigit c = true
      · have inside := length_escapeDigits_le (c :: text)
        have spaces := spaceLength_le ((c :: text).drop (escapeDigits (c :: text)).length)
        rw [List.length_drop] at spaces
        rw [escape_of_isHexDigit hex]
        dsimp only
        omega
      · simp only [escape, hex, Bool.false_eq_true, ↓reduceIte, List.length_cons]
        split <;> omega

theorem name_le (text : Text) : (name text).2 ≤ text.length := by
  induction text using induct_drop with
  | nil =>
      rw [name]
      exact Nat.le_refl 0
  | cons c text ih =>
      rw [name, List.length_cons]
      cases unit : nameUnit? c text with
      | none => exact Nat.zero_le _
      | some found =>
          obtain ⟨decoded, more⟩ := found
          have inside : more ≤ text.length := by
            rcases nameUnit?_cases unit with ⟨_, _, same⟩ | ⟨_, rfl⟩
            · have := escape_le text
              rwa [same] at this
            · exact Nat.zero_le _
          have behind := ih more
          rw [List.length_drop] at behind
          dsimp only
          omega

/-- A token without a mark at its end takes no more than there is. -/
theorem endsFreely_munch (plain : (munch c text).1.endsItself = false) :
    EndsFreely text.length (munch c text) := by
  refine ⟨?_, plain⟩
  have cut := munches c text
  generalize munch c text = munched at cut plain
  cases cut with
  | space _ => exact length_takeWhile_le _ _
  | string _ =>
      dsimp only at plain
      split at plain <;> exact Bool.noConfusion plain
  | hash _ _ => exact name_le text
  | matcher follows =>
      obtain ⟨tail, rfl⟩ := List.head?_eq_some_iff.1 follows
      exact Nat.succ_le_succ (Nat.zero_le _)
  | sign _ => exact Nat.zero_le _
  | number _ =>
      have inside := numberLength_le (c :: text)
      have unit := name_le ((c :: text).drop (numberLength (c :: text)))
      rw [List.length_drop] at unit
      rw [List.length_cons] at inside unit
      rw [munchNumber_eq]
      split
      · rename_i percent
        obtain ⟨tail, behind⟩ := List.head?_eq_some_iff.1 percent
        have length := congrArg List.length behind
        rw [List.length_drop, List.length_cons, List.length_cons] at length
        dsimp only
        omega
      · split
        · dsimp only
          omega
        · dsimp only
          omega
  | commentClose _ follows => exact follows.length_le
  | commentOpen _ follows => exact follows.length_le
  | comment _ _ => exact Bool.noConfusion plain
  | atKeyword _ => exact name_le text
  | ident _ =>
      have inside := name_le (c :: text)
      rw [List.length_cons] at inside
      rw [munchIdent_of_plain (noCall_of_plain plain)]
      dsimp only
      omega
  | delim _ _ => exact Nat.zero_le _

end Tokens

end Css

end ScssLint
