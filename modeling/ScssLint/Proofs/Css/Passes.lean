import ScssLint.Css.Lexer
import ScssLint.Proofs.Comment.Passes

/-! # The scanner passes over tokens

Strings, block comments, names and numbers reach equally far for the comment scanner and for the
lexer (`Css.passes_string`, `Css.passes_comment`, `Css.passes_name`, `Css.passes_number`).
-/

namespace ScssLint

namespace Css

open Comment

open Comment.Scanner (isPlain isPlain_of_isSpace)

variable {before rest : Text} {c : Char}

/-- What holds of no character with a meaning to the scanner holds of plain characters only. -/
theorem isPlain_of_test {test : Char → Bool}
    (fails : ['/', '"', '\'', '\\', '('].any test = false) (passed : test c = true) :
    isPlain c = true := by
  have other {d : Char} (special : d ∈ ['/', '"', '\'', '\\', '(']) : (c != d) = true := by
    apply bne_iff_ne.2
    rintro rfl
    exact List.any_eq_false.1 fails c special passed
  rw [isPlain, other (by simp), other (by simp), other (by simp), other (by simp), other (by simp)]
  rfl

theorem isPlain_of_isNameChar (name : isNameChar c = true) : isPlain c = true :=
  isPlain_of_test rfl name

theorem isPlain_of_isDigit (digit : c.isDigit = true) : isPlain c = true :=
  isPlain_of_test rfl digit

theorem isPlain_of_isHexDigit (digit : isHexDigit c = true) : isPlain c = true :=
  isPlain_of_test rfl digit

/-- The inside of a block comment. -/
theorem leads_comment (start : Nat) (inlineBefore : Bool) (body before text : Text) :
    Leads (.block start inlineBefore body) .code before (text.take (commentLength text))
      (text.drop (commentLength text)) := by
  fun_induction commentLength text generalizing body before with
  | case1 => exact Leads.atEnd rfl rfl before
  | case2 rest =>
      apply Leads.step ['/'] id
      intro flag
      simp [Scanner.react]
  | case3 c rest noCloser ih =>
      have other : ¬ (c = '*' ∧ rest.head? = some '/') := by
        rintro ⟨rfl, second⟩
        obtain ⟨tail, rfl⟩ := List.head?_eq_some_iff.1 second
        exact noCloser tail rfl rfl
      rw [Nat.add_comm, List.take_succ_cons, List.drop_succ_cons]
      refine Leads.cons (Leads.step [] (if c = '\n' then false else ·) fun flag => ?_)
        (ih (c :: body) (c :: before))
      simp only [List.nil_append, List.take_append_drop, Scanner.react, other, ↓reduceIte,
        List.length_nil]

/-- **A block comment.** -/
theorem passes_comment (before text : Text) :
    Passes before ('/' :: '*' :: text.take (commentLength text))
      (text.drop (commentLength text)) := by
  intro flag
  obtain ⟨later, reads⟩ :=
    leads_comment (Text.bytes before) flag [] ('*' :: '/' :: before) text flag
  refine ⟨later, ?_⟩
  rw [List.cons_append, List.cons_append, Scanner.toList_opensBlock, reads, List.reverse_cons,
    List.reverse_cons, List.append_assoc, List.append_assoc]
  rfl

theorem isSpace_of_isNewline (breaks : isNewline c = true) : isSpace c = true := by
  simp only [isNewline, Bool.or_eq_true, beq_iff_eq] at breaks
  rcases breaks with (rfl | rfl) | rfl <;> rfl

theorem isSpace_of_mem_take_spaceLength {text : Text} (member : c ∈ text.take (spaceLength text)) :
    isSpace c = true := by
  cases text with
  | nil => exact absurd member (by simp)
  | cons d rest =>
      simp only [spaceLength] at member
      split at member
      · rename_i returns
        obtain ⟨rfl, second⟩ := returns
        obtain ⟨tail, rfl⟩ := List.head?_eq_some_iff.1 second
        simp only [List.take_succ_cons, List.take_zero, List.mem_cons, List.not_mem_nil,
          or_false] at member
        rcases member with rfl | rfl <;> rfl
      · split at member
        · rename_i space
          rw [List.take_succ_cons, List.take_zero, List.mem_singleton] at member
          rwa [member]
        · exact absurd member (by simp)

/-- An escape takes at least one character, and behind that one only digits and white space. -/
theorem escape_cons (d : Char) (tail : Text) :
    ∃ more, (escape (d :: tail)).2 = more + 1 ∧
      ∀ x ∈ tail.take more, isHexDigit x = true ∨ isSpace x = true := by
  by_cases hex : isHexDigit d = true
  · have digits : ((d :: tail).take 6).takeWhile isHexDigit =
        d :: (tail.take 5).takeWhile isHexDigit := by
      rw [List.take_succ_cons, List.takeWhile_cons_of_pos hex]
    have first : tail.take ((tail.take 5).takeWhile isHexDigit).length =
        (tail.take 5).takeWhile isHexDigit :=
      (List.prefix_iff_eq_take.1 ((List.takeWhile_prefix _).trans (List.take_prefix 5 tail))).symm
    refine ⟨((tail.take 5).takeWhile isHexDigit).length +
      spaceLength (tail.drop ((tail.take 5).takeWhile isHexDigit).length), ?_, ?_⟩
    · simp only [escape, hex, ↓reduceIte, digits, List.length_cons, List.drop_succ_cons]
      omega
    · intro x member
      rw [List.take_add, first, List.mem_append] at member
      rcases member with digit | space
      · exact .inl (List.all_eq_true.1 List.all_takeWhile x digit)
      · exact .inr (isSpace_of_mem_take_spaceLength space)
  · refine ⟨0, ?_, by simp⟩
    simp only [escape, hex, Bool.false_eq_true, ↓reduceIte]
    split <;> rfl

/-- What is left of an escape behind its first character is plain. -/
theorem isPlain_of_mem_escape (digitOrSpace : isHexDigit c = true ∨ isSpace c = true) :
    isPlain c = true :=
  digitOrSpace.elim isPlain_of_isHexDigit isPlain_of_isSpace

/-- Behind a unit of `1 + more` characters a text is cut at a length like the rest behind it. -/
theorem take_unit (c : Char) (rest : Text) (more length : Nat) :
    (c :: rest).take (1 + more + length) = (c :: rest.take more) ++ (rest.drop more).take length ∧
      (c :: rest).drop (1 + more + length) = (rest.drop more).drop length := by
  have shape : 1 + more + length = (more + length) + 1 := by omega
  rw [shape, List.take_succ_cons, List.drop_succ_cons, List.take_add, List.drop_drop]
  exact ⟨rfl, rfl⟩

/-- How many characters are read along with a character of a string. -/
def stringUnitLength (c : Char) (rest : Text) : Nat :=
  if c = '\\' then
    if newlineAhead rest then spaceLength rest else (escape rest).2
  else
    0

/-- A character of a string with what is read along with it. -/
theorem leads_stringUnit {quote : Char} (mark : quote = '"' ∨ quote = '\'') (other : c ≠ quote)
    (before rest : Text) :
    Leads (.quoted quote) (.quoted quote) before (c :: rest.take (stringUnitLength c rest))
      (rest.drop (stringUnitLength c rest)) := by
  have inLine : '\n' ≠ quote := by rcases mark with rfl | rfl <;> decide
  have inside {d : Char} (plain : isPlain d = true) : d ≠ quote ∧ d ≠ '\\' := by
    constructor
    · rintro rfl
      rcases mark with rfl | rfl <;> exact absurd plain (by decide)
    · rintro rfl
      exact absurd plain (by decide)
  have plainText (text before rest : Text) (plain : ∀ d ∈ text, isPlain d = true) :
      Leads (.quoted quote) (.quoted quote) before text rest := by
    induction text generalizing before with
    | nil => exact Leads.nil _ before rest
    | cons d text ih =>
        obtain ⟨noQuote, noBackslash⟩ := inside (plain d List.mem_cons_self)
        exact Leads.cons (Leads.quoted noQuote noBackslash before _)
          (ih (d :: before) fun x member => plain x (List.mem_cons_of_mem d member))
  by_cases isBackslash : c = '\\'
  · subst isBackslash
    simp only [stringUnitLength, ↓reduceIte]
    cases rest with
    | nil => exact Leads.quotedBackslash before
    | cons d tail =>
        -- Behind the first escaped character only digits and white space are read along.
        obtain ⟨more, length, plain⟩ : ∃ more,
            (if newlineAhead (d :: tail) then spaceLength (d :: tail) else (escape (d :: tail)).2) =
              more + 1 ∧ ∀ x ∈ tail.take more, isPlain x = true := by
          split
          · rename_i breaks
            have space : isSpace d = true := isSpace_of_isNewline breaks
            by_cases returns : d = '\r' ∧ tail.head? = some '\n'
            · refine ⟨1, by simp only [spaceLength, returns, and_self, ↓reduceIte], ?_⟩
              obtain ⟨tail, rfl⟩ := List.head?_eq_some_iff.1 returns.2
              simp only [List.take_succ_cons, List.take_zero, List.mem_singleton, forall_eq]
              rfl
            · refine ⟨0, by simp only [spaceLength, returns, space, ↓reduceIte], by simp⟩
          · obtain ⟨more, length, digits⟩ := escape_cons d tail
            exact ⟨more, length, fun x member => isPlain_of_mem_escape (digits x member)⟩
        rw [length, List.take_succ_cons, List.drop_succ_cons]
        exact Leads.trans (Leads.quotedEscape inLine before tail)
          (List.take_append_drop more tail).symm (plainText _ _ _ plain)
  · simp only [stringUnitLength, isBackslash, ↓reduceIte]
    exact Leads.quoted other isBackslash before rest

/-- The inside of a string that no line break cuts off. -/
theorem leads_string {quote : Char} (mark : quote = '"' ∨ quote = '\'') (before text : Text)
    (whole : (stringLength quote text).2 = false) :
    Leads (.quoted quote) .code before (text.take (stringLength quote text).1)
      (text.drop (stringLength quote text).1) := by
  fun_induction stringLength quote text generalizing before with
  | case1 => exact Leads.atEnd rfl rfl before
  | case2 rest => exact Leads.closesString mark before rest
  | case3 c rest other breaks => exact absurd whole (by simp)
  | case4 c rest other inside escaped length cut reads ih =>
      obtain ⟨taken, left⟩ := take_unit c rest escaped length
      rw [reads] at ih
      rw [taken, left]
      exact Leads.trans (leads_stringUnit mark other before rest) (List.take_append_drop _ _).symm
        (ih _ whole)

/-- **A string that no line break cuts off.** -/
theorem passes_string {quote : Char} (mark : quote = '"' ∨ quote = '\'') (before text : Text)
    (whole : (stringLength quote text).2 = false) :
    Passes before (quote :: text.take (stringLength quote text).1)
      (text.drop (stringLength quote text).1) :=
  Leads.trans (Leads.opensString mark before text) (List.take_append_drop _ text).symm
    (leads_string mark _ text whole)

/-- An escape that stands for a character. -/
theorem passes_escape (before : Text) (inLine : newlineAhead rest = false) :
    Passes before ('\\' :: rest.take (escape rest).2) (rest.drop (escape rest).2) := by
  cases rest with
  | nil => exact Leads.backslash (by simp) before
  | cons d tail =>
      obtain ⟨more, length, digits⟩ := escape_cons d tail
      have noBreak : d ≠ '\n' := by
        rintro rfl
        exact Bool.noConfusion inLine
      rw [length, List.take_succ_cons, List.drop_succ_cons]
      exact Leads.trans (Leads.escape noBreak before tail) (List.take_append_drop more tail).symm
        (Leads.of_plain (fun x member => isPlain_of_mem_escape (digits x member)) _ _)

/-- A name goes on with an escape or with a character that stands for itself. -/
theorem nameUnit?_cases {decoded : Char} {more : Nat}
    (unit : nameUnit? c rest = some (decoded, more)) :
    c = '\\' ∧ newlineAhead rest = false ∧ escape rest = (decoded, more) ∨
      isNameChar c = true ∧ more = 0 := by
  simp only [nameUnit?] at unit
  split at unit
  · rename_i isBackslash
    split at unit
    · exact absurd unit (by simp)
    · rename_i inLine
      exact .inl ⟨isBackslash, Bool.eq_false_iff.2 inLine, Option.some.inj unit⟩
  · split at unit
    · rename_i isNull
      subst isNull
      exact .inr ⟨rfl, (congrArg Prod.snd (Option.some.inj unit)).symm⟩
    · split at unit
      · rename_i isName
        exact .inr ⟨isName, (congrArg Prod.snd (Option.some.inj unit)).symm⟩
      · exact absurd unit (by simp)

/-- A character of a name, or an escape in it. -/
theorem passes_nameUnit {decoded : Char} {more : Nat} (before : Text)
    (unit : nameUnit? c rest = some (decoded, more)) :
    Passes before (c :: rest.take more) (rest.drop more) := by
  rcases nameUnit?_cases unit with ⟨rfl, inLine, escaped⟩ | ⟨isName, rfl⟩
  · have passes := passes_escape before inLine
    rwa [escaped] at passes
  · exact Leads.of_plain (by simpa using isPlain_of_isNameChar isName) before _

/-- **A name.** -/
theorem passes_name (before text : Text) :
    Passes before (text.take (name text).2) (text.drop (name text).2) := by
  fun_induction name text generalizing before with
  | case1 => exact Leads.nil _ before []
  | case2 c rest noUnit => exact Leads.nil _ before (c :: rest)
  | case3 c rest decoded more unit tail length reads ih =>
      obtain ⟨taken, left⟩ := take_unit c rest more length
      rw [reads] at ih
      rw [taken, left]
      exact Leads.trans (passes_nameUnit before unit) (List.take_append_drop _ _).symm (ih _)

theorem take_length_takeWhile (test : Char → Bool) (text : Text) :
    text.take (text.takeWhile test).length = text.takeWhile test :=
  (List.prefix_iff_eq_take.1 (List.takeWhile_prefix test)).symm

/-- Whether the first `count` characters of a text mean nothing to the scanner. -/
def PlainFor (count : Nat) (text : Text) : Prop :=
  ∀ x ∈ text.take count, isPlain x = true

theorem PlainFor.add {first second : Nat} {text : Text} (start : PlainFor first text)
    (behind : PlainFor second (text.drop first)) : PlainFor (first + second) text := by
  intro x member
  rw [List.take_add, List.mem_append] at member
  exact member.elim (start x) (behind x)

theorem PlainFor.zero (text : Text) : PlainFor 0 text := by
  simp [PlainFor]

theorem PlainFor.one {text : Text} (plain : isPlain c = true) (first : text.head? = some c) :
    PlainFor 1 text := by
  obtain ⟨tail, rfl⟩ := List.head?_eq_some_iff.1 first
  simpa [PlainFor] using plain

theorem PlainFor.digits (text : Text) : PlainFor (digits text) text := by
  intro x member
  rw [Css.digits, take_length_takeWhile] at member
  exact isPlain_of_isDigit (List.all_eq_true.1 List.all_takeWhile x member)

theorem PlainFor.sign (text : Text) :
    PlainFor (if text.head? = some '+' ∨ text.head? = some '-' then 1 else 0) text := by
  split
  · rename_i signed
    rcases signed with plus | minus
    · exact one rfl plus
    · exact one rfl minus
  · exact zero text

theorem PlainFor.fraction (text : Text) : PlainFor (fractionLength text) text := by
  unfold fractionLength
  split
  · rename_i rest
    split
    · exact zero _
    · exact (one rfl rfl).add (digits rest)
  · exact zero text

theorem PlainFor.exponent (text : Text) : PlainFor (exponentLength text) text := by
  cases text with
  | nil => exact zero []
  | cons c rest =>
      simp only [exponentLength]
      split
      · rename_i letter
        have first : PlainFor 1 (c :: rest) := by
          rcases letter with rfl | rfl <;> exact one rfl rfl
        by_cases power : Css.digits (rest.drop
            (if rest.head? = some '+' ∨ rest.head? = some '-' then 1 else 0)) = 0
        · rw [if_pos power]
          exact zero _
        · rw [if_neg power]
          apply (first.add (sign rest)).add
          rw [Nat.add_comm 1, List.drop_succ_cons]
          exact digits _
      · exact zero _

/-- The number of characters of a number without its unit. -/
def numberLength (text : Text) : Nat :=
  let sign := if text.head? = some '+' ∨ text.head? = some '-' then 1 else 0
  let whole := sign + digits (text.drop sign)
  let point := whole + fractionLength (text.drop whole)
  point + exponentLength (text.drop point)

theorem PlainFor.number (text : Text) : PlainFor (numberLength text) text :=
  (((sign text).add (digits _)).add (fraction _)).add (exponent _)

theorem PlainFor.passes {count : Nat} {text : Text} (plain : PlainFor count text) (before : Text) :
    Passes before (text.take count) (text.drop count) :=
  Leads.of_plain plain before _

/-- A count that includes the first character. -/
theorem passes_pred {count : Nat} (plain : count = 0 → isPlain c = true)
    (passes : Passes before ((c :: rest).take count) ((c :: rest).drop count)) :
    Passes before (c :: rest.take (count - 1)) (rest.drop (count - 1)) := by
  cases count with
  | zero => exact Leads.of_plain (by simpa using plain rfl) before _
  | succ count => exact passes

theorem munchNumber_eq (text : Text) :
    munchNumber text =
      if (text.drop (numberLength text)).head? = some '%' then
        (.percentage, numberLength text)
      else if startsIdent (text.drop (numberLength text)) then
        (.dimension, numberLength text + (name (text.drop (numberLength text))).2 - 1)
      else
        (.number, numberLength text - 1) := rfl

/-- **A number with its unit.** -/
theorem passes_number (before : Text) (plain : isPlain c = true) :
    Passes before (c :: rest.take (munchNumber (c :: rest)).2)
      (rest.drop (munchNumber (c :: rest)).2) := by
  have number := (PlainFor.number (c :: rest)).passes before
  rw [munchNumber_eq]
  split
  · rename_i percent
    have whole := (PlainFor.number (c :: rest)).add (PlainFor.one rfl percent)
    have passed := passes_pred (fun _ => plain) (whole.passes before)
    rw [Nat.add_sub_cancel] at passed
    exact passed
  · split
    · refine passes_pred (fun _ => plain) ?_
      rw [List.take_add, ← List.drop_drop]
      exact Leads.trans number (List.take_append_drop _ _).symm (passes_name _ _)
    · exact passes_pred (fun _ => plain) number

end Css

end ScssLint
