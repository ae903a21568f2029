import ScssLint.Proofs.Css.Lexing
import ScssLint.Proofs.Css.Tokens

/-! # What is read in front of a stop

A token that ends in front of a closing curly bracket or a slash is the same whatever follows them
(`Css.munch_stop`). So a text is cut into the same tokens whatever follows a stop behind it
(`Css.lexemesFrom_stop`), and the inside of a block wherever the block stands
(`Css.lexemesFrom_curly`).
-/

namespace ScssLint

namespace Css

variable {text rest more others : Text}

theorem takeWhile_append {test : Char → Bool} (stops : ∀ c ∈ rest.head?, test c = false) :
    (text ++ rest).takeWhile test = text.takeWhile test := by
  induction text with
  | nil =>
      cases rest with
      | nil => rfl
      | cons c rest => exact List.takeWhile_cons_of_neg (by simp [stops c rfl])
  | cons c text ih => simp only [List.cons_append, List.takeWhile_cons, ih]

theorem length_takeWhile_le (test : Char → Bool) (text : Text) :
    (text.takeWhile test).length ≤ text.length :=
  (List.takeWhile_prefix test).length_le

/-- Whether no number goes on with a text. -/
def stopsNumber : Text → Bool
  | [] => true
  | c :: _ => !c.isDigit && c != '.' && c != 'e' && c != 'E' && c != '+' && c != '-'

section Numbers

theorem stopsNumber_head {c : Char} (stops : stopsNumber rest = true) (first : c ∈ rest.head?) :
    c.isDigit = false ∧ c ≠ '.' ∧ c ≠ 'e' ∧ c ≠ 'E' ∧ c ≠ '+' ∧ c ≠ '-' := by
  obtain ⟨tail, rfl⟩ := List.head?_eq_some_iff.1 first
  simpa [stopsNumber, and_assoc] using stops

theorem digits_append (text : Text) (stops : stopsNumber rest = true) :
    digits (text ++ rest) = digits text := by
  rw [digits, digits, takeWhile_append fun c first => (stopsNumber_head stops first).1]

theorem digits_le (text : Text) : digits text ≤ text.length :=
  length_takeWhile_le _ text

theorem fractionLength_append (text : Text) (stops : stopsNumber rest = true) :
    fractionLength (text ++ rest) = fractionLength text := by
  cases text with
  | nil =>
      cases rest with
      | nil => rfl
      | cons c rest =>
          rw [List.nil_append, fractionLength.eq_2 _ fun tail same =>
            (stopsNumber_head stops rfl).2.1 (List.cons.inj same).1]
          rfl
  | cons c text =>
      by_cases point : c = '.'
      · subst point
        simp only [List.cons_append, fractionLength, digits_append text stops]
      · rw [List.cons_append, fractionLength.eq_2 _ fun tail same => point (List.cons.inj same).1,
          fractionLength.eq_2 _ fun tail same => point (List.cons.inj same).1]

theorem fractionLength_le (text : Text) : fractionLength text ≤ text.length := by
  unfold fractionLength
  split
  · rename_i rest
    have := digits_le rest
    rw [List.length_cons]
    split <;> omega
  · exact Nat.zero_le _

/-- The number of characters of a sign. -/
def signLength (text : Text) : Nat :=
  if text.head? = some '+' ∨ text.head? = some '-' then 1 else 0

theorem signLength_append (text : Text) (stops : stopsNumber rest = true) :
    signLength (text ++ rest) = signLength text := by
  cases text with
  | nil =>
      have noSign : ¬ (rest.head? = some '+' ∨ rest.head? = some '-') := by
        rintro (plus | minus)
        · exact (stopsNumber_head stops plus).2.2.2.2.1 rfl
        · exact (stopsNumber_head stops minus).2.2.2.2.2 rfl
      rw [List.nil_append, signLength, if_neg noSign]
      rfl
  | cons c text => rfl

theorem signLength_le (text : Text) : signLength text ≤ text.length := by
  cases text with
  | nil => exact Nat.le_refl 0
  | cons c text =>
      unfold signLength
      rw [List.length_cons]
      split <;> omega

theorem exponentLength_cons (c : Char) (text : Text) :
    exponentLength (c :: text) =
      if c = 'e' ∨ c = 'E' then
        if digits (text.drop (signLength text)) = 0 then 0
        else 1 + signLength text + digits (text.drop (signLength text))
      else 0 := rfl

theorem exponentLength_append (text : Text) (stops : stopsNumber rest = true) :
    exponentLength (text ++ rest) = exponentLength text := by
  cases text with
  | nil =>
      cases rest with
      | nil => rfl
      | cons c rest =>
          have other := stopsNumber_head stops (c := c) rfl
          rw [List.nil_append, exponentLength_cons, if_neg (not_or.2 ⟨other.2.2.1, other.2.2.2.1⟩)]
          rfl
  | cons c text =>
      rw [List.cons_append, exponentLength_cons, exponentLength_cons, signLength_append text stops,
        List.drop_append_of_le_length (signLength_le text), digits_append _ stops]

theorem exponentLength_le (text : Text) : exponentLength text ≤ text.length := by
  cases text with
  | nil => exact Nat.le_refl 0
  | cons c text =>
      have sign := signLength_le text
      have power := digits_le (text.drop (signLength text))
      rw [List.length_drop] at power
      rw [exponentLength_cons, List.length_cons]
      repeat' split
      all_goals omega

/-- How many characters of a number stand in front of its exponent. -/
def mantissaLength (text : Text) : Nat :=
  signLength text + digits (text.drop (signLength text)) +
    fractionLength (text.drop (signLength text + digits (text.drop (signLength text))))

theorem mantissaLength_le (text : Text) : mantissaLength text ≤ text.length := by
  have sign := signLength_le text
  have whole := digits_le (text.drop (signLength text))
  have fraction := fractionLength_le
    (text.drop (signLength text + digits (text.drop (signLength text))))
  rw [List.length_drop] at whole fraction
  rw [mantissaLength]
  omega

theorem mantissaLength_append (text : Text) (stops : stopsNumber rest = true) :
    mantissaLength (text ++ rest) = mantissaLength text := by
  have sign := signLength_le text
  have whole := digits_le (text.drop (signLength text))
  rw [List.length_drop] at whole
  rw [mantissaLength, mantissaLength, signLength_append text stops,
    List.drop_append_of_le_length sign, digits_append _ stops,
    List.drop_append_of_le_length (by omega), fractionLength_append _ stops]

theorem numberLength_eq (text : Text) :
    numberLength text = mantissaLength text + exponentLength (text.drop (mantissaLength text)) :=
  rfl

theorem numberLength_le (text : Text) : numberLength text ≤ text.length := by
  have mantissa := mantissaLength_le text
  have exponent := exponentLength_le (text.drop (mantissaLength text))
  rw [List.length_drop] at exponent
  rw [numberLength_eq]
  omega

/-- **A number is read to its end.** -/
theorem numberLength_append (text : Text) (stops : stopsNumber rest = true) :
    numberLength (text ++ rest) = numberLength text := by
  rw [numberLength_eq, numberLength_eq, mantissaLength_append text stops,
    List.drop_append_of_le_length (mantissaLength_le text), exponentLength_append _ stops]

theorem startsNumber_append (text : Text) (stops : stopsNumber rest = true) :
    startsNumber (text ++ rest) = startsNumber text := by
  rw [startsNumber, startsNumber, digits_append text stops, fractionLength_append text stops]

end Numbers

/-- The characters that show where a token in front of them ends. -/
inductive IsStop : Char → Prop
  | curly : IsStop '\x7D'
  | slash : IsStop '/'

namespace IsStop

variable {stop : Char}

theorem stopsNumber (isStop : IsStop stop) (rest : Text) : stopsNumber (stop :: rest) = true := by
  cases isStop <;> rfl

theorem not_isSpace (isStop : IsStop stop) : isSpace stop = false := by
  cases isStop <;> rfl

theorem not_isHexDigit (isStop : IsStop stop) : isHexDigit stop = false := by
  cases isStop <;> rfl

theorem not_isNewline (isStop : IsStop stop) : isNewline stop = false := by
  cases isStop <;> rfl

theorem ne {c : Char} (isStop : IsStop stop) (curly : '\x7D' ≠ c) (slash : '/' ≠ c) : stop ≠ c := by
  cases isStop
  · exact curly
  · exact slash

theorem not_spoilsUrl (isStop : IsStop stop) : spoilsUrl stop = false := by
  cases isStop <;> rfl

theorem not_mem_close (isStop : IsStop stop) : stop ∉ ['-', '>'] := by
  cases isStop <;> decide

theorem not_mem_open (isStop : IsStop stop) : stop ∉ ['!', '-', '-'] := by
  cases isStop <;> decide

end IsStop

section Stops

variable {stop : Char}

/-! Some readers look at most at the stop. -/

theorem drop_stop {count : Nat} (inside : count ≤ text.length) (more : Text) :
    (text ++ stop :: more).drop count = text.drop count ++ stop :: more :=
  List.drop_append_of_le_length inside

theorem takeWhile_stop {test : Char → Bool} (stops : test stop = false) (text more : Text) :
    (text ++ stop :: more).takeWhile test = text.takeWhile test :=
  takeWhile_append fun c first => by
    obtain rfl := Option.some.inj first
    exact stops

theorem head?_stop (text more others : Text) :
    (text ++ stop :: more).head? = (text ++ stop :: others).head? := by
  cases text <;> rfl

theorem newlineAhead_stop (text more others : Text) :
    newlineAhead (text ++ stop :: more) = newlineAhead (text ++ stop :: others) := by
  cases text <;> rfl

theorem startsIdent_stop (isStop : IsStop stop) (text more others : Text) :
    startsIdent (text ++ stop :: more) = startsIdent (text ++ stop :: others) := by
  cases text with
  | nil => cases isStop <;> rfl
  | cons c text => cases text <;> cases isStop <;> rfl

theorem spaceLength_stop (isStop : IsStop stop) (text more others : Text) :
    spaceLength (text ++ stop :: more) = spaceLength (text ++ stop :: others) := by
  cases text with
  | nil => cases isStop <;> rfl
  | cons c text => cases text <;> cases isStop <;> rfl

theorem digits_stop (isStop : IsStop stop) (text more : Text) :
    digits (text ++ stop :: more) = digits text :=
  digits_append text (isStop.stopsNumber more)

theorem startsNumber_stop (isStop : IsStop stop) (text more : Text) :
    startsNumber (text ++ stop :: more) = startsNumber text :=
  startsNumber_append text (isStop.stopsNumber more)

theorem escape_stop (isStop : IsStop stop) (text more others : Text) :
    escape (text ++ stop :: more) = escape (text ++ stop :: others) := by
  cases text with
  | nil => cases isStop <;> rfl
  | cons c text =>
      have digits (more : Text) : ((c :: (text ++ stop :: more)).take 6).takeWhile isHexDigit =
          ((c :: text).take 6).takeWhile isHexDigit := by
        rw [← List.cons_append, List.take_append, takeWhile_append]
        intro d first
        generalize 6 - (c :: text).length = count at first
        cases count with
        | zero => exact absurd first (Option.not_mem_none _)
        | succ count =>
            obtain rfl := Option.some.inj first
            exact isStop.not_isHexDigit
      have inside : (((c :: text).take 6).takeWhile isHexDigit).length ≤ (c :: text).length :=
        Nat.le_trans (length_takeWhile_le _ _) (List.take_prefix 6 _).length_le
      have space := fun more => congrArg spaceLength (@drop_stop _ stop _ inside more)
      simp only [List.cons_append] at space
      simp only [escape, List.cons_append, digits, space, spaceLength_stop isStop _ more others]

theorem nameUnit?_stop (isStop : IsStop stop) (c : Char) (text more others : Text) :
    nameUnit? c (text ++ stop :: more) = nameUnit? c (text ++ stop :: others) := by
  simp only [nameUnit?, newlineAhead_stop text more others, escape_stop isStop text more others]

theorem stringUnitLength_stop (isStop : IsStop stop) (c : Char) (text more others : Text) :
    stringUnitLength c (text ++ stop :: more) = stringUnitLength c (text ++ stop :: others) := by
  simp only [stringUnitLength, newlineAhead_stop text more others,
    escape_stop isStop text more others, spaceLength_stop isStop text more others]

/-! Others may take the stop for a part of the token. -/

theorem name_stop (isStop : IsStop stop) (within : (name (text ++ stop :: more)).2 ≤ text.length) :
    name (text ++ stop :: others) = name (text ++ stop :: more) := by
  induction text using induct_drop with
  | nil => cases isStop <;> rw [List.nil_append, List.nil_append, name.eq_2, name.eq_2] <;> rfl
  | cons c text ih =>
      simp only [List.cons_append, name.eq_2, nameUnit?_stop isStop c text others more]
        at within ⊢
      cases unit : nameUnit? c (text ++ stop :: more) with
      | none => rfl
      | some found =>
          obtain ⟨decoded, escaped⟩ := found
          simp only [unit, List.length_cons] at within ⊢
          have inside : escaped ≤ text.length := by omega
          rw [drop_stop inside] at within
          have same := ih escaped
            (by rw [List.length_drop]; omega)
          simp only [drop_stop inside, same]

theorem stringLength_cons (quote c : Char) (text : Text) :
    stringLength quote (c :: text) =
      if c = quote then (1, false)
      else if isNewline c then (0, true)
      else
        (1 + stringUnitLength c text +
            (stringLength quote (text.drop (stringUnitLength c text))).1,
          (stringLength quote (text.drop (stringUnitLength c text))).2) := by
  rw [stringLength]
  rfl

theorem stringLength_stop (isStop : IsStop stop) {quote : Char}
    (within : (stringLength quote (text ++ stop :: more)).1 ≤ text.length) :
    stringLength quote (text ++ stop :: others) =
      stringLength quote (text ++ stop :: more) := by
  induction text using induct_drop with
  | nil =>
      rw [List.nil_append, stringLength_cons,
        if_neg (c := isNewline stop = true) (by simp [isStop.not_isNewline])] at within
      split at within
      · exact absurd within (by simp)
      · rw [Nat.add_assoc, Nat.add_comm] at within
        exact absurd within (Nat.not_succ_le_zero _)
  | cons c text ih =>
      rw [List.cons_append, List.cons_append, stringLength_cons, stringLength_cons,
        stringUnitLength_stop isStop c text others more]
      rw [List.cons_append, stringLength_cons] at within
      by_cases closes : c = quote
      · rw [if_pos closes, if_pos closes]
      rw [if_neg closes] at within ⊢
      by_cases breaks : isNewline c = true
      · rw [if_pos breaks, if_neg closes, if_pos breaks]
      rw [if_neg breaks] at within ⊢
      rw [if_neg closes, if_neg breaks]
      rw [List.length_cons] at within
      have inside : stringUnitLength c (text ++ stop :: more) ≤ text.length := by
        dsimp only at within
        omega
      rw [drop_stop inside] at within
      have same := ih (stringUnitLength c (text ++ stop :: more))
        (by rw [List.length_drop]; dsimp only at within; omega)
      rw [drop_stop inside, drop_stop inside, same]

theorem commentLength_stop (isStop : IsStop stop)
    (within : commentLength (text ++ stop :: more) ≤ text.length) :
    commentLength (text ++ stop :: others) = commentLength (text ++ stop :: more) := by
  induction text with
  | nil => cases isStop <;> exact absurd within (by simp [commentLength])
  | cons c text ih =>
      by_cases closes : c = '*' ∧ text.head? = some '/'
      · obtain ⟨rfl, second⟩ := closes
        obtain ⟨tail, rfl⟩ := List.head?_eq_some_iff.1 second
        rfl
      · have goesOn (more : Text) : commentLength (c :: (text ++ stop :: more)) =
            1 + commentLength (text ++ stop :: more) := by
          refine commentLength.eq_3 _ _ fun tail star same => ?_
          cases text with
          | nil =>
              obtain ⟨rfl, _⟩ := List.cons.inj same
              subst star
              exact absurd within (by simp [commentLength])
          | cons d text => exact closes ⟨star, congrArg some (List.cons.inj same).1⟩
        rw [List.cons_append, goesOn, List.length_cons] at within
        rw [List.cons_append, List.cons_append, goesOn, goesOn, ih (by omega)]

theorem badUrlLength_stop (isStop : IsStop stop)
    (within : badUrlLength (text ++ stop :: more) ≤ text.length) :
    badUrlLength (text ++ stop :: others) = badUrlLength (text ++ stop :: more) := by
  induction text using badUrlLength.induct with
  | case1 => cases isStop <;> exact absurd within (by simp [badUrlLength])
  | case2 tail => rfl
  | case3 tail ih =>
      simp only [List.cons_append, badUrlLength, List.length_cons] at within ⊢
      rw [ih (by omega)]
  | case4 tail ih =>
      simp only [List.cons_append, badUrlLength, List.length_cons] at within ⊢
      rw [ih (by omega)]
  | case5 c tail noClose noEscapedClose noEscaped ih =>
      have goesOn (more : Text) : badUrlLength (c :: (tail ++ stop :: more)) =
          1 + badUrlLength (tail ++ stop :: more) := by
        cases tail with
        | nil =>
            exact badUrlLength.eq_5 _ _ noClose
              (fun rest _ same => isStop.ne (by decide) (by decide) (List.cons.inj same).1)
              fun rest _ same => isStop.ne (by decide) (by decide) (List.cons.inj same).1
        | cons d tail =>
            exact badUrlLength.eq_5 _ _ noClose
              (fun rest isBackslash same =>
                noEscapedClose tail isBackslash (by rw [(List.cons.inj same).1]))
              fun rest isBackslash same =>
                noEscaped tail isBackslash (by rw [(List.cons.inj same).1])
      rw [List.cons_append, goesOn, List.length_cons] at within
      rw [List.cons_append, List.cons_append, goesOn, goesOn, ih (by omega)]

/-- What follows white space in a `url(` argument spoils it, unless it closes it. -/
theorem urlEndLength_of_cons {c : Char} (noClose : c ≠ ')')
    (behind : text.drop (text.takeWhile isSpace).length = c :: rest) :
    urlEndLength text =
      (.badUrl, (text.takeWhile isSpace).length + 1 + badUrlLength rest) := by
  simp only [urlEndLength]
  split
  · rename_i same
    exact absurd (behind.symm.trans same) (List.cons_ne_nil _ _)
  · rename_i same
    exact absurd (List.cons.inj (behind.symm.trans same)).1 noClose
  · rename_i same
    rw [(List.cons.inj (behind.symm.trans same)).2]

theorem urlEndLength_stop (isStop : IsStop stop)
    (within : (urlEndLength (text ++ stop :: more)).2 ≤ text.length) :
    urlEndLength (text ++ stop :: others) = urlEndLength (text ++ stop :: more) := by
  have spaces (more : Text) : (text ++ stop :: more).takeWhile isSpace = text.takeWhile isSpace :=
    takeWhile_stop isStop.not_isSpace text more
  have ahead (more : Text) := @drop_stop _ stop _ (length_takeWhile_le isSpace text) more
  cases behind : text.drop (text.takeWhile isSpace).length with
  | nil =>
      have length := congrArg List.length behind
      rw [List.length_drop, List.length_nil] at length
      have cut : urlEndLength (text ++ stop :: more) =
          (.badUrl, (text.takeWhile isSpace).length + 1 + badUrlLength more) := by
        rw [urlEndLength_of_cons (c := stop) (isStop.ne (by decide) (by decide))
          (by rw [spaces, ahead, behind, List.nil_append]), spaces]
      rw [cut] at within
      dsimp only at within
      omega
  | cons c tail =>
      have length := congrArg List.length behind
      rw [List.length_drop, List.length_cons] at length
      by_cases closes : c = ')'
      · subst closes
        simp only [urlEndLength, spaces, ahead, behind, List.cons_append]
      · have cut (more : Text) : urlEndLength (text ++ stop :: more) =
            (.badUrl, (text.takeWhile isSpace).length + 1 +
              badUrlLength (tail ++ stop :: more)) := by
          rw [urlEndLength_of_cons closes (by rw [spaces, ahead, behind, List.cons_append]), spaces]
        rw [cut] at within
        dsimp only at within
        have short : badUrlLength (tail ++ stop :: more) ≤ tail.length := by omega
        rw [cut, cut, badUrlLength_stop isStop short]

/-- How many characters are read along with a character of an unquoted `url(` argument. -/
def urlUnitLength (c : Char) (text : Text) : Nat :=
  if c = '\\' then (escape text).2 else 0

theorem urlUnitLength_stop (isStop : IsStop stop) (c : Char) (text more others : Text) :
    urlUnitLength c (text ++ stop :: more) = urlUnitLength c (text ++ stop :: others) := by
  simp only [urlUnitLength, escape_stop isStop text more others]

theorem urlLength_cons (c : Char) (text : Text) :
    urlLength (c :: text) =
      if isSpace c then urlEndLength (c :: text)
      else if c = ')' then (.url, 1)
      else if spoilsUrl c = true ∨ c = '\\' ∧ newlineAhead text = true then
        (.badUrl, 1 + badUrlLength text)
      else
        ((urlLength (text.drop (urlUnitLength c text))).1,
          1 + urlUnitLength c text + (urlLength (text.drop (urlUnitLength c text))).2) := by
  rw [urlLength]
  by_cases spoils : spoilsUrl c = true
  · simp only [spoils, true_or, ↓reduceIte]
  · simp only [spoils, Bool.false_eq_true, false_or, ↓reduceIte]
    rfl

theorem urlLength_stop (isStop : IsStop stop)
    (within : (urlLength (text ++ stop :: more)).2 ≤ text.length) :
    urlLength (text ++ stop :: others) = urlLength (text ++ stop :: more) := by
  induction text using induct_drop with
  | nil =>
      rw [List.nil_append, urlLength_cons, if_neg (by simp [isStop.not_isSpace]),
        if_neg (isStop.ne (by decide) (by decide)),
        if_neg (not_or.2 ⟨by simp [isStop.not_spoilsUrl],
          fun found => isStop.ne (by decide) (by decide) found.1⟩),
        Nat.add_assoc, Nat.add_comm] at within
      exact absurd within (Nat.not_succ_le_zero _)
  | cons c text ih =>
      rw [List.cons_append, urlLength_cons, List.length_cons] at within
      rw [List.cons_append, List.cons_append, urlLength_cons, urlLength_cons,
        newlineAhead_stop text others more, urlUnitLength_stop isStop c text others more]
      by_cases space : isSpace c = true
      · rw [if_pos space] at within ⊢
        rw [if_pos space]
        exact @urlEndLength_stop (c :: text) more others stop isStop within
      rw [if_neg space] at within ⊢
      rw [if_neg space]
      by_cases closes : c = ')'
      · rw [if_pos closes, if_pos closes]
      rw [if_neg closes] at within ⊢
      rw [if_neg closes]
      by_cases spoils : spoilsUrl c = true ∨
          c = '\\' ∧ newlineAhead (text ++ stop :: more) = true
      · rw [if_pos spoils] at within ⊢
        rw [if_pos spoils]
        dsimp only at within
        have short : badUrlLength (text ++ stop :: more) ≤ text.length := by omega
        rw [badUrlLength_stop isStop short]
      rw [if_neg spoils] at within ⊢
      rw [if_neg spoils]
      dsimp only at within
      have inside : urlUnitLength c (text ++ stop :: more) ≤ text.length := by omega
      rw [drop_stop inside] at within
      have same := ih (urlUnitLength c (text ++ stop :: more))
        (by rw [List.length_drop]; omega)
      rw [drop_stop inside, drop_stop inside, same]

/-! The tokens themselves. -/

theorem munchNumber_stop (isStop : IsStop stop)
    (within : (munchNumber (text ++ stop :: more)).2 < text.length) :
    munchNumber (text ++ stop :: others) = munchNumber (text ++ stop :: more) := by
  have number (more : Text) : numberLength (text ++ stop :: more) = numberLength text :=
    numberLength_append text (isStop.stopsNumber more)
  have ahead (more : Text) := @drop_stop _ stop _ (numberLength_le text) more
  rw [munchNumber_eq, number, ahead] at within
  rw [munchNumber_eq, munchNumber_eq, number, number, ahead, ahead, head?_stop _ others more,
    startsIdent_stop isStop _ others more]
  by_cases percent : (text.drop (numberLength text) ++ stop :: more).head? = some '%'
  · rw [if_pos percent, if_pos percent]
  rw [if_neg percent] at within ⊢
  rw [if_neg percent]
  by_cases unit : startsIdent (text.drop (numberLength text) ++ stop :: more) = true
  · rw [if_pos unit] at within ⊢
    rw [if_pos unit]
    dsimp only at within
    have short : (name (text.drop (numberLength text) ++ stop :: more)).2 ≤
        (text.drop (numberLength text)).length := by
      rw [List.length_drop]
      omega
    rw [name_stop isStop short]
  · rw [if_neg unit, if_neg unit]

theorem munchIdent_of_plain (plain : (text.drop (name text).2).head? ≠ some '(') :
    munchIdent text = (.ident (name text).1, (name text).2 - 1) := by
  simp only [munchIdent]
  split
  · rename_i same
    exact absurd (congrArg List.head? same) plain
  · rfl

theorem munchIdent_of_call {argument : Text} (call : text.drop (name text).2 = '(' :: argument) :
    munchIdent text =
      if Text.equalAnyCase (name text).1 ['u', 'r', 'l'] then
        if (argument.drop (argument.takeWhile isSpace).length).head? = some '"' ∨
            (argument.drop (argument.takeWhile isSpace).length).head? = some '\'' then
          (.function (name text).1, (name text).2)
        else
          ((urlLength (argument.drop (argument.takeWhile isSpace).length)).1,
            (name text).2 + (argument.takeWhile isSpace).length +
              (urlLength (argument.drop (argument.takeWhile isSpace).length)).2)
      else
        (.function (name text).1, (name text).2) := by
  simp only [munchIdent, call]
  congr 1
  split
  · rename_i quoted
    rw [quoted, if_pos (.inl rfl)]
  · rename_i quoted
    rw [quoted, if_pos (.inr rfl)]
  · rename_i noDouble noSingle
    rw [if_neg]
    rintro (quoted | quoted)
    · obtain ⟨tail, same⟩ := List.head?_eq_some_iff.1 quoted
      exact noDouble tail same
    · obtain ⟨tail, same⟩ := List.head?_eq_some_iff.1 quoted
      exact noSingle tail same

theorem munchIdent_stop (isStop : IsStop stop)
    (within : (munchIdent (text ++ stop :: more)).2 < text.length) :
    munchIdent (text ++ stop :: others) = munchIdent (text ++ stop :: more) := by
  have length : (name (text ++ stop :: more)).2 ≤ text.length := by
    simp only [munchIdent] at within
    repeat' split at within
    all_goals dsimp only at within; omega
  have same : name (text ++ stop :: others) = name (text ++ stop :: more) := name_stop isStop length
  have ahead (rest : Text) := @drop_stop _ stop _ length rest
  by_cases call : (text.drop (name (text ++ stop :: more)).2).head? = some '('
  · obtain ⟨argument, behind⟩ := List.head?_eq_some_iff.1 call
    have short := congrArg List.length behind
    rw [List.length_drop, List.length_cons] at short
    have spaces (rest : Text) :
        (argument ++ stop :: rest).takeWhile isSpace = argument.takeWhile isSpace :=
      takeWhile_stop isStop.not_isSpace argument rest
    have blanks := length_takeWhile_le isSpace argument
    have inside (rest : Text) := @drop_stop _ stop _ blanks rest
    have called (rest : Text) :
        (text ++ stop :: rest).drop (name (text ++ stop :: more)).2 =
          '(' :: (argument ++ stop :: rest) := by
      rw [ahead, behind, List.cons_append]
    rw [munchIdent_of_call (called more), spaces, inside] at within
    rw [munchIdent_of_call (called more), munchIdent_of_call (same.symm ▸ called others), same,
      spaces, spaces, inside, inside, head?_stop _ others more]
    split
    · rename_i isUrl
      rw [if_pos isUrl] at within
      split
      · rfl
      · rename_i unquoted
        rw [if_neg unquoted] at within
        dsimp only at within
        have short : (urlLength (argument.drop (argument.takeWhile isSpace).length ++
            stop :: more)).2 ≤ (argument.drop (argument.takeWhile isSpace).length).length := by
          rw [List.length_drop]
          omega
        rw [urlLength_stop isStop short]
    · rfl
  · have plain (rest : Text) :
        ((text ++ stop :: rest).drop (name (text ++ stop :: more)).2).head? ≠ some '(' := by
      rw [ahead]
      cases behind : text.drop (name (text ++ stop :: more)).2 with
      | nil => exact fun paren => isStop.ne (by decide) (by decide) (Option.some.inj paren)
      | cons c tail =>
          rw [behind] at call
          exact call
    rw [munchIdent_of_plain (plain more), munchIdent_of_plain (same.symm ▸ plain others), same]

theorem startsWith_stop {start : Text} (noStop : stop ∉ start) (text more others : Text) :
    Text.startsWith start (text ++ stop :: more) =
      Text.startsWith start (text ++ stop :: others) := by
  induction start generalizing text with
  | nil => rfl
  | cons c start ih =>
      obtain ⟨other, noStop⟩ := not_or.1 (mt List.mem_cons.2 noStop)
      cases text with
      | nil =>
          have differs (rest : Text) : Text.startsWith (c :: start) (stop :: rest) = false := by
            simp [Text.startsWith, List.isPrefixOf, Ne.symm other]
          rw [List.nil_append, List.nil_append, differs, differs]
      | cons d text => exact congrArg (c == d && ·) (ih noStop text)

/-- The branches of the lexer are chosen in the same way in front of what follows a stop. -/
theorem munched_ite {p : Prop} [Decidable p] {first first' second second' : Munched} {bound : Nat}
    (within : (if p then first else second).2 ≤ bound)
    (chosen : p → first.2 ≤ bound → first' = first) (other : second.2 ≤ bound → second' = second) :
    (if p then first' else second') = if p then first else second := by
  by_cases holds : p
  · rw [if_pos holds] at within
    rw [if_pos holds, if_pos holds, chosen holds within]
  · rw [if_neg holds] at within
    rw [if_neg holds, if_neg holds, other within]

/-- **A token that ends in front of a stop is the same whatever follows the stop.** -/
theorem munch_stop (isStop : IsStop stop) {c : Char}
    (within : (munch c (text ++ stop :: more)).2 ≤ text.length) :
    munch c (text ++ stop :: others) = munch c (text ++ stop :: more) := by
  have here : startsIdent (c :: (text ++ stop :: others)) =
      startsIdent (c :: (text ++ stop :: more)) := startsIdent_stop isStop (c :: text) others more
  dsimp only [munch] at within ⊢
  rw [head?_stop text others more, startsIdent_stop isStop text others more, here,
    digits_stop isStop text others, ← digits_stop isStop text more,
    startsNumber_stop isStop text others, ← startsNumber_stop isStop text more,
    startsWith_stop isStop.not_mem_close text others more,
    startsWith_stop isStop.not_mem_open text others more,
    takeWhile_stop isStop.not_isSpace text others, ← takeWhile_stop isStop.not_isSpace text more]
  -- One branch of the lexer after the other, in its order.
  refine munched_ite within (fun _ _ => rfl) fun within => ?_
  refine munched_ite within (fun _ within => ?string) fun within => ?_
  case string => rw [stringLength_stop isStop within]
  refine munched_ite within (fun _ within => ?hash) fun within => ?_
  case hash =>
    refine munched_ite within (fun _ within => ?_) fun within =>
      munched_ite within (fun _ within => ?_) fun _ => rfl
    · rw [name_stop isStop within]
    · rw [name_stop isStop within]
  iterate 10 refine munched_ite within (fun _ _ => rfl) fun within => ?_
  refine munched_ite within (fun _ within => ?number) fun within => ?_
  case number =>
    exact @munchNumber_stop (c :: text) more others stop isStop (Nat.lt_succ_of_le within)
  iterate 2 refine munched_ite within (fun _ _ => rfl) fun within => ?_
  refine munched_ite within (fun opens within => ?comment) fun within => ?_
  case comment =>
    cases text with
    | nil => exact absurd (Option.some.inj opens.2) (isStop.ne (by decide) (by decide))
    | cons d text =>
        rw [List.length_cons] at within
        change 1 + commentLength (text ++ stop :: more) ≤ text.length + 1 at within
        change (Token.comment, 1 + commentLength (text ++ stop :: others)) = _
        have short : commentLength (text ++ stop :: more) ≤ text.length := by omega
        rw [commentLength_stop isStop short]
        rfl
  refine munched_ite within (fun _ within => ?atKeyword) fun within => ?_
  case atKeyword => rw [name_stop isStop within]
  refine munched_ite within (fun _ within => ?ident) fun _ => rfl
  case ident =>
    exact @munchIdent_stop (c :: text) more others stop isStop (Nat.lt_succ_of_le within)

/-- The token at the start of a text in front of a stop, and what follows it. -/
theorem lexemesFrom_cons_stop (isStop : IsStop stop) {c : Char}
    (within : (munch c (text ++ stop :: more)).2 ≤ text.length) (start : Nat) (rest : Text) :
    lexemesFrom start (c :: (text ++ stop :: rest)) =
      ⟨(munch c (text ++ stop :: more)).1, start,
          c :: text.take (munch c (text ++ stop :: more)).2⟩ ::
        lexemesFrom (start + Text.bytes (c :: text.take (munch c (text ++ stop :: more)).2))
          (text.drop (munch c (text ++ stop :: more)).2 ++ stop :: rest) := by
  rw [lexemesFrom_cons, munch_stop isStop within, List.take_append_of_le_length within,
    drop_stop within]

/-- **A text is cut into the same tokens whatever follows a stop behind it**, if a token starts with
the stop. -/
theorem lexemesFrom_stop (isStop : IsStop stop) {front : Text} {tokens : List Lexeme} {offset : Nat}
    (cut : lexemesFrom offset (front ++ stop :: more) =
      tokens ++ lexemesFrom (offset + Text.bytes front) (stop :: more)) (others : Text) :
    lexemesFrom offset (front ++ stop :: others) =
      tokens ++ lexemesFrom (offset + Text.bytes front) (stop :: others) := by
  induction tokens generalizing front offset with
  | nil =>
      have spelled := congrArg spelling cut
      rw [List.nil_append, spelling_lexemesFrom, spelling_lexemesFrom] at spelled
      obtain rfl := List.append_left_eq_self.1 spelled
      rfl
  | cons lexeme tokens ih =>
      cases front with
      | nil =>
          have same := congrArg List.length cut
          rw [Text.bytes_nil, List.length_append, List.length_cons] at same
          exact absurd same (by simp only [List.nil_append, Nat.add_zero]; omega)
      | cons c text =>
          have first := cut
          simp only [List.cons_append, lexemesFrom_cons] at first
          have within : (munch c (text ++ stop :: more)).2 ≤ text.length := by
            have behind := congrArg (List.length ∘ spelling) (List.cons.inj first).2
            rw [← lexemesFrom_cons] at behind
            simp only [Function.comp_apply, spelling_append, spelling_lexemesFrom,
              List.length_append, List.length_drop, List.length_cons] at behind
            omega
          have bytes := bytes_cons_take_drop c text (munch c (text ++ stop :: more)).2
          rw [List.cons_append, lexemesFrom_cons_stop isStop within, bytes, ← Nat.add_assoc] at cut
          obtain ⟨rfl, later⟩ := List.cons.inj cut
          rw [List.cons_append, lexemesFrom_cons_stop isStop within, bytes, ← Nat.add_assoc,
            ih later, List.cons_append]

end Stops

/-- **The inside of a block is cut into the same tokens whatever follows the block.** -/
theorem lexemesFrom_curly {content : Text} {tokens : List Lexeme} {offset : Nat}
    (cut : lexemesFrom offset (content ++ ['\x7D']) =
      tokens ++ [⟨.closing .curly, offset + Text.bytes content, ['\x7D']⟩]) (rest : Text) :
    lexemesFrom offset (content ++ '\x7D' :: rest) =
      tokens ++ ⟨.closing .curly, offset + Text.bytes content, ['\x7D']⟩ ::
        lexemesFrom (offset + Text.bytes content + 1) rest := by
  have closing (rest : Text) : lexemesFrom (offset + Text.bytes content) ('\x7D' :: rest) =
      ⟨.closing .curly, offset + Text.bytes content, ['\x7D']⟩ ::
        lexemesFrom (offset + Text.bytes content + 1) rest :=
    lexes_closing rest _
  rw [← closing rest]
  refine lexemesFrom_stop .curly (cut.trans ?_) rest
  rw [closing, lexemesFrom]

end Css

end ScssLint
