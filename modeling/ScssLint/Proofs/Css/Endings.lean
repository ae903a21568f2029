import ScssLint.Proofs.Css.Meeting

/-! # Tokens with an end of their own

What a reader takes strictly inside of a text does not depend on what follows the text
(`Css.escape_inside`, `Css.name_call`). So a string, a `url(` token or a comment is the same
whatever follows it, once a letter behind it is no part of it (`Css.Lexeme.isFinished`,
`Css.munch_of_isFinished`), and so is a function (`Css.munch_of_function`).
-/

namespace ScssLint

namespace Css

variable {text rest : Text} {c quote : Char} (other : Text)

section Inside

theorem spaceLength_inside (inside : spaceLength (text ++ rest) < text.length) :
    spaceLength (text ++ other) = spaceLength (text ++ rest) := by
  cases text with
  | nil => exact absurd inside (Nat.not_lt_zero _)
  | cons c text =>
      cases text with
      | nil =>
          have dark : isSpace c = false := by
            refine Bool.eq_false_iff.2 fun space => ?_
            simp only [List.cons_append, spaceLength, space, ↓reduceIte, List.length_cons,
              List.length_nil] at inside
            split at inside <;> exact absurd inside (by decide)
          have noReturn : c ≠ '\r' := by
            rintro rfl
            exact absurd dark (by decide)
          simp [spaceLength, dark, noReturn]
      | cons d text => rfl

theorem escapeDigits_inside (inside : (escapeDigits (text ++ rest)).length < text.length) :
    escapeDigits (text ++ other) = escapeDigits (text ++ rest) := by
  simp only [escapeDigits, List.take_append] at inside ⊢
  by_cases long : 6 ≤ text.length
  · rw [Nat.sub_eq_zero_of_le long, List.take_zero, List.take_zero]
  · rw [List.take_of_length_le (Nat.le_of_not_le long)] at inside ⊢
    have stops : ∃ d ∈ text, isHexDigit d = false := by
      refine Classical.byContradiction fun digits => ?_
      have whole : ∀ d ∈ text, isHexDigit d = true := by simpa using digits
      rw [List.takeWhile_append_of_pos whole, List.length_append] at inside
      omega
    rw [takeWhile_append_of_stops stops, takeWhile_append_of_stops stops]

/-- **An escape that ends inside of a text** is the same whatever follows the text. -/
theorem escape_inside (inside : (escape (text ++ rest)).2 < text.length) :
    escape (text ++ other) = escape (text ++ rest) := by
  cases text with
  | nil => exact absurd inside (Nat.not_lt_zero _)
  | cons c text =>
      by_cases hex : isHexDigit c = true
      · rw [List.cons_append, escape_of_isHexDigit hex, ← List.cons_append] at inside
        dsimp only at inside
        have digits := @escapeDigits_inside (c :: text) rest other (by omega)
        have short : (escapeDigits (c :: text ++ rest)).length ≤ (c :: text).length := by omega
        rw [List.drop_append_of_le_length short] at inside
        rw [List.cons_append, List.cons_append, escape_of_isHexDigit hex, escape_of_isHexDigit hex,
          ← List.cons_append, ← List.cons_append, digits, List.drop_append_of_le_length short,
          List.drop_append_of_le_length short, @spaceLength_inside _ rest other]
        rw [List.length_drop]
        omega
      · simp only [List.cons_append, escape, hex]
        rfl

theorem newlineAhead_inside (written : text ≠ []) (rest : Text) :
    newlineAhead (text ++ rest) = newlineAhead text := by
  obtain ⟨c, text, rfl⟩ := List.exists_cons_of_ne_nil written
  rfl

theorem nameUnit?_inside {decoded : Char} {more : Nat}
    (unit : nameUnit? c (text ++ rest) = some (decoded, more)) (inside : more < text.length) :
    nameUnit? c (text ++ other) = some (decoded, more) := by
  have written : text ≠ [] := List.ne_nil_of_length_pos (Nat.lt_of_le_of_lt (Nat.zero_le _) inside)
  by_cases escapes : c = '\\'
  · subst escapes
    have inLine : newlineAhead text = false := by
      refine Bool.eq_false_iff.2 fun breaks => ?_
      rw [nameUnit?, if_pos rfl, newlineAhead_inside written, if_pos breaks] at unit
      exact absurd unit.symm (Option.some_ne_none _)
    have found (more : Text) : nameUnit? '\\' (text ++ more) = some (escape (text ++ more)) := by
      simp [nameUnit?, newlineAhead_inside written, inLine]
    rw [found] at unit
    have same := Option.some.inj unit
    rw [found, escape_inside other (by rw [same]; exact inside), same]
  · simpa only [nameUnit?, if_neg escapes] using unit

theorem stringUnitLength_inside (inside : stringUnitLength c (text ++ rest) < text.length) :
    stringUnitLength c (text ++ other) = stringUnitLength c (text ++ rest) := by
  have some : text ≠ [] := List.ne_nil_of_length_pos (Nat.lt_of_le_of_lt (Nat.zero_le _) inside)
  unfold stringUnitLength at inside ⊢
  rw [newlineAhead_inside some] at inside ⊢
  rw [newlineAhead_inside some]
  split
  · rename_i escapes
    rw [if_pos escapes] at inside
    split
    · rename_i breaks
      rw [if_pos breaks] at inside
      exact spaceLength_inside other inside
    · rename_i inLine
      rw [if_neg inLine] at inside
      rw [escape_inside other inside]
  · rfl

theorem urlUnitLength_inside (inside : urlUnitLength c (text ++ rest) < text.length) :
    urlUnitLength c (text ++ other) = urlUnitLength c (text ++ rest) := by
  unfold urlUnitLength at inside ⊢
  split
  · rename_i escapes
    rw [if_pos escapes] at inside
    rw [escape_inside other inside]
  · rfl

/-- **A name in front of a parenthesis** is the same whatever follows the parenthesis. -/
theorem name_call {argument : Text}
    (call : text.drop (name (text ++ rest)).2 = '(' :: argument) :
    name (text ++ other) = name (text ++ rest) := by
  induction text using induct_drop with
  | nil => exact absurd (List.drop_nil.symm.trans call).symm (List.cons_ne_nil _ _)
  | cons c text ih =>
      rw [List.cons_append, name.eq_2] at call
      rw [List.cons_append, List.cons_append, name.eq_2, name.eq_2]
      cases unit : nameUnit? c (text ++ rest) with
      | none =>
          rw [unit] at call
          obtain ⟨rfl, rfl⟩ := List.cons.inj call
          rfl
      | some found =>
          obtain ⟨decoded, more⟩ := found
          simp only [unit] at call
          have inside : more < text.length := by
            have length := congrArg List.length call
            rw [List.length_drop, List.length_cons, List.length_cons] at length
            omega
          have drops (more' : Text) :=
            @List.drop_append_of_le_length _ _ more' _ (Nat.le_of_lt inside)
          have shape (count : Nat) : 1 + more + count = more + count + 1 := by omega
          rw [drops, shape, List.drop_succ_cons, ← List.drop_drop] at call
          have same := ih more call
          simp only [nameUnit?_inside other unit inside, drops, same]

end Inside

section Closed

variable (written : rest ≠ [])

include written

theorem commentLength_pos : 0 < commentLength rest := by
  rw [commentLength.eq_def]
  split
  · exact absurd rfl written
  all_goals omega

theorem two_le_commentLength (c : Char) : 2 ≤ commentLength (c :: rest) := by
  have more := commentLength_pos written
  rw [commentLength.eq_def]
  split
  · rename_i same
    exact absurd same (List.cons_ne_nil _ _)
  · exact Nat.le_refl 2
  · rename_i same
    rw [(List.cons.inj same).2] at more
    omega

theorem commentLength_closed (within : commentLength (text ++ rest) ≤ text.length) :
    commentLength (text ++ other) = commentLength (text ++ rest) := by
  induction text with
  | nil => exact absurd within (Nat.not_le_of_lt (commentLength_pos written))
  | cons c text ih =>
      by_cases closes : c = '*' ∧ text.head? = some '/'
      · obtain ⟨rfl, second⟩ := closes
        obtain ⟨tail, rfl⟩ := List.head?_eq_some_iff.1 second
        rfl
      · cases text with
        | nil => exact absurd within (Nat.not_le_of_lt (two_le_commentLength written c))
        | cons d text =>
            have goesOn (more : Text) : commentLength (c :: d :: (text ++ more)) =
                1 + commentLength (d :: text ++ more) :=
              commentLength.eq_3 _ _ fun tail star same =>
                closes ⟨star, congrArg some (List.cons.inj same).1⟩
            simp only [List.cons_append, goesOn, List.length_cons] at within ih ⊢
            rw [ih (by omega)]

theorem badUrlLength_pos : 0 < badUrlLength rest := by
  rw [badUrlLength.eq_def]
  split
  · exact absurd rfl written
  all_goals omega

theorem two_le_badUrlLength (noClose : c ≠ ')') : 2 ≤ badUrlLength (c :: rest) := by
  have more := badUrlLength_pos written
  rw [badUrlLength.eq_def]
  split
  · rename_i same
    exact absurd same (List.cons_ne_nil _ _)
  · rename_i same
    exact absurd (List.cons.inj same).1 noClose
  · omega
  · omega
  · rename_i same
    rw [(List.cons.inj same).2] at more
    omega

theorem badUrlLength_closed (within : badUrlLength (text ++ rest) ≤ text.length) :
    badUrlLength (text ++ other) = badUrlLength (text ++ rest) := by
  induction text using badUrlLength.induct with
  | case1 => exact absurd within (Nat.not_le_of_lt (badUrlLength_pos written))
  | case2 tail => rfl
  | case3 tail ih =>
      simp only [List.cons_append, badUrlLength, List.length_cons] at within ⊢
      rw [ih (by omega)]
  | case4 tail ih =>
      simp only [List.cons_append, badUrlLength, List.length_cons] at within ⊢
      rw [ih (by omega)]
  | case5 c tail noClose noEscapedClose noEscaped ih =>
      cases tail with
      | nil => exact absurd within (Nat.not_le_of_lt (two_le_badUrlLength written noClose))
      | cons d tail =>
          have goesOn (more : Text) : badUrlLength (c :: d :: (tail ++ more)) =
              1 + badUrlLength (d :: tail ++ more) :=
            badUrlLength.eq_5 _ _ noClose
              (fun rest isBackslash same =>
                noEscapedClose tail isBackslash (by rw [(List.cons.inj same).1]))
              fun rest isBackslash same =>
                noEscaped tail isBackslash (by rw [(List.cons.inj same).1])
          simp only [List.cons_append, goesOn, List.length_cons] at within ih ⊢
          rw [ih (by omega)]

theorem lt_urlEndLength (blank : ∀ d ∈ text, isSpace d = true) :
    text.length < (urlEndLength (text ++ rest)).2 := by
  have more := List.length_pos_iff.2 written
  have spaces : ((text ++ rest).takeWhile isSpace).length =
      text.length + (rest.takeWhile isSpace).length := by
    rw [List.takeWhile_append_of_pos blank, List.length_append]
  simp only [urlEndLength, spaces]
  split
  · rename_i ended
    have length := congrArg List.length ended
    rw [List.length_drop, List.length_append, List.length_nil] at length
    dsimp only
    omega
  · dsimp only
    omega
  · dsimp only
    omega

theorem urlEndLength_closed (within : (urlEndLength (text ++ rest)).2 ≤ text.length) :
    urlEndLength (text ++ other) = urlEndLength (text ++ rest) := by
  have stops : ∃ d ∈ text, isSpace d = false := by
    refine Classical.byContradiction fun spaces => ?_
    have blank : ∀ d ∈ text, isSpace d = true := by simpa using spaces
    exact absurd within (Nat.not_le_of_lt (lt_urlEndLength written blank))
  have spaces (more : Text) := takeWhile_append_of_stops stops more
  have ahead (more : Text) :=
    @List.drop_append_of_le_length _ _ more _ (length_takeWhile_le isSpace text)
  cases behind : text.drop (text.takeWhile isSpace).length with
  | nil =>
      have whole : text.takeWhile isSpace = text :=
        (List.takeWhile_prefix isSpace).eq_of_length_le (List.drop_eq_nil_iff.1 behind)
      obtain ⟨d, member, dark⟩ := stops
      rw [← whole] at member
      rw [List.all_eq_true.1 List.all_takeWhile d member] at dark
      exact Bool.noConfusion dark
  | cons c tail =>
      have length := congrArg List.length behind
      rw [List.length_drop, List.length_cons] at length
      by_cases closes : c = ')'
      · subst closes
        simp only [urlEndLength, spaces, ahead, behind, List.cons_append]
      · have cut (more : Text) : urlEndLength (text ++ more) =
            (.badUrl, (text.takeWhile isSpace).length + 1 + badUrlLength (tail ++ more)) := by
          rw [urlEndLength_of_cons closes (by rw [spaces, ahead, behind, List.cons_append]), spaces]
        rw [cut] at within
        dsimp only at within
        rw [cut, cut, badUrlLength_closed other written (by omega)]

theorem urlLength_pos : 0 < (urlLength rest).2 := by
  obtain ⟨c, rest, rfl⟩ := List.exists_cons_of_ne_nil written
  rw [urlLength_cons]
  split
  · exact @lt_urlEndLength [] _ written (List.forall_mem_nil _)
  · repeat' split
    all_goals dsimp only; omega

theorem urlLength_closed (within : (urlLength (text ++ rest)).2 ≤ text.length) :
    urlLength (text ++ other) = urlLength (text ++ rest) := by
  induction text using induct_drop with
  | nil => exact absurd within (Nat.not_le_of_lt (urlLength_pos written))
  | cons c text ih =>
      rw [List.cons_append, urlLength_cons, List.length_cons] at within
      rw [List.cons_append, List.cons_append, urlLength_cons, urlLength_cons]
      by_cases space : isSpace c = true
      · rw [if_pos space] at within ⊢
        rw [if_pos space]
        exact @urlEndLength_closed (c :: text) rest other written within
      rw [if_neg space] at within ⊢
      rw [if_neg space]
      by_cases closes : c = ')'
      · rw [if_pos closes, if_pos closes]
      rw [if_neg closes] at within ⊢
      rw [if_neg closes]
      -- The next character is another one of the text.
      have some : text ≠ [] := by
        rintro rfl
        have more := badUrlLength_pos written
        have more' := urlLength_pos written
        simp only [List.nil_append, List.length_nil] at within
        split at within
        · dsimp only at within
          omega
        · dsimp only at within
          have single : urlUnitLength c rest = 0 := by omega
          rw [single, List.drop_zero] at within
          omega
      rw [newlineAhead_inside some] at within ⊢
      rw [newlineAhead_inside some]
      by_cases spoils : spoilsUrl c = true ∨ c = '\\' ∧ newlineAhead text = true
      · rw [if_pos spoils] at within ⊢
        rw [if_pos spoils]
        dsimp only at within
        rw [badUrlLength_closed other written (by omega)]
      rw [if_neg spoils] at within ⊢
      rw [if_neg spoils]
      dsimp only at within
      have inside : urlUnitLength c (text ++ rest) < text.length := by
        refine Nat.lt_of_le_of_ne (by omega) fun full => ?_
        rw [full, List.drop_left] at within
        have more := urlLength_pos written
        omega
      have drops (more : Text) :=
        @List.drop_append_of_le_length _ _ more _ (Nat.le_of_lt inside)
      rw [drops] at within
      have same := ih (urlUnitLength c (text ++ rest))
        (by rw [List.length_drop]; omega)
      rw [urlUnitLength_inside other inside, drops, drops, same]

theorem stringLength_pos
    (inLine : (stringLength quote rest).2 = true → newlineAhead rest = false) :
    0 < (stringLength quote rest).1 := by
  obtain ⟨c, rest, rfl⟩ := List.exists_cons_of_ne_nil written
  rw [stringLength_cons] at inLine ⊢
  split
  · exact Nat.one_pos
  · rename_i unclosed
    split
    · rename_i breaks
      rw [if_neg unclosed, if_pos breaks, newlineAhead, breaks] at inLine
      exact Bool.noConfusion (inLine rfl)
    · dsimp only
      omega

theorem stringLength_closed
    (inLine : (stringLength quote (text ++ rest)).2 = true → newlineAhead rest = false)
    (within : (stringLength quote (text ++ rest)).1 ≤ text.length) :
    stringLength quote (text ++ other) = stringLength quote (text ++ rest) := by
  induction text using induct_drop with
  | nil => exact absurd within (Nat.not_le_of_lt (stringLength_pos written inLine))
  | cons c text ih =>
      rw [List.cons_append, stringLength_cons, List.length_cons] at within
      rw [List.cons_append, stringLength_cons] at inLine
      rw [List.cons_append, List.cons_append, stringLength_cons, stringLength_cons]
      by_cases closes : c = quote
      · rw [if_pos closes, if_pos closes]
      rw [if_neg closes] at within inLine ⊢
      by_cases breaks : isNewline c = true
      · rw [if_pos breaks, if_neg closes, if_pos breaks]
      rw [if_neg breaks] at within inLine ⊢
      rw [if_neg closes, if_neg breaks]
      dsimp only at within inLine
      have inside : stringUnitLength c (text ++ rest) < text.length := by
        refine Nat.lt_of_le_of_ne (by omega) fun full => ?_
        rw [full, List.drop_left] at within inLine
        have := stringLength_pos written inLine
        omega
      have drops (more : Text) :=
        @List.drop_append_of_le_length _ _ more _ (Nat.le_of_lt inside)
      rw [drops] at within inLine
      have same := ih (stringUnitLength c (text ++ rest)) inLine
        (by rw [List.length_drop]; omega)
      rw [stringUnitLength_inside other inside, drops, drops, same]

end Closed

section Tokens

theorem isDigit_of_isNameStart (starts : isNameStart c = true) : c.isDigit = false := by
  refine Bool.eq_false_iff.2 fun digit => ?_
  have bounds : 48 ≤ c.toNat ∧ c.toNat ≤ 57 := toNat_of_isDigit digit
  have either : ((((c.isUpper || c.isLower) || c == '_') || c == '\x00') ||
      decide (0x80 ≤ c.toNat)) = true := starts
  simp only [Bool.or_eq_true, beq_iff_eq, decide_eq_true_eq] at either
  rcases either with (((upper | lower) | rfl) | rfl) | large
  · have : 65 ≤ c.toNat ∧ c.toNat ≤ 90 := of_decide_eq_true upper
    omega
  · have := toNat_of_isLower lower
    omega
  · exact absurd digit (by decide)
  · exact absurd digit (by decide)
  · omega

/-- Where an identifier starts, no number starts behind a hyphen. -/
theorem startsNumber_of_startsIdent (starts : startsIdent ('-' :: rest) = true) :
    startsNumber rest = false := by
  cases rest with
  | nil => exact Bool.noConfusion starts
  | cons d rest =>
      have mark : isNameStart d = true ∨ d = '-' ∨ d = '\\' := by
        simpa [startsIdent, or_assoc] using starts
      have noDigit : d.isDigit = false := by
        rcases mark with start | rfl | rfl
        · exact isDigit_of_isNameStart start
        · rfl
        · rfl
      have noPoint : d ≠ '.' := by
        rintro rfl
        exact absurd mark (by decide)
      have noFraction : fractionLength (d :: rest) = 0 :=
        fractionLength.eq_2 _ fun tail same => noPoint (List.cons.inj same).1
      simp [startsNumber, digits, noDigit, noFraction]

theorem munch_of_startsIdent (starts : startsIdent (c :: rest) = true)
    (noClose : ¬ (c = '-' ∧ Text.startsWith ['-', '>'] rest = true)) :
    munch c rest = munchIdent (c :: rest) := by
  have apart {d : Char} (no : startsIdent (d :: rest) = false) : c ≠ d := by
    rintro rfl
    rw [starts] at no
    exact Bool.noConfusion no
  have noSpace : ¬ isSpace c = true := by
    intro space
    simp only [isSpace, Bool.or_eq_true, beq_iff_eq] at space
    rcases space with (((same | same) | same) | same) | same <;> exact apart rfl same
  have noMatcher :
      ¬ ((c = '$' ∨ c = '*' ∨ c = '^' ∨ c = '|' ∨ c = '~') ∧ rest.head? = some '=') := by
    rintro ⟨same | same | same | same | same, _⟩ <;> exact apart rfl same
  have noNumber : ¬ (c.isDigit = true ∨ (c = '+' ∨ c = '-') ∧ startsNumber rest = true ∨
      c = '.' ∧ digits rest ≠ 0) := by
    rintro (digit | ⟨same | rfl, number⟩ | ⟨same, _⟩)
    · have noHyphen : c ≠ '-' := by
        rintro rfl
        exact absurd digit (by decide)
      have noEscape : c ≠ '\\' := by
        rintro rfl
        exact absurd digit (by decide)
      rw [startsIdent.eq_def] at starts
      simp only [noHyphen, noEscape, ↓reduceIte] at starts
      rw [isDigit_of_isNameStart starts] at digit
      exact Bool.noConfusion digit
    · exact apart rfl same
    · rw [startsNumber_of_startsIdent starts] at number
      exact Bool.noConfusion number
    · exact apart rfl same
  dsimp only [munch]
  rw [if_neg noSpace, if_neg (not_or.2 ⟨apart rfl, apart rfl⟩), if_neg (apart rfl),
    if_neg noMatcher, if_neg (apart rfl), if_neg (apart rfl), if_neg (apart rfl),
    if_neg (apart rfl), if_neg (apart rfl), if_neg (apart rfl), if_neg (apart rfl),
    if_neg (apart rfl), if_neg (apart rfl), if_neg noNumber, if_neg noClose,
    if_neg fun found => apart rfl found.1, if_neg fun found => apart rfl found.1,
    if_neg fun found => apart rfl found.1, if_pos starts]

/-- The ways in which a token with an end of its own is cut off. -/
theorem Munches.of_endsItself {munched : Munched} (cut : Munches c rest munched)
    (ends : munched.1.endsItself = true) :
    (c = '"' ∨ c = '\'') ∧
        munched = (if (stringLength c rest).2 then .badString else .string,
          (stringLength c rest).1) ∨
      (∃ inside, c = '/' ∧ rest = '*' :: inside ∧ munched = (.comment, 1 + commentLength inside)) ∨
      startsIdent (c :: rest) = true ∧ munched = munchIdent (c :: rest) := by
  cases cut with
  | string mark => exact .inl ⟨mark, rfl⟩
  | comment isSlash star => exact .inr (.inl ⟨_, isSlash, star, rfl⟩)
  | ident starts => exact .inr (.inr ⟨starts, rfl⟩)
  | hash _ kind => rcases kind with rfl | rfl <;> exact Bool.noConfusion ends
  | @sign token named =>
      unfold signToken? at named
      split at named
      all_goals first
        | (obtain rfl := Option.some.inj named
           exact Bool.noConfusion ends)
        | cases named
  | number _ =>
      rw [munchNumber_eq] at ends
      repeat' split at ends
      all_goals exact Bool.noConfusion ends
  | _ => exact Bool.noConfusion ends

/-- The tokens that start with a name and a parenthesis. -/
def Token.isCall : Token → Bool
  | function _ | url | badUrl => true
  | _ => false

theorem munch_of_isCall (isCall : (munch c text).1.isCall = true) :
    startsIdent (c :: text) = true ∧ munch c text = munchIdent (c :: text) := by
  have ends : (munch c text).1.endsItself = true := by
    cases token : (munch c text).1 <;> first | rfl | (rw [token] at isCall; exact isCall)
  rcases (munches c text).of_endsItself ends with ⟨_, string⟩ | ⟨_, _, _, comment⟩ | ident
  · rw [string] at isCall
    dsimp only at isCall
    split at isCall <;> exact Bool.noConfusion isCall
  · rw [comment] at isCall
    exact Bool.noConfusion isCall
  · exact ident

theorem munchIdent_token (text : Text) :
    (∃ named, (munchIdent text).1 = .ident named ∨ (munchIdent text).1 = .function named) ∨
      (munchIdent text).1 = .url ∨ (munchIdent text).1 = .badUrl := by
  by_cases call : (text.drop (name text).2).head? = some '('
  · obtain ⟨argument, call⟩ := List.head?_eq_some_iff.1 call
    rw [munchIdent_of_call call]
    repeat' split
    · exact .inl ⟨_, .inr rfl⟩
    · exact .inr (urlLength_token _)
    · exact .inl ⟨_, .inr rfl⟩
  · rw [munchIdent_of_plain call]
    exact .inl ⟨_, .inl rfl⟩

theorem drop_name_of_isCall (isCall : (munchIdent text).1.isCall = true) :
    ∃ argument, text.drop (name text).2 = '(' :: argument := by
  by_cases call : (text.drop (name text).2).head? = some '('
  · exact List.head?_eq_some_iff.1 call
  · rw [munchIdent_of_plain call] at isCall
    exact Bool.noConfusion isCall

/-- Where a name is glued to a parenthesis, nothing else starts. -/
theorem munch_of_call {argument : Text} (starts : startsIdent (c :: text ++ rest) = true)
    (call : (c :: text).drop (name (c :: text ++ rest)).2 = '(' :: argument) :
    munch c (text ++ other) = munchIdent (c :: text ++ other) := by
  have pos : 1 ≤ (name (c :: text ++ rest)).2 := name_pos starts
  have paren : '(' ∈ text := by
    obtain ⟨length, same⟩ := Nat.exists_eq_succ_of_ne_zero (Nat.ne_of_gt pos)
    rw [same, List.drop_succ_cons] at call
    refine List.mem_of_mem_drop (i := length) ?_
    rw [call]
    exact List.mem_cons_self
  refine munch_of_startsIdent ?_ ?_
  · cases text with
    | nil => exact absurd paren List.not_mem_nil
    | cons d text => exact starts
  · rintro ⟨rfl, close⟩
    obtain ⟨tail, begins⟩ := List.isPrefixOf_iff_prefix.1 close
    rcases text with _ | ⟨d, _ | ⟨e, text⟩⟩
    · exact absurd paren List.not_mem_nil
    · obtain ⟨rfl, _⟩ := List.cons.inj begins
      exact absurd paren (by decide)
    · obtain ⟨rfl, behind⟩ := List.cons.inj begins
      obtain ⟨rfl, _⟩ := List.cons.inj behind
      have hyphen : isNameChar '-' = true ∧ '-' ≠ '\x00' := ⟨rfl, by decide⟩
      have hyphens : ∀ d ∈ ['-', '-'], isNameChar d = true ∧ d ≠ '\x00' :=
        List.forall_mem_cons.2 ⟨hyphen, List.forall_mem_singleton.2 hyphen⟩
      have ended : name ('-' :: '-' :: '>' :: (text ++ rest)) = (['-', '-'], 2) :=
        @name_append ['-', '-'] _ hyphens rfl
      simp only [List.cons_append, ended, List.drop_succ_cons, List.drop_zero] at call
      exact absurd (List.cons.inj call).1 (by decide)

/-- The white space at the start of a text ends in front of the first other character. -/
theorem spaces_inside {argument : Text} (stops : ∃ d ∈ argument, isSpace d = false) :
    (argument ++ other).takeWhile isSpace = argument.takeWhile isSpace ∧
      (argument ++ other).drop (argument.takeWhile isSpace).length =
        argument.drop (argument.takeWhile isSpace).length ++ other ∧
      (argument.drop (argument.takeWhile isSpace).length ++ other).head? =
        (argument.drop (argument.takeWhile isSpace).length).head? := by
  refine ⟨takeWhile_append_of_stops stops other,
    List.drop_append_of_le_length (length_takeWhile_le isSpace argument), ?_⟩
  cases behind : argument.drop (argument.takeWhile isSpace).length with
  | nil =>
      have whole : argument.takeWhile isSpace = argument :=
        (List.takeWhile_prefix isSpace).eq_of_length_le (List.drop_eq_nil_iff.1 behind)
      obtain ⟨d, member, dark⟩ := stops
      rw [← whole] at member
      rw [List.all_eq_true.1 List.all_takeWhile d member] at dark
      exact Bool.noConfusion dark
  | cons d tail => rfl

/-- What tells a function from a `url(` token. -/
theorem name_of_function {named argument : Text} {length : Nat}
    (call : text.drop (name text).2 = '(' :: argument)
    (function : munchIdent text = (.function named, length)) :
    name text = (named, length) ∧ (Text.equalAnyCase named ['u', 'r', 'l'] = true →
      (argument.drop (argument.takeWhile isSpace).length).head? = some '"' ∨
        (argument.drop (argument.takeWhile isSpace).length).head? = some '\'') := by
  have found (same : (Token.function (name text).1, (name text).2) = (.function named, length)) :
      name text = (named, length) :=
    Prod.ext (Token.function.inj (Prod.mk.inj same).1) (Prod.mk.inj same).2
  rw [munchIdent_of_call call] at function
  split at function
  · split at function
    · rename_i quoted
      exact ⟨found function, fun _ => quoted⟩
    · have token := (Prod.mk.inj function).1
      rcases urlLength_token (argument.drop (argument.takeWhile isSpace).length) with same | same
      · exact Token.noConfusion (same.symm.trans token)
      · exact Token.noConfusion (same.symm.trans token)
  · rename_i noUrl
    refine ⟨found function, fun isUrl => ?_⟩
    rw [found function] at noUrl
    exact absurd isUrl noUrl

/-- **A function is the same whatever follows**, if what stands behind it tells it from `url(`. -/
theorem munch_function_inside {named : Text} {length : Nat}
    (function : munch c (text ++ rest) = (.function named, length)) (within : length ≤ text.length)
    (stops : rest = [] ∨ ∃ d ∈ text.drop length, isSpace d = false) :
    munch c (text ++ other) = (.function named, length) := by
  obtain ⟨starts, reads⟩ := @munch_of_isCall (text ++ rest) c (by rw [function]; rfl)
  rw [reads] at function
  obtain ⟨argument, call⟩ := @drop_name_of_isCall (c :: (text ++ rest)) (by rw [function]; rfl)
  obtain ⟨named, quoted⟩ := name_of_function call function
  rw [named, ← List.cons_append] at call
  have inside : length ≤ (c :: text).length := Nat.le_succ_of_le within
  dsimp only at call
  rw [List.drop_append_of_le_length inside] at call
  cases opens : (c :: text).drop length with
  | nil =>
      have short := List.drop_eq_nil_iff.1 opens
      rw [List.length_cons] at short
      exact absurd (Nat.le_trans short within) (Nat.not_succ_le_self _)
  | cons paren front =>
      rw [opens, List.cons_append] at call
      obtain ⟨rfl, rfl⟩ := List.cons.inj call
      have call' : (c :: text).drop (name (c :: text ++ rest)).2 = '(' :: front := by
        rw [List.cons_append, named]
        exact opens
      have same : name (c :: text ++ other) = (_, length) := (name_call other call').trans named
      have behind : (c :: text ++ other).drop (name (c :: text ++ other)).2 =
          '(' :: (front ++ other) := by
        rw [same]
        dsimp only
        rw [List.drop_append_of_le_length inside, opens, List.cons_append]
      rw [munch_of_call other starts call', munchIdent_of_call behind, same]
      split
      · rename_i isUrl
        have stops : ∃ d ∈ front, isSpace d = false := by
          rcases stops with rfl | stops
          · have first := quoted isUrl
            rw [List.append_nil] at first
            rcases first with first | first
            · exact ⟨_, List.mem_of_mem_drop (List.mem_of_mem_head? first), rfl⟩
            · exact ⟨_, List.mem_of_mem_drop (List.mem_of_mem_head? first), rfl⟩
          · have tail := congrArg List.tail opens
            rw [List.tail_drop, List.drop_succ_cons] at tail
            rwa [tail] at stops
        obtain ⟨spaces, drops, head⟩ := spaces_inside rest stops
        obtain ⟨spaces', drops', head'⟩ := spaces_inside other stops
        have first := quoted isUrl
        rw [spaces, drops, head] at first
        rw [spaces', drops', head', if_pos first]
      · rfl

/-- A function at whose parenthesis or behind it a text ends is the same in front of anything. -/
theorem munch_of_function {named : Text} {more : Nat}
    (function : munch c text = (.function named, more)) :
    more ≤ text.length ∧ munch c (text ++ other) = (.function named, more) := by
  have within : more ≤ text.length := by
    obtain ⟨_, reads⟩ := @munch_of_isCall text c (by rw [function]; rfl)
    have found := function
    rw [reads] at found
    obtain ⟨argument, call⟩ := @drop_name_of_isCall (c :: text) (by rw [found]; rfl)
    have length := congrArg List.length call
    rw [(name_of_function call found).1, List.length_drop, List.length_cons,
      List.length_cons] at length
    dsimp only at length
    omega
  rw [← List.append_nil text] at function
  exact ⟨within, munch_function_inside other function within (.inl rfl)⟩

/-- How a `url(` token that takes `length` further characters is read from `text`. -/
structure ReadsUrl (text argument : Text) (token : Token) (length : Nat) : Prop where
  call : text.drop (name text).2 = '(' :: argument
  named : Text.equalAnyCase (name text).1 ['u', 'r', 'l'] = true
  unquoted : ¬ ((argument.drop (argument.takeWhile isSpace).length).head? = some '"' ∨
    (argument.drop (argument.takeWhile isSpace).length).head? = some '\'')
  token_eq : (urlLength (argument.drop (argument.takeWhile isSpace).length)).1 = token
  length_eq : (name text).2 + (argument.takeWhile isSpace).length +
    (urlLength (argument.drop (argument.takeWhile isSpace).length)).2 = length

namespace ReadsUrl

variable {argument : Text} {token : Token} {length : Nat}

theorem munchIdent_eq (reads : ReadsUrl text argument token length) :
    munchIdent text = (token, length) := by
  rw [munchIdent_of_call reads.call, if_pos reads.named, if_neg reads.unquoted, reads.token_eq,
    reads.length_eq]

theorem of_munchIdent (url : munchIdent text = (token, length))
    (isUrl : token = .url ∨ token = .badUrl) : ∃ argument, ReadsUrl text argument token length := by
  have noFunction (named : Text) (more : Nat) : (Token.function named, more) ≠ (token, length) := by
    intro same
    rcases isUrl with rfl | rfl <;> exact Token.noConfusion (Prod.mk.inj same).1
  obtain ⟨argument, call⟩ := @drop_name_of_isCall text
    (by rw [url]; rcases isUrl with rfl | rfl <;> rfl)
  rw [munchIdent_of_call call] at url
  split at url
  · rename_i named
    split at url
    · exact absurd url (noFunction _ _)
    · rename_i unquoted
      obtain ⟨read, taken⟩ := Prod.mk.inj url
      exact ⟨argument, call, named, unquoted, read, taken⟩
  · exact absurd url (noFunction _ _)

/-- The parenthesis belongs to a text in front of which such a token ends. -/
theorem exists_inside {behind : Text}
    (reads : ReadsUrl (c :: text ++ rest) behind token text.length) :
    ∃ argument, (c :: text).drop (name (c :: text ++ rest)).2 = '(' :: argument ∧
      behind = argument ++ rest ∧ (name (c :: text ++ rest)).2 + argument.length = text.length := by
  have inside : (name (c :: text ++ rest)).2 ≤ text.length := by
    have := reads.length_eq
    omega
  have call := reads.call
  rw [List.drop_append_of_le_length (Nat.le_succ_of_le inside)] at call
  cases drops : (c :: text).drop (name (c :: text ++ rest)).2 with
  | nil => exact absurd (List.drop_eq_nil_iff.1 drops) (Nat.not_le_of_lt (Nat.lt_succ_of_le inside))
  | cons d argument =>
      rw [drops] at call
      obtain ⟨rfl, same⟩ := List.cons.inj call
      have size := congrArg List.length drops
      rw [List.length_drop, List.length_cons, List.length_cons] at size
      exact ⟨argument, rfl, same.symm, by omega⟩

/-- **A `url(` token in front of another one** is the same whatever follows it. -/
theorem closed {behind : Text} (written : rest ≠ [])
    (reads : ReadsUrl (c :: text ++ rest) behind token text.length) :
    ∃ argument, (c :: text).drop (name (c :: text ++ rest)).2 = '(' :: argument ∧
      ReadsUrl (c :: text ++ other) (argument ++ other) token text.length := by
  obtain ⟨argument, opens, rfl, size⟩ := reads.exists_inside
  have taken := reads.length_eq
  have stops : ∃ d ∈ argument, isSpace d = false := by
    refine Classical.byContradiction fun spaces => ?_
    have blank : ∀ d ∈ argument, isSpace d = true := by simpa using spaces
    have whole := congrArg List.length (@List.takeWhile_append_of_pos _ _ _ rest blank)
    rw [List.length_append] at whole
    have none : (rest.takeWhile isSpace).length = 0 := by omega
    rw [whole, none, Nat.add_zero, List.drop_left] at taken
    have := urlLength_pos written
    omega
  obtain ⟨spaces, drops, head⟩ := spaces_inside rest stops
  obtain ⟨spaces', drops', head'⟩ := spaces_inside other stops
  have blanks := length_takeWhile_le isSpace argument
  have same : urlLength (argument.drop (argument.takeWhile isSpace).length ++ other) =
      urlLength (argument.drop (argument.takeWhile isSpace).length ++ rest) := by
    rw [spaces, drops] at taken
    refine urlLength_closed other written ?_
    rw [List.length_drop]
    omega
  have called := name_call other opens
  have inside : (name (c :: text ++ rest)).2 ≤ (c :: text).length := by
    rw [List.length_cons]
    omega
  obtain ⟨_, named, unquoted, read, length⟩ := reads
  rw [spaces, drops] at unquoted read length
  refine ⟨argument, opens, ?_, ?_, ?_, ?_, ?_⟩
  · rw [called, List.drop_append_of_le_length inside, opens, List.cons_append]
  · rw [called]
    exact named
  · rw [spaces', drops', head', ← head]
    exact unquoted
  · rw [spaces', drops', same]
    exact read
  · rw [spaces', drops', same, called]
    exact length

end ReadsUrl

/-- **A string, a `url(` token or a comment in front of another token** is the same whatever follows
it. A string that is cut off by the end of its line goes on in front of anything else. -/
theorem munch_closed {token : Token} (written : rest ≠ [])
    (inLine : token = .badString → newlineAhead rest = false)
    (cut : munch c (text ++ rest) = (token, text.length)) (ends : token.endsItself = true)
    (noFunction : ∀ named, token ≠ .function named) :
    munch c (text ++ other) = (token, text.length) := by
  have found := (munches c (text ++ rest)).of_endsItself (by rw [cut]; exact ends)
  rw [cut] at found
  rcases found with ⟨mark, string⟩ | ⟨inside, rfl, star, comment⟩ | ⟨starts, ident⟩
  · have quoted (more : Text) : munch c more =
        (if (stringLength c more).2 then .badString else .string, (stringLength c more).1) := by
      rcases mark with rfl | rfl <;> rfl
    obtain ⟨kind, length⟩ := Prod.mk.inj string
    rw [quoted, stringLength_closed other written (fun bad => inLine ?_)
      (Nat.le_of_eq length.symm), string]
    rw [kind, if_pos bad]
  · obtain ⟨rfl, length⟩ := Prod.mk.inj comment
    cases text with
    | nil =>
        rw [List.length_nil] at length
        omega
    | cons d text =>
        obtain ⟨rfl, rfl⟩ := List.cons.inj star
        change text.length + 1 = 1 + commentLength (text ++ rest) at length
        change (Token.comment, 1 + commentLength (text ++ other)) = _
        rw [commentLength_closed other written (by omega), ← length]
        rfl
  · have isUrl : token = .url ∨ token = .badUrl := by
      have same : token = (munchIdent (c :: (text ++ rest))).1 := congrArg Prod.fst ident
      rcases munchIdent_token (c :: (text ++ rest)) with ⟨named, plain | function⟩ | isUrl
      · rw [same, plain] at ends
        exact Bool.noConfusion ends
      · exact absurd (same.trans function) (noFunction named)
      · rwa [same]
    obtain ⟨argument, reads⟩ := ReadsUrl.of_munchIdent ident.symm isUrl
    obtain ⟨argument', opens, reads'⟩ := reads.closed other written
    rw [munch_of_call other starts opens, reads'.munchIdent_eq]

/-- Whether a token is finished: a letter behind it is no part of it. -/
def Lexeme.isFinished (lexeme : Lexeme) : Bool :=
  match lexeme.token with
  | .string | .badString | .url | .badUrl | .comment =>
      (lexemes (lexeme.text ++ ['x'])).head? == some ⟨lexeme.token, 0, lexeme.text⟩
  | _ => true

/-- The last quotation mark is escaped. -/
example : (⟨.string, 0, ['"', 'a', '\\', '"']⟩ : Lexeme).isFinished = false := by decide +kernel

/-- **A finished token is the same whatever follows it.** -/
theorem munch_of_isFinished {lexeme : Lexeme} (spelled : lexeme.text = c :: text)
    (ends : lexeme.token.endsItself = true) (noFunction : ∀ named, lexeme.token ≠ .function named)
    (finished : lexeme.isFinished = true) :
    munch c (text ++ other) = (lexeme.token, text.length) := by
  have head : (lexemes (c :: text ++ ['x'])).head? = some ⟨lexeme.token, 0, c :: text⟩ := by
    rw [← spelled]
    unfold Lexeme.isFinished at finished
    cases token : lexeme.token <;> rw [token] at ends finished <;>
      first
        | exact beq_iff_eq.1 finished
        | exact absurd token (noFunction _)
        | exact Bool.noConfusion ends
  rw [List.cons_append, lexemes, lexemesFrom_cons, List.head?_cons, Option.some.injEq] at head
  obtain ⟨token, _, taken⟩ := Lexeme.mk.inj head
  have length := congrArg List.length (List.cons.inj taken).2
  rw [List.length_take, List.length_append, List.length_singleton] at length
  refine @munch_closed _ ['x'] _ other _ (List.cons_ne_nil _ _) (fun _ => rfl) ?_ ends noFunction
  refine Prod.ext token ?_
  dsimp only
  omega

end Tokens

end Css

end ScssLint
