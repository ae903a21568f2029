import ScssLint.Proofs.Css.Locality

/-! # Runs of name characters

A run of letters, digits, hyphens and underscores that ends in front of an interpolation, or with
the text, is one token if it is an identifier, or a number with its unit (`Css.lexes_word`). Any
other run falls apart: a hyphen stands alone in it, or follows a number to which it does not belong
(`Css.lexemesFrom_broken`).
-/

namespace ScssLint

namespace Css

def isRunChar (c : Char) : Bool :=
  c.isAlphanum || c == '-' || c == '_'

/-- Whether a run of name characters is an identifier, or a number with a unit or without. -/
def isWord (run : Text) : Bool :=
  startsIdent run ||
    (run != ['-'] && ((run.drop (numberLength run)).isEmpty ||
      startsIdent (run.drop (numberLength run))))

/-- The tokens that a run can start with. -/
def Token.startsRun : Token → Bool
  | ident _ | number | percentage | dimension => true
  | delim sign => sign != '#'
  | _ => false

namespace Token

variable {token : Token}

theorem opens?_of_startsRun (starts : token.startsRun = true) : token.opens? = none := by
  cases token <;> first | rfl | exact Bool.noConfusion starts

theorem ne_comment_of_startsRun (starts : token.startsRun = true) : token ≠ .comment := by
  rintro rfl
  exact Bool.noConfusion starts

theorem ne_hash_of_startsRun (starts : token.startsRun = true) : token ≠ .delim '#' := by
  rintro rfl
  exact Bool.noConfusion starts

end Token

section Run

variable {c : Char} {run tail rest : Text}

theorem isNameChar_of_isRunChar (inside : isRunChar c = true) :
    isNameChar c = true ∧ c ≠ '\x00' := by
  refine ⟨?_, ?_⟩
  · simp only [isRunChar, Char.isAlphanum, Bool.or_eq_true, beq_iff_eq] at inside
    simp only [isNameChar, isNameStart, Bool.or_eq_true, beq_iff_eq]
    rcases inside with ((alpha | digit) | hyphen) | underscore
    · exact .inl (.inl (.inl (.inl (.inl alpha))))
    · exact .inl (.inr digit)
    · exact .inr hyphen
    · exact .inl (.inl (.inl (.inl (.inr underscore))))
  · rintro rfl
    exact absurd inside (by decide)

theorem ne_of_isRunChar {d : Char} (inside : isRunChar c = true) (other : isRunChar d = false) :
    c ≠ d := by
  rintro rfl
  rw [inside] at other
  exact Bool.noConfusion other

theorem isNameStart_of_isDigit (digit : c.isDigit = true) : isNameStart c = false := by
  have small := toNat_of_isDigit digit
  apply Bool.eq_false_iff.2
  intro start
  simp only [isNameStart, Bool.or_eq_true, beq_iff_eq, decide_eq_true_eq] at start
  rcases start with ((alpha | rfl) | rfl) | wide
  · rcases Bool.or_eq_true_iff.1 alpha with upper | lower
    · have := toNat_of_isUpper upper
      omega
    · have := toNat_of_isLower lower
      omega
  · exact absurd digit (by decide)
  · exact absurd digit (by decide)
  · omega

theorem startsNumber_cons {d : Char} (number : startsNumber (d :: tail) = true) :
    d.isDigit = true ∨ d = '.' := by
  by_cases digit : d.isDigit = true
  · exact .inl digit
  · refine .inr (Decidable.byContradiction fun noPoint => ?_)
    have noFraction : fractionLength (d :: tail) = 0 :=
      fractionLength.eq_2 _ fun later same => noPoint (List.cons.inj same).1
    simp [startsNumber, digits, digit, noFraction] at number

/-- A run starts with a digit if no identifier starts there, apart from a hyphen in front. -/
theorem isDigit_of_startsIdent (inside : isRunChar c = true)
    (noIdent : startsIdent (c :: tail) = false) :
    c.isDigit = true ∨ c = '-' ∧ ∀ d ∈ tail.head?, isRunChar d = true → d.isDigit = true := by
  have digit {d : Char} (inside : isRunChar d = true) (hyphen : d ≠ '-')
      (noStart : isNameStart d = false) : d.isDigit = true := by
    simp only [isNameStart, Bool.or_eq_false_iff] at noStart
    simp only [isRunChar, Char.isAlphanum, Bool.or_eq_true, beq_iff_eq] at inside
    rcases inside with ((alpha | digit) | same) | same
    · rw [noStart.1.1.1] at alpha
      exact Bool.noConfusion alpha
    · exact digit
    · exact absurd same hyphen
    · rw [same] at noStart
      exact absurd noStart.1.1.2 (by decide)
  by_cases hyphen : c = '-'
  · subst hyphen
    refine .inr ⟨rfl, fun d first inside => ?_⟩
    obtain ⟨later, rfl⟩ := List.head?_eq_some_iff.1 first
    simp only [startsIdent, ↓reduceIte, Bool.or_eq_false_iff, beq_eq_false_iff_ne] at noIdent
    exact digit inside noIdent.1.2 noIdent.1.1
  · have noBackslash : c ≠ '\\' := ne_of_isRunChar inside rfl
    simp only [startsIdent, hyphen, noBackslash, ↓reduceIte] at noIdent
    exact .inl (digit inside hyphen noIdent)

/-- An identifier is no number. -/
theorem not_startsNumber_of_startsIdent (plain : ∀ d ∈ c :: tail, isRunChar d = true)
    (ident : startsIdent (c :: tail) = true) : ¬ StartsNumber c (tail ++ rest) := by
  have first := plain c List.mem_cons_self
  rintro (digit | ⟨rfl | rfl, number⟩ | ⟨rfl, _⟩)
  · have hyphen : c ≠ '-' := by
      rintro rfl
      exact absurd digit (by decide)
    have noBackslash : c ≠ '\\' := ne_of_isRunChar first rfl
    simp only [startsIdent, hyphen, noBackslash, ↓reduceIte] at ident
    rw [isNameStart_of_isDigit digit] at ident
    exact Bool.noConfusion ident
  · exact absurd first (by decide)
  · cases tail with
    | nil => exact Bool.noConfusion ident
    | cons d tail =>
        simp only [startsIdent, ↓reduceIte, Bool.or_eq_true, beq_iff_eq] at ident
        rcases startsNumber_cons number with digit | rfl
        · rw [isNameStart_of_isDigit digit] at ident
          rcases ident with (start | rfl) | rfl
          · exact Bool.noConfusion start
          · exact absurd digit (by decide)
          · exact absurd digit (by decide)
        · exact absurd ident (by decide)
  · exact absurd first (by decide)

theorem startsNumber_of_noIdent (plain : ∀ d ∈ c :: tail, isRunChar d = true)
    (noIdent : startsIdent (c :: tail) = false) (more : c :: tail ≠ ['-']) :
    StartsNumber c (tail ++ rest) := by
  obtain ⟨first, others⟩ := List.forall_mem_cons.1 plain
  rcases isDigit_of_startsIdent first noIdent with digit | ⟨rfl, second⟩
  · exact .inl digit
  · cases tail with
    | nil => exact absurd rfl more
    | cons d tail =>
        have digit := second d rfl (others d List.mem_cons_self)
        refine .inr (.inl ⟨.inr rfl, ?_⟩)
        simp [startsNumber, digits, digit]

/-- A number has a first character. -/
theorem numberLength_pos (starts : c.isDigit = true ∨ c = '-') : 0 < numberLength (c :: tail) := by
  rw [numberLength_eq, mantissaLength]
  by_cases sign : c = '+' ∨ c = '-'
  · have signed : signLength (c :: tail) = 1 := by
      rcases sign with rfl | rfl <;> rfl
    omega
  · have digit := starts.resolve_right fun hyphen => sign (.inr hyphen)
    have unsigned : signLength (c :: tail) = 0 := by
      simp [signLength, not_or.1 sign]
    have first : 0 < digits (c :: tail) := by
      simp [digits, digit]
    rw [unsigned, List.drop_zero]
    omega

variable (ends : ∀ d ∈ rest.head?, d = '#')

include ends

theorem rest_cases : rest = [] ∨ ∃ later, rest = '#' :: later := by
  cases rest with
  | nil => exact .inl rfl
  | cons d later => exact .inr ⟨later, by rw [ends d rfl]⟩

theorem stopsName_rest : stopsName rest = true := by
  rcases rest_cases ends with rfl | ⟨later, rfl⟩ <;> rfl

theorem stopsNumber_rest : stopsNumber rest = true := by
  rcases rest_cases ends with rfl | ⟨later, rfl⟩ <;> rfl

theorem startsIdent_append (text : Text) : startsIdent (text ++ rest) = startsIdent text := by
  rcases rest_cases ends with rfl | ⟨later, rfl⟩
  · rw [List.append_nil]
  · cases text with
    | nil => rfl
    | cons c text => cases text <;> rfl

theorem head?_append_of_run (plain : ∀ d ∈ run, isRunChar d = true) :
    ∀ d ∈ (run ++ rest).head?, isRunChar d = true ∨ d = '#' := by
  intro d first
  cases run with
  | nil => exact .inr (ends d first)
  | cons c run =>
      obtain rfl := Option.some.inj first
      exact .inl (plain c List.mem_cons_self)

/-- How a run is cut. -/
theorem munch_run (plain : ∀ d ∈ c :: tail, isRunChar d = true) :
    StartsNumber c (tail ++ rest) ∧ munch c (tail ++ rest) = munchNumber (c :: (tail ++ rest)) ∨
      startsIdent (c :: tail) = true ∧ munch c (tail ++ rest) = munchIdent (c :: (tail ++ rest)) ∨
      ¬ StartsNumber c (tail ++ rest) ∧ startsIdent (c :: tail) = false ∧
        munch c (tail ++ rest) = (.delim c, 0) := by
  obtain ⟨first, others⟩ := List.forall_mem_cons.1 plain
  have other {d : Char} (outside : isRunChar d = false) : c ≠ d := ne_of_isRunChar first outside
  have follows := head?_append_of_run ends others
  have ident : startsIdent (c :: (tail ++ rest)) = startsIdent (c :: tail) :=
    startsIdent_append ends (c :: tail)
  have cut := munches c (tail ++ rest)
  generalize munch c (tail ++ rest) = munched at cut
  rw [← ident]
  cases cut with
  | space space =>
      simp only [isSpace, Bool.or_eq_true, beq_iff_eq] at space
      rcases space with (((rfl | rfl) | rfl) | rfl) | rfl <;> exact absurd first (by decide)
  | string mark => exact absurd mark (not_or.2 ⟨other rfl, other rfl⟩)
  | hash isHash _ => exact absurd isHash (other rfl)
  | matcher equals =>
      rcases follows _ equals with inside | same
      · exact absurd inside (by decide)
      · exact absurd same (by decide)
  | sign named =>
      unfold signToken? at named
      split at named <;> first | exact absurd named.symm (Option.some_ne_none _) |
        exact absurd first (by decide)
  | number starts => exact .inl ⟨starts, rfl⟩
  | commentClose _ arrow =>
      obtain ⟨later, same⟩ := arrow
      cases tail with
      | nil =>
          obtain rfl : rest = '-' :: '>' :: later := same.symm
          exact absurd (ends '-' rfl) (by decide)
      | cons d tail =>
          have second : (tail ++ rest).head? = some '>' :=
            (congrArg List.head? (List.cons.inj same).2).symm
          rcases head?_append_of_run ends (List.forall_mem_cons.1 others).2 _ second with
            inside | hash
          · exact absurd inside (by decide)
          · exact absurd hash (by decide)
  | commentOpen isLess _ => exact absurd isLess (other rfl)
  | comment isSlash _ => exact absurd isSlash (other rfl)
  | atKeyword isAt => exact absurd isAt (other rfl)
  | ident starts => exact .inr (.inl ⟨starts, rfl⟩)
  | delim noNumber noIdent => exact .inr (.inr ⟨noNumber, noIdent, rfl⟩)

theorem munchNumber_run (plain : ∀ d ∈ run, isRunChar d = true) :
    munchNumber (run ++ rest) =
      if startsIdent (run.drop (numberLength run)) then (.dimension, run.length - 1)
      else (.number, numberLength run - 1) := by
  have inside : ∀ d ∈ run.drop (numberLength run), isRunChar d = true :=
    fun d member => plain d (List.mem_of_mem_drop member)
  have within := numberLength_le run
  have noPercent : (run.drop (numberLength run) ++ rest).head? ≠ some '%' := by
    intro percent
    rcases head?_append_of_run ends inside _ percent with inside | hash
    · exact absurd inside (by decide)
    · exact absurd hash (by decide)
  rw [munchNumber_eq, numberLength_append run (stopsNumber_rest ends),
    List.drop_append_of_le_length within, if_neg noPercent, startsIdent_append ends,
    name_append (fun d member => isNameChar_of_isRunChar (inside d member)) (stopsName_rest ends),
    List.length_drop, Nat.add_sub_cancel' within]

/-- An identifier is one token. -/
theorem lexes_run (plain : ∀ d ∈ run, isRunChar d = true) (ident : startsIdent run = true) :
    Lexes (.ident run) run rest := by
  cases run with
  | nil => exact Bool.noConfusion ident
  | cons c tail =>
      rcases munch_run ends plain with ⟨number, _⟩ | ⟨_, cut⟩ | ⟨_, other, _⟩
      · exact absurd number (not_startsNumber_of_startsIdent plain ident)
      · rw [munchIdent_of_name (stopsName_rest ends) (name_append
          (fun d member => isNameChar_of_isRunChar (plain d member)) (stopsName_rest ends))] at cut
        exact lexes_of_munch cut
      · rw [ident] at other
        exact Bool.noConfusion other

/-- **An identifier, or a number with its unit, is one token.** -/
theorem lexes_word (plain : ∀ d ∈ run, isRunChar d = true) (written : run ≠ [])
    (word : isWord run = true) :
    ∃ token, Lexes token run rest ∧
      ((∃ name, token = .ident name) ∨ token = .number ∨ token = .dimension) := by
  cases run with
  | nil => exact absurd rfl written
  | cons c tail =>
      cases ident : startsIdent (c :: tail) with
      | true => exact ⟨_, lexes_run ends plain ident, .inl ⟨_, rfl⟩⟩
      | false =>
          rw [isWord, ident, Bool.false_or, Bool.and_eq_true, bne_iff_ne, Bool.or_eq_true,
            List.isEmpty_iff] at word
          obtain ⟨more, unit⟩ := word
          rcases munch_run ends plain with ⟨_, cut⟩ | ⟨other, _⟩ | ⟨noNumber, _, _⟩
          · rw [← List.cons_append, munchNumber_run ends plain] at cut
            by_cases named : startsIdent ((c :: tail).drop (numberLength (c :: tail))) = true
            · rw [if_pos named] at cut
              exact ⟨_, lexes_of_munch cut, .inr (.inr rfl)⟩
            · rw [if_neg named] at cut
              have whole : numberLength (c :: tail) = (c :: tail).length :=
                Nat.le_antisymm (numberLength_le _)
                  (List.drop_eq_nil_iff.1 (unit.resolve_right named))
              rw [whole] at cut
              exact ⟨_, lexes_of_munch cut, .inr (.inl rfl)⟩
          · rw [ident] at other
            exact Bool.noConfusion other
          · exact absurd (startsNumber_of_noIdent plain ident more) noNumber

/-- Any run starts with a token that is neither a bracket nor a comment nor the sign of an
interpolation. -/
theorem exists_startsRun (plain : ∀ d ∈ run, isRunChar d = true) (written : run ≠ [])
    (offset : Nat) :
    ∃ lexeme later, lexemesFrom offset (run ++ rest) = lexeme :: later ∧
      lexeme.token.startsRun = true := by
  cases run with
  | nil => exact absurd rfl written
  | cons c tail =>
      refine ⟨_, _, lexemesFrom_cons offset c (tail ++ rest), ?_⟩
      rcases munch_run ends plain with ⟨_, cut⟩ | ⟨_, cut⟩ | ⟨_, _, cut⟩
      · rw [cut, ← List.cons_append, munchNumber_run ends plain]
        split <;> rfl
      · rw [cut, munchIdent_of_name (stopsName_rest ends) (name_append
          (fun d member => isNameChar_of_isRunChar (plain d member)) (stopsName_rest ends))]
        rfl
      · rw [cut]
        exact bne_iff_ne.2 (ne_of_isRunChar (plain c List.mem_cons_self) rfl)

/-- **Any other run falls apart.** -/
theorem lexemesFrom_broken (plain : ∀ d ∈ run, isRunChar d = true) (written : run ≠ [])
    (broken : isWord run = false) (offset : Nat) :
    (∃ later, lexemesFrom offset (run ++ rest) = ⟨.delim '-', offset, ['-']⟩ :: later) ∨
      ∃ number unit next later, run = number ++ unit ∧ unit ≠ [] ∧
        lexemesFrom offset (run ++ rest) = ⟨.number, offset, number⟩ :: next :: later ∧
        next.token.startsRun = true := by
  cases run with
  | nil => exact absurd rfl written
  | cons c tail =>
      simp only [isWord, Bool.or_eq_false_iff, Bool.and_eq_false_iff, bne_eq_false_iff_eq,
        List.isEmpty_eq_false_iff] at broken
      obtain ⟨noIdent, rfl, rfl⟩ | ⟨noIdent, left, noUnit⟩ := and_or_left.1 broken
      · rcases rest_cases ends with rfl | ⟨later, rfl⟩
        · exact .inl ⟨_, lexemesFrom_cons offset '-' []⟩
        · exact .inl ⟨_, lexemesFrom_cons offset '-' ('#' :: later)⟩
      by_cases lone : c :: tail = ['-']
      · rw [lone] at left
        exact absurd rfl left
      -- The number ends behind `count + 1` characters.
      obtain ⟨count, length⟩ : ∃ count, numberLength (c :: tail) = count + 1 :=
        Nat.exists_eq_add_one.2 (numberLength_pos
          ((isDigit_of_startsIdent (plain c List.mem_cons_self) noIdent).imp_right And.left))
      have within : count ≤ tail.length := by
        have := numberLength_le (c :: tail)
        rw [length, List.length_cons] at this
        omega
      have cut : munch c (tail ++ rest) = (.number, count) := by
        rcases munch_run ends plain with ⟨_, cut⟩ | ⟨other, _⟩ | ⟨noNumber, _, _⟩
        · rw [cut, ← List.cons_append, munchNumber_run ends plain, if_neg, length]
          · rfl
          · rw [noUnit]
            exact Bool.noConfusion
        · rw [noIdent] at other
          exact Bool.noConfusion other
        · exact absurd (startsNumber_of_noIdent plain noIdent lone) noNumber
      rw [length, List.drop_succ_cons] at left
      have plainUnit : ∀ d ∈ tail.drop count, isRunChar d = true :=
        fun d member => plain d (List.mem_cons_of_mem c (List.mem_of_mem_drop member))
      obtain ⟨next, later, reads, starts⟩ :=
        exists_startsRun ends plainUnit left (offset + Text.bytes (c :: tail.take count))
      refine .inr ⟨c :: tail.take count, tail.drop count, next, later, ?_, left, ?_, starts⟩
      · rw [List.cons_append, List.take_append_drop]
      · rw [List.cons_append, lexemesFrom_cons, cut, List.take_append_of_le_length within,
          List.drop_append_of_le_length within, reads]

end Run

end Css

end ScssLint
