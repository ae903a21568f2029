import ScssLint.Proofs.Css.Sealing

/-! # Names that are written as they are read

A name without escapes is read as it is written (`Css.Lexeme.isVerbatim`). The name of a function
that is read so is an identifier where nothing goes on with it (`Css.lexes_ident_of_function`), and
what stands behind a parenthesis does not change the function, unless its name is `url`
(`Css.lexes_function_of_munch`).
-/

namespace ScssLint

namespace Css

/-- Whether an identifier or the name of a function is written as it is read. -/
def Lexeme.isVerbatim (lexeme : Lexeme) : Bool :=
  match lexeme.token with
  | .ident named => lexeme.text == named
  | .function named => lexeme.text == named ++ ['(']
  | _ => true

variable {c : Char} {more rest other named : Text}

/-- A character that stands for itself in a name is neither an escape nor null. -/
theorem plain_of_nameUnit? (unit : nameUnit? c rest = some (c, 0)) :
    isNameChar c = true ∧ c ≠ '\x00' := by
  unfold nameUnit? at unit
  split at unit
  · rename_i isEscape
    subst isEscape
    split at unit
    · exact absurd unit.symm (Option.some_ne_none _)
    · cases rest with
      | nil => exact absurd (congrArg Prod.fst (Option.some.inj unit)) (by decide)
      | cons d tail =>
          obtain ⟨more, length, _⟩ := escape_cons d tail
          rw [Option.some.inj unit] at length
          exact absurd length.symm (Nat.succ_ne_zero more)
  · split at unit
    · rename_i isNull
      subst isNull
      exact absurd (congrArg Prod.fst (Option.some.inj unit)) (by decide)
    · rename_i noNull
      split at unit
      · rename_i isName
        exact ⟨isName, noNull⟩
      · exact absurd unit.symm (Option.some_ne_none _)

theorem name_of_unit {decoded : Char} {taken : Nat} (unit : nameUnit? c rest = some (decoded, taken)) :
    name (c :: rest) =
      (decoded :: (name (rest.drop taken)).1, 1 + taken + (name (rest.drop taken)).2) := by
  rw [name, unit]

theorem name_of_none (unit : nameUnit? c rest = none) : name (c :: rest) = ([], 0) := by
  rw [name, unit]

theorem length_name_le (text : Text) : (name text).1.length ≤ (name text).2 := by
  induction text using induct_drop with
  | nil =>
      rw [name]
      exact Nat.le_refl 0
  | cons c text ih =>
      cases unit : nameUnit? c text with
      | none =>
          rw [name_of_none unit]
          exact Nat.le_refl 0
      | some found =>
          obtain ⟨decoded, taken⟩ := found
          have behind := ih taken
          rw [name_of_unit unit, List.length_cons]
          dsimp only
          omega

/-- **A name that is read as it is written is plain.** -/
theorem plain_of_name {text : Text} (read : name text = (named, named.length))
    (same : named <+: text) : ∀ d ∈ named, isNameChar d = true ∧ d ≠ '\x00' := by
  induction named generalizing text with
  | nil => exact List.forall_mem_nil _
  | cons d named ih =>
      obtain ⟨more, rfl⟩ := same
      rw [List.cons_append] at read
      cases unit : nameUnit? d (named ++ more) with
      | none =>
          rw [name_of_none unit] at read
          exact absurd (congrArg Prod.fst read).symm (List.cons_ne_nil _ _)
      | some found =>
          obtain ⟨decoded, taken⟩ := found
          rw [name_of_unit unit] at read
          obtain ⟨decodes, length⟩ := Prod.mk.inj read
          obtain ⟨rfl, behind⟩ := List.cons.inj decodes
          have enough := length_name_le ((named ++ more).drop taken)
          rw [behind] at enough
          rw [List.length_cons] at length
          obtain rfl : taken = 0 := by omega
          refine List.forall_mem_cons.2 ⟨plain_of_nameUnit? unit, ih ?_ (List.prefix_append _ more)⟩
          rw [List.drop_zero] at behind length
          exact Prod.ext behind (by dsimp only; omega)

/-- How a function is cut off in front of other tokens. -/
theorem AreCut.exists_munch_function {lexeme : Lexeme} {tokens : List Lexeme}
    (cut : AreCut (lexeme :: tokens)) (isFunction : lexeme.token = .function named) :
    ∃ c more, lexeme.text = c :: more ∧
      munch c (more ++ spelling tokens) = (.function named, more.length) := by
  obtain ⟨offset, cut⟩ := cut
  cases whole : spelling (lexeme :: tokens) with
  | nil =>
      rw [whole, lexemesFrom] at cut
      exact absurd cut.symm (List.cons_ne_nil _ _)
  | cons c rest =>
      rw [whole, lexemesFrom_cons] at cut
      obtain ⟨rfl, rfl⟩ := List.cons.inj cut
      have munched : munch c rest = (.function named, (munch c rest).2) := Prod.ext isFunction rfl
      have within := (munch_of_function [] munched).1
      refine ⟨c, _, rfl, ?_⟩
      rw [spelling_lexemesFrom, List.take_append_drop, List.length_take, Nat.min_eq_left within]
      exact munched

/-- What is cut off as a function is a name with a parenthesis behind it. -/
theorem drop_of_munch_function (cut : munch c (more ++ rest) = (.function named, more.length)) :
    startsIdent (c :: (more ++ rest)) = true ∧
      munchIdent (c :: (more ++ rest)) = (.function named, more.length) ∧
      (c :: more).drop more.length = ['('] := by
  obtain ⟨starts, reads⟩ := @munch_of_isCall (more ++ rest) c (by rw [cut]; rfl)
  rw [reads] at cut
  obtain ⟨argument, call⟩ := @drop_name_of_isCall (c :: (more ++ rest)) (by rw [cut]; rfl)
  refine ⟨starts, cut, ?_⟩
  rw [(name_of_function call cut).1, ← List.cons_append] at call
  dsimp only at call
  rw [List.drop_append_of_le_length (Nat.le_succ _)] at call
  have single : ((c :: more).drop more.length).length = 1 := by
    rw [List.length_drop, List.length_cons]
    omega
  obtain ⟨paren, isParen⟩ := List.length_eq_one_iff.1 single
  rw [isParen, List.singleton_append] at call
  rw [isParen, (List.cons.inj call).1]

/-- **A function is the same in front of something else**, unless that might make it a `url(` token. -/
theorem lexes_function_of_munch (cut : munch c (more ++ rest) = (.function named, more.length))
    (same : Text.equalAnyCase named ['u', 'r', 'l'] = true →
      (other.dropWhile isSpace).head? = (rest.dropWhile isSpace).head?) :
    Lexes (.function named) (c :: more) other := by
  obtain ⟨starts, reads, opens⟩ := drop_of_munch_function cut
  have within : more.length ≤ (c :: more).length := Nat.le_succ _
  have behind (text : Text) : (c :: more ++ text).drop more.length = '(' :: text := by
    rw [List.drop_append_of_le_length within, opens, List.singleton_append]
  have skips (text : Text) : text.drop (text.takeWhile isSpace).length = text.dropWhile isSpace :=
    (congrArg (List.drop _) List.takeWhile_append_dropWhile.symm).trans List.drop_left
  obtain ⟨argument, call⟩ := @drop_name_of_isCall (c :: (more ++ rest)) (by rw [reads]; rfl)
  obtain ⟨read, quoted⟩ := name_of_function call reads
  rw [read, ← List.cons_append] at call
  obtain rfl := (List.cons.inj ((behind rest).symm.trans call)).2
  have inside : (c :: more).drop (name (c :: more ++ rest)).2 = '(' :: [] := by
    rw [List.cons_append, read]
    exact opens
  have read' : name (c :: more ++ other) = (named, more.length) := (name_call other inside).trans read
  refine lexes_of_munch ?_
  rw [munch_of_call other starts inside,
    @munchIdent_of_call _ other (by rw [read']; exact behind other), read']
  split
  · rename_i isUrl
    have first := quoted isUrl
    rw [skips, ← same isUrl, ← skips] at first
    rw [if_pos first]
  · rfl

/-- **The name of a function that is written as it is read is an identifier** where nothing goes on
with it. -/
theorem lexes_ident_of_function {next : Text}
    (cut : munch c (more ++ rest) = (.function named, more.length))
    (verbatim : c :: more = named ++ ['(']) (stops : stopsName next = true)
    (noAngle : next.head? ≠ some '>') : Lexes (.ident named) named next := by
  obtain ⟨starts, reads, opens⟩ := drop_of_munch_function cut
  obtain ⟨argument, call⟩ := @drop_name_of_isCall (c :: (more ++ rest)) (by rw [reads]; rfl)
  have read := (name_of_function call reads).1
  have length : named.length = more.length := by
    have length := congrArg List.length verbatim
    rw [List.length_cons, List.length_append, List.length_singleton] at length
    omega
  have whole : c :: (more ++ rest) = named ++ ('(' :: rest) := by
    rw [← List.cons_append, verbatim, List.append_assoc, List.singleton_append]
  rw [whole, ← length] at read
  rw [whole] at starts
  have plain := plain_of_name read (List.prefix_append _ _)
  have read' : name (named ++ next) = (named, named.length) := name_append plain stops
  cases named with
  | nil => exact Bool.noConfusion starts
  | cons d tail =>
      have hyphened (hyphen : d = '-') : ∃ e more, tail = e :: more := by
        subst hyphen
        cases tail with
        | nil => exact Bool.noConfusion starts
        | cons e more => exact ⟨e, more, rfl⟩
      have starts' : startsIdent (d :: (tail ++ next)) = true := by
        by_cases hyphen : d = '-'
        · obtain ⟨e, more, rfl⟩ := hyphened hyphen
          subst hyphen
          exact starts
        · rw [startsIdent.eq_def] at starts ⊢
          have noEscape : d ≠ '\\' := by
            rintro rfl
            exact absurd (plain '\\' List.mem_cons_self).1 (by decide)
          simp only [List.cons_append, hyphen, noEscape, ↓reduceIte] at starts ⊢
          exact starts
      refine lexes_of_munch ?_
      rw [munch_of_startsIdent starts', munchIdent_of_name stops read']
      rintro ⟨hyphen, close⟩
      obtain ⟨e, more, rfl⟩ := hyphened hyphen
      obtain ⟨tail, begins⟩ := List.isPrefixOf_iff_prefix.1 close
      obtain ⟨rfl, behind⟩ := List.cons.inj begins
      cases more with
      | nil => exact noAngle (congrArg List.head? behind).symm
      | cons angle more =>
          obtain ⟨rfl, _⟩ := List.cons.inj behind
          exact absurd (plain '>' (List.mem_cons_of_mem _ (List.mem_cons_of_mem _ List.mem_cons_self))).1
            (by decide)

theorem stopsName_of_endsToken {text : Text} (ends : endsToken text = true) :
    stopsName text = true := by
  cases text with
  | nil => rfl
  | cons c rest =>
      simp only [endsToken, Bool.and_eq_true] at ends
      exact ends.1.1.1.1

section Sealed

variable {inside? : Option Bracket} {piece : Piece} {more : List Piece} {trail : List Lexeme}
  {other next : Text}

theorem Sealed.exists_munch_function (stands : Sealed inside? (piece :: more) trail)
    (isFunction : piece.token = .function named) :
    ∃ c tail, piece.head.text = c :: tail ∧
      munch c (tail ++ spelling (piece.own.tail ++ (more.flatMap Piece.lexemes ++ trail))) =
        (.function named, tail.length) := by
  have cut := stands.areCut_own
  obtain ⟨inside, own⟩ := piece.exists_own
  rw [own] at cut ⊢
  exact AreCut.exists_munch_function cut isFunction

theorem Sealed.lexes_function (stands : Sealed inside? (piece :: more) trail)
    (isFunction : piece.token = .function named)
    (same : Text.equalAnyCase named ['u', 'r', 'l'] = true → (other.dropWhile isSpace).head? =
      ((spelling (piece.own.tail ++ (more.flatMap Piece.lexemes ++ trail))).dropWhile isSpace).head?) :
    Lexes (.function named) piece.head.text other := by
  obtain ⟨c, tail, text, cut⟩ := stands.exists_munch_function isFunction
  rw [text]
  exact lexes_function_of_munch cut same

theorem Sealed.lexes_ident (stands : Sealed inside? (piece :: more) trail)
    (isFunction : piece.token = .function named) (verbatim : piece.head.isVerbatim = true)
    (meets : Meets next next) : Lexes (.ident named) named next := by
  obtain ⟨c, tail, text, cut⟩ := stands.exists_munch_function isFunction
  refine lexes_ident_of_function cut ?_ (stopsName_of_endsToken meets.ends) meets.noAngle
  change piece.head.token = .function named at isFunction
  rw [Lexeme.isVerbatim, isFunction] at verbatim
  rw [← text]
  exact beq_iff_eq.1 verbatim

end Sealed

end Css

end ScssLint
