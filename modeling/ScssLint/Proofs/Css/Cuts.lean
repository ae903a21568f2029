import ScssLint.Proofs.Css.Locality

/-! # Tokens and rows of spaces

A token ends with another character than a space, or with a single space behind such a character, or
no space follows it (`Css.endsAt_munch`). So no row of spaces runs over the boundary of two tokens
(`Css.isCut_lexemes`), and such a boundary in a text whose line comments are blanked lies between
two characters of the text as it was (`Css.Stands.isBoundary`).
-/

namespace ScssLint

namespace Css

open Comment

/-- Whether a text ends with another character than a space, or with a single space behind one. -/
def IsFirm (text : Text) : Prop :=
  ∃ start c, c ≠ ' ' ∧ (text = start ++ [c] ∨ text = start ++ [c, ' '])

namespace IsFirm

variable {text : Text} {c : Char}

theorem append (firm : IsFirm text) (before : Text) : IsFirm (before ++ text) := by
  obtain ⟨start, c, dark, shape⟩ := firm
  refine ⟨before ++ start, c, dark, ?_⟩
  rcases shape with rfl | rfl
  · exact .inl (List.append_assoc ..).symm
  · exact .inr (List.append_assoc ..).symm

theorem of_last (dark : c ≠ ' ') (start : Text) : IsFirm (start ++ [c]) :=
  ⟨start, c, dark, .inl rfl⟩

/-- Any one character may follow one that is no space. -/
theorem of_last_two (dark : c ≠ ' ') (start : Text) (d : Char) : IsFirm (start ++ [c, d]) := by
  by_cases space : d = ' '
  · subst space
    exact ⟨start, c, dark, .inr rfl⟩
  · exact ⟨start ++ [c], d, space, .inl (List.append_assoc start [c] [d]).symm⟩

theorem of_notMem (written : text ≠ []) (dark : ' ' ∉ text) : IsFirm text := by
  obtain ⟨start, c, rfl⟩ : ∃ start c, text = start ++ [c] :=
    ⟨_, _, (List.dropLast_concat_getLast written).symm⟩
  exact of_last (fun same => dark (List.mem_append_right start (same ▸ List.mem_cons_self))) start

theorem not_suffix (firm : IsFirm text) : ¬ [' ', ' '] <:+ text := by
  obtain ⟨start, c, dark, rfl | rfl⟩ := firm <;> intro row <;>
    rw [← List.reverse_prefix, List.reverse_append] at row
  · exact dark (List.cons_prefix_cons.1 row).1.symm
  · exact dark (List.cons_prefix_cons.1 (List.cons_prefix_cons.1 row).2).1.symm

end IsFirm

/-- Whether the first `count` characters of a text end firmly or with no space behind them. -/
def EndsAt (count : Nat) (text : Text) : Prop :=
  IsFirm (text.take count) ∨ (text.drop count).head? ≠ some ' '

namespace EndsAt

variable {text rest : Text} {c : Char} {count more : Nat}

theorem add (ends : EndsAt count (text.drop more)) : EndsAt (more + count) text := by
  rw [EndsAt, List.drop_drop] at ends
  rw [EndsAt, List.take_add]
  exact ends.imp_left fun firm => firm.append _

theorem single (dark : c ≠ ' ') (rest : Text) : EndsAt 1 (c :: rest) :=
  .inl (.of_last dark [])

theorem cons (ends : EndsAt count rest) (c : Char) : EndsAt (count + 1) (c :: rest) :=
  ends.imp_left fun firm => firm.append [c]

/-- A unit of `1 + more` characters in front. -/
theorem behind (ends : EndsAt count (rest.drop more)) (c : Char) :
    EndsAt (1 + more + count) (c :: rest) := by
  refine .add ?_
  rwa [Nat.add_comm 1 more]

/-- A count that includes the first character. -/
theorem pred (dark : c ≠ ' ') (ends : count = 0 ∨ EndsAt count (c :: rest)) :
    EndsAt (count - 1 + 1) (c :: rest) := by
  cases count with
  | zero => exact single dark rest
  | succ count => exact ends.resolve_left (Nat.succ_ne_zero count)

end EndsAt

section Names

variable {c : Char} {text rest : Text}

/-- What follows the digits of an escape is at most one space. -/
theorem isFirm_spaceLength {d : Char} (dark : d ≠ ' ') (start text : Text) :
    IsFirm (start ++ [d] ++ text.take (spaceLength text)) := by
  cases text with
  | nil =>
      rw [List.take_nil, List.append_nil]
      exact .of_last dark start
  | cons c rest =>
      simp only [spaceLength]
      split
      · rename_i returns
        obtain ⟨rfl, feeds⟩ := returns
        obtain ⟨tail, rfl⟩ := List.head?_eq_some_iff.1 feeds
        exact .append (.of_last (c := '\n') (by decide) ['\r']) _
      · split
        · rw [List.append_assoc]
          exact .of_last_two dark start c
        · rw [List.take_zero, List.append_nil]
          exact .of_last dark start

theorem isFirm_escape (text : Text) : IsFirm ('\\' :: text.take (escape text).2) := by
  cases text with
  | nil => exact .of_last (by decide) []
  | cons d tail =>
      by_cases hex : isHexDigit d = true
      · have digits : ((d :: tail).take 6).takeWhile isHexDigit <+: d :: tail :=
          (List.takeWhile_prefix isHexDigit).trans (List.take_prefix 6 (d :: tail))
        have written : ((d :: tail).take 6).takeWhile isHexDigit ≠ [] := by
          rw [List.take_succ_cons, List.takeWhile_cons_of_pos hex]
          exact List.cons_ne_nil _ _
        obtain ⟨start, last, shape⟩ : ∃ start last,
            ((d :: tail).take 6).takeWhile isHexDigit = start ++ [last] :=
          ⟨_, _, (List.dropLast_concat_getLast written).symm⟩
        have dark : last ≠ ' ' := by
          rintro rfl
          have isDigit := List.all_eq_true.1 (List.all_takeWhile (p := isHexDigit)) ' '
            (shape ▸ List.mem_append_right start List.mem_cons_self)
          exact absurd isDigit (by decide)
        simp only [escape, hex, ↓reduceIte]
        rw [List.take_add, ← List.prefix_iff_eq_take.1 digits, shape]
        exact isFirm_spaceLength dark ('\\' :: start) _
      · simp only [escape, hex, Bool.false_eq_true, ↓reduceIte]
        split
        all_goals exact .of_last_two (by decide) [] d

theorem isFirm_nameUnit {decoded : Char} {more : Nat}
    (unit : nameUnit? c rest = some (decoded, more)) : IsFirm (c :: rest.take more) := by
  rcases nameUnit?_cases unit with ⟨rfl, _, escaped⟩ | ⟨isName, rfl⟩
  · have firm := isFirm_escape rest
    rwa [escaped] at firm
  · refine .of_last ?_ []
    rintro rfl
    exact absurd isName (by decide)

theorem isFirm_name (text : Text) : (name text).2 = 0 ∨ IsFirm (text.take (name text).2) := by
  fun_induction name text with
  | case1 => exact .inl rfl
  | case2 c rest noUnit => exact .inl rfl
  | case3 c rest decoded more unit tail length reads ih =>
      rw [reads] at ih
      refine .inr ?_
      rw [(take_unit c rest more length).1]
      rcases ih with rfl | firm
      · rw [List.take_zero, List.append_nil]
        exact isFirm_nameUnit unit
      · exact firm.append _

theorem endsAt_name (starts : startsIdent text = true) : EndsAt (name text).2 text := by
  cases text with
  | nil => exact Bool.noConfusion starts
  | cons c rest =>
      exact .inl ((isFirm_name _).resolve_left (Nat.ne_of_gt (name_pos starts)))

/-- A name behind a sign. -/
theorem endsAt_sign (dark : c ≠ ' ') (rest : Text) : EndsAt ((name rest).2 + 1) (c :: rest) := by
  rcases isFirm_name rest with nothing | firm
  · rw [nothing]
    exact .single dark rest
  · exact .cons (.inl firm) c

end Names

section Strings

theorem endsAt_string {quote : Char} (mark : quote ≠ ' ') (text : Text) :
    EndsAt (stringLength quote text).1 text := by
  fun_induction stringLength quote text with
  | case1 => exact .inr (Option.some_ne_none _).symm
  | case2 rest => exact .single mark rest
  | case3 c rest other breaks =>
      refine .inr fun space => ?_
      obtain rfl := Option.some.inj space
      exact absurd breaks (by decide)
  | case4 c rest other inside escaped length cut reads ih =>
      rw [reads] at ih
      exact ih.behind c

theorem endsAt_comment (text : Text) : EndsAt (commentLength text) text := by
  fun_induction commentLength text with
  | case1 => exact .inr (Option.some_ne_none _).symm
  | case2 rest => exact .cons (.single (by decide) rest) '*'
  | case3 c rest _ ih => exact .add ih

theorem endsAt_badUrl (text : Text) : EndsAt (badUrlLength text) text := by
  fun_induction badUrlLength text with
  | case1 => exact .inr (Option.some_ne_none _).symm
  | case2 rest => exact .single (by decide) rest
  | case3 rest ih => exact .add ih
  | case4 rest ih => exact .add ih
  | case5 c rest _ _ _ ih => exact .add ih

theorem endsAt_urlEnd (text : Text) : EndsAt (urlEndLength text).2 text := by
  simp only [urlEndLength]
  split
  · rename_i ended
    refine .inr ?_
    rw [ended]
    exact (Option.some_ne_none _).symm
  · rename_i rest closed
    refine .add ?_
    rw [closed]
    exact .single (by decide) rest
  · rename_i c rest _ goesOn
    rw [Nat.add_assoc]
    refine .add ?_
    rw [goesOn]
    exact .add (endsAt_badUrl rest)

theorem endsAt_url (text : Text) : EndsAt (urlLength text).2 text := by
  fun_induction urlLength text with
  | case1 => exact .inr (Option.some_ne_none _).symm
  | case2 c rest space => exact endsAt_urlEnd _
  | case3 rest _ => exact .single (by decide) rest
  | case4 c rest _ _ spoils => exact .add (endsAt_badUrl rest)
  | case5 c rest _ _ _ breaks => exact .add (endsAt_badUrl rest)
  | case6 c rest _ _ _ _ escaped token length reads ih =>
      rw [reads] at ih
      exact ih.behind c

end Strings

section Tokens

variable {c : Char} {text rest : Text}

theorem space_notMem_number (text : Text) : ' ' ∉ text.take (numberLength text) := by
  obtain ⟨start, behind, rfl, dark, stops⟩ := Text.exists_leading (· ≠ ' ') text
  have length : numberLength (start ++ behind) = numberLength start := by
    refine numberLength_append start ?_
    cases behind with
    | nil => rfl
    | cons c tail =>
        obtain rfl : c = ' ' := by simpa using stops c tail rfl
        rfl
  rw [length, List.take_append_of_le_length (numberLength_le start)]
  exact fun member => absurd (dark ' ' (List.mem_of_mem_take member)) (by decide)

theorem endsAt_number (c : Char) (rest : Text) :
    numberLength (c :: rest) = 0 ∨ EndsAt (numberLength (c :: rest)) (c :: rest) := by
  by_cases nothing : (c :: rest).take (numberLength (c :: rest)) = []
  · exact .inl ((List.take_eq_nil_iff.1 nothing).resolve_right (List.cons_ne_nil c rest))
  · exact .inr (.inl (.of_notMem nothing (space_notMem_number _)))

theorem endsAt_munchNumber (dark : c ≠ ' ') (rest : Text) :
    EndsAt ((munchNumber (c :: rest)).2 + 1) (c :: rest) := by
  rw [munchNumber_eq]
  split
  · rename_i percent
    obtain ⟨tail, behind⟩ := List.head?_eq_some_iff.1 percent
    refine .add ?_
    rw [behind]
    exact .single (by decide) tail
  · split
    · rename_i unit
      exact .pred dark (.inr (.add (endsAt_name unit)))
    · exact .pred dark (endsAt_number c rest)

theorem endsAt_munchIdent (dark : c ≠ ' ') (starts : startsIdent (c :: rest) = true) :
    EndsAt ((munchIdent (c :: rest)).2 + 1) (c :: rest) := by
  by_cases call : ((c :: rest).drop (name (c :: rest)).2).head? = some '('
  · obtain ⟨argument, behind⟩ := List.head?_eq_some_iff.1 call
    have function : EndsAt ((name (c :: rest)).2 + 1) (c :: rest) := by
      refine .add ?_
      rw [behind]
      exact .single (by decide) argument
    rw [munchIdent_of_call behind]
    split
    · split
      · exact function
      · rw [Nat.add_assoc, Nat.add_assoc]
        refine .add ?_
        rw [behind, ← Nat.add_assoc]
        exact .cons (.add (endsAt_url _)) '('
    · exact function
  · rw [munchIdent_of_plain call]
    exact .pred dark (.inr (endsAt_name starts))

/-- White space is taken as a whole. -/
theorem endsAt_space (c : Char) (rest : Text) :
    EndsAt ((rest.takeWhile isSpace).length + 1) (c :: rest) := by
  refine .inr fun space => ?_
  rw [List.drop_succ_cons, drop_length_takeWhile] at space
  have dark := List.head?_dropWhile_not isSpace rest
  rw [space] at dark
  exact absurd dark (by decide)

/-- **A token ends firmly, or no space follows it.** -/
theorem endsAt_munch (c : Char) (rest : Text) : EndsAt ((munch c rest).2 + 1) (c :: rest) := by
  by_cases space : isSpace c = true
  · rw [show munch c rest = _ from if_pos space]
    exact endsAt_space c rest
  have dark : c ≠ ' ' := by
    rintro rfl
    exact space rfl
  have cut := munches c rest
  generalize munch c rest = munched at cut
  cases cut with
  | space isSpace => exact absurd isSpace space
  | string _ => exact .cons (endsAt_string dark rest) c
  | hash _ _ => exact endsAt_sign dark rest
  | matcher equals =>
      obtain ⟨tail, rfl⟩ := List.head?_eq_some_iff.1 equals
      exact .cons (.single (by decide) tail) c
  | sign _ => exact .single dark rest
  | number _ => exact endsAt_munchNumber dark rest
  | commentClose _ marks =>
      obtain ⟨tail, rfl⟩ := marks
      exact .cons (.cons (.single (by decide) tail) '-') c
  | commentOpen _ marks =>
      obtain ⟨tail, rfl⟩ := marks
      exact .cons (.cons (.cons (.single (by decide) tail) '-') '!') c
  | @comment inside isSlash star =>
      subst isSlash star
      rw [Nat.add_comm 1]
      exact .cons (.cons (endsAt_comment inside) '*') '/'
  | atKeyword _ => exact endsAt_sign dark rest
  | ident starts => exact endsAt_munchIdent dark starts
  | delim _ _ => exact .single dark rest

/-- The tokens at the start of a text end like the last of them. -/
theorem ends_lexemesFrom {offset : Nat} {text : Text} {front back : List Lexeme}
    (split : lexemesFrom offset text = front ++ back) :
    front = [] ∨ IsFirm (spelling front) ∨ (spelling back).head? ≠ some ' ' := by
  induction front generalizing offset text with
  | nil => exact .inl rfl
  | cons first front ih =>
      refine .inr ?_
      cases text with
      | nil =>
          rw [lexemesFrom] at split
          exact absurd split.symm (List.cons_ne_nil _ _)
      | cons c rest =>
          rw [lexemesFrom_cons, List.cons_append] at split
          obtain ⟨rfl, others⟩ := List.cons.inj split
          rcases ih others with rfl | firm | noSpace
          · rw [List.nil_append] at others
            rw [← others, spelling_lexemesFrom, spelling_cons, spelling_nil, List.append_nil]
            exact endsAt_munch c rest
          · rw [spelling_cons]
            exact .inl (firm.append _)
          · exact .inr noSpace

/-- **No row of spaces runs over the boundary of two tokens.** -/
theorem isCut_lexemes {text : Text} {front back : List Lexeme}
    (split : lexemes text = front ++ back) : IsCut (spelling front) (spelling back) := by
  rcases ends_lexemesFrom split with rfl | firm | noSpace
  · exact fun row => absurd (List.suffix_nil.1 row) (List.cons_ne_nil _ _)
  · exact fun row => absurd row firm.not_suffix
  · exact fun _ => noSpace

end Tokens

/-- **Tokens of a blanked text stand between two characters of the text as it was.** -/
theorem Stands.isBoundary {source : Text} {low high : Nat} {tokens : List Lexeme}
    (stands : Stands (blankLineComments source) low tokens high) :
    source.IsBoundary low ∧ source.IsBoundary high := by
  obtain ⟨front, back, whole, rfl, rfl⟩ := stands
  have cut (first second : List Lexeme) (split : front ++ tokens ++ back = first ++ second) :
      source.IsBoundary (Text.bytes (spelling first)) := by
    rw [split] at whole
    have spelled : blankLineComments source = spelling first ++ spelling second := by
      rw [← spelling_append, ← whole, lexemes, spelling_lexemesFrom]
    exact isBoundary_of_blankLineComments spelled (isCut_lexemes whole)
  exact ⟨cut front (tokens ++ back) (List.append_assoc ..), cut (front ++ tokens) back rfl⟩

end Css

end ScssLint
