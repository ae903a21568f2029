import ScssLint.Comment.Scanner

/-! # What a scanner looks ahead for

A scanner looks ahead in two places: behind the parenthesis of a `url(` for a quote, and behind a
block comment for code on the rest of the line. Both looks pass over white space
(`Comment.opensQuoted_append`, `Comment.hasCodeAhead_append`) and depend on the first two characters
behind it only (`Comment.hasCodeAhead_cons`).
-/

namespace ScssLint

namespace Text

/-- A text is cut in front of its first character that fails a test. -/
theorem exists_leading (passes : Char → Bool) (text : Text) :
    ∃ start rest, text = start ++ rest ∧ (∀ c ∈ start, passes c = true) ∧
      ∀ c tail, rest = c :: tail → passes c = false := by
  induction text with
  | nil => exact ⟨[], [], rfl, fun _ member => absurd member List.not_mem_nil, nofun⟩
  | cons c text ih =>
      cases passed : passes c with
      | true =>
          obtain ⟨start, rest, rfl, all, stops⟩ := ih
          refine ⟨c :: start, rest, rfl, ?_, stops⟩
          intro d member
          rcases List.mem_cons.1 member with rfl | later
          · exact passed
          · exact all d later
      | false =>
          refine ⟨[], c :: text, rfl, fun _ member => absurd member List.not_mem_nil, ?_⟩
          intro d tail same
          obtain ⟨rfl, rfl⟩ := List.cons.inj same
          exact passed

/-- The end of a text is trimmed behind its first character that is not blank. -/
theorem trimEnd_cons {c : Char} (dark : isBlank c = false) (rest : Text) :
    trimEnd (c :: rest) = c :: trimEnd rest := by
  have kept : (rest.reverse ++ [c]).dropWhile isBlank = rest.reverse.dropWhile isBlank ++ [c] := by
    rw [List.dropWhile_append]
    split
    · rename_i vanished
      rw [List.isEmpty_iff.1 vanished, List.dropWhile_cons_of_neg (by simp [dark])]
      rfl
    · rfl
  simp only [trimEnd, List.reverse_cons, kept, List.reverse_append, List.reverse_nil,
    List.nil_append, List.singleton_append]

/-- Nothing is trimmed in front of a character that is not blank. -/
theorem trimEnd_append_cons {c : Char} (dark : isBlank c = false) (front rest : Text) :
    trimEnd (front ++ c :: rest) = front ++ c :: trimEnd rest := by
  have kept : trimEnd (c :: rest) ≠ [] := by
    rw [trimEnd_cons dark]
    exact List.cons_ne_nil _ _
  rw [← trimEnd_cons dark]
  rw [trimEnd, Ne, List.reverse_eq_nil_iff] at kept
  rw [trimEnd, trimEnd, List.reverse_append, List.dropWhile_append,
    if_neg fun vanished => kept (List.isEmpty_iff.1 vanished), List.reverse_append,
    List.reverse_reverse]

theorem trim_cons_of_dark {c : Char} (dark : isBlank c = false) (rest : Text) :
    trim (c :: rest) = c :: trimEnd rest := by
  rw [trim, List.dropWhile_cons_of_neg (by simp [dark]), trimEnd_cons dark]

theorem trim_cons_of_blank {c : Char} (blank : isBlank c = true) (rest : Text) :
    trim (c :: rest) = trim rest := by
  rw [trim, List.dropWhile_cons_of_pos blank, trim]

/-- Trimming the end of a text keeps its first character, unless that is blank. -/
theorem head?_trimEnd {c : Char} (dark : isBlank c = false) (text : Text) :
    (trimEnd text).head? = some c ↔ text.head? = some c := by
  constructor
  · intro first
    obtain ⟨tail, trimmed⟩ := List.head?_eq_some_iff.1 first
    have cut : text = trimEnd text ++ (text.reverse.takeWhile isBlank).reverse := by
      rw [trimEnd, ← List.reverse_append, List.takeWhile_append_dropWhile, List.reverse_reverse]
    rw [cut, trimmed]
    rfl
  · intro first
    obtain ⟨tail, rfl⟩ := List.head?_eq_some_iff.1 first
    rw [trimEnd_cons dark]
    rfl

theorem dropWhile_of_blank {text : Text} (blank : ∀ c ∈ text, isBlank c = true) :
    text.dropWhile isBlank = [] := by
  have dropped := @List.dropWhile_append_of_pos _ isBlank text [] blank
  rwa [List.append_nil] at dropped

/-- White space around a text is trimmed, and nothing of the text if no white space is at its
ends. -/
theorem trim_around {front text back : Text} (blankFront : ∀ c ∈ front, isBlank c = true)
    (blankBack : ∀ c ∈ back, isBlank c = true) (first : ∀ c ∈ text.head?, isBlank c = false)
    (last : ∀ c ∈ text.getLast?, isBlank c = false) : trim (front ++ (text ++ back)) = text := by
  rw [trim, List.dropWhile_append_of_pos blankFront]
  rcases List.eq_nil_or_concat text with rfl | ⟨start, d, rfl⟩
  · rw [List.nil_append, dropWhile_of_blank blankBack]
    rfl
  · rw [List.concat_eq_append] at first last ⊢
    have dark := last d (List.getLast?_concat ..)
    have kept : (start ++ [d] ++ back).dropWhile isBlank = start ++ [d] ++ back := by
      cases start with
      | nil => exact List.dropWhile_cons_of_neg (by rw [dark]; exact Bool.noConfusion)
      | cons c start => exact List.dropWhile_cons_of_neg (by rw [first c rfl]; exact Bool.noConfusion)
    have trimmed : trimEnd back = [] := by
      rw [trimEnd, dropWhile_of_blank fun c member => blankBack c (List.mem_reverse.1 member)]
      rfl
    rw [kept, List.append_assoc, List.singleton_append, trimEnd_append_cons dark, trimmed]

theorem isBlank_of_head?_dropWhile (text : Text) :
    ∀ c ∈ (text.dropWhile isBlank).head?, isBlank c = false := by
  intro c first
  have stops := List.head?_dropWhile_not isBlank text
  rw [Option.mem_def.1 first] at stops
  exact stops

/-- What is trimmed stays as it is. -/
theorem trim_trim (text : Text) : trim (trim text) = trim text := by
  have first : ∀ c ∈ (trim text).head?, isBlank c = false := by
    intro c isFirst
    refine isBlank_of_head?_dropWhile text c ?_
    have start : trim text <+: text.dropWhile isBlank := by
      rw [trim, trimEnd]
      exact List.reverse_suffix.1 (by rw [List.reverse_reverse]; exact List.dropWhile_suffix _)
    obtain ⟨more, whole⟩ := start
    rw [← whole, List.head?_append, Option.mem_def.1 isFirst]
    rfl
  have last : ∀ c ∈ (trim text).getLast?, isBlank c = false := by
    intro c isLast
    rw [trim, trimEnd, List.getLast?_reverse] at isLast
    exact isBlank_of_head?_dropWhile _ c isLast
  have whole := @trim_around [] (trim text) [] (List.forall_mem_nil _) (List.forall_mem_nil _) first last
  rwa [List.append_nil, List.nil_append] at whole

end Text

namespace Comment

theorem opensQuoted_append {spaces : Text} (all : ∀ c ∈ spaces, isSpace c = true) (rest : Text) :
    opensQuoted (spaces ++ rest) = opensQuoted rest := by
  rw [opensQuoted, List.dropWhile_append_of_pos all, opensQuoted]

theorem opensQuoted_cons {c : Char} (dark : isSpace c = false) (rest : Text) :
    opensQuoted (c :: rest) = (c == '"' || c == '\'') := by
  rw [opensQuoted, List.dropWhile_cons_of_neg (by simp [dark])]

@[simp] theorem hasCodeAhead_nil : hasCodeAhead [] = false := rfl

@[simp] theorem hasCodeAhead_newline (rest : Text) : hasCodeAhead ('\n' :: rest) = false := by
  simp [hasCodeAhead, Text.trim, Text.trimEnd]

theorem hasCodeAhead_append {blanks : Text}
    (all : ∀ c ∈ blanks, isBlank c = true ∧ c ≠ '\n') (rest : Text) :
    hasCodeAhead (blanks ++ rest) = hasCodeAhead rest := by
  induction blanks with
  | nil => rfl
  | cons c blanks ih =>
      obtain ⟨blank, inside⟩ := all c List.mem_cons_self
      rw [← ih fun d member => all d (List.mem_cons_of_mem c member)]
      have taken : (c :: (blanks ++ rest)).takeWhile (· ≠ '\n') =
          c :: (blanks ++ rest).takeWhile (· ≠ '\n') :=
        List.takeWhile_cons_of_pos (by simpa using inside)
      rw [List.cons_append, hasCodeAhead, taken, Text.trim_cons_of_blank blank, hasCodeAhead]

/-- A line whose first character is not blank has code ahead, unless it starts with a comment. -/
theorem hasCodeAhead_cons {c : Char} (dark : isBlank c = false) (rest : Text) :
    hasCodeAhead (c :: rest) = true ↔
      ¬ (c = '/' ∧ (rest.head? = some '/' ∨ rest.head? = some '*')) := by
  have inside : c ≠ '\n' := by
    rintro rfl
    exact absurd dark (by decide)
  have taken : (c :: rest).takeWhile (· ≠ '\n') = c :: rest.takeWhile (· ≠ '\n') :=
    List.takeWhile_cons_of_pos (by simpa using inside)
  have second (sign : Char) (darkSign : isBlank sign = false) (sameLine : sign ≠ '\n') :
      Text.startsWith ['/', sign] (c :: Text.trimEnd (rest.takeWhile (· ≠ '\n'))) = true ↔
        c = '/' ∧ rest.head? = some sign := by
    have head : (Text.trimEnd (rest.takeWhile (· ≠ '\n'))).head? = some sign ↔
        rest.head? = some sign := by
      rw [Text.head?_trimEnd darkSign, List.head?_takeWhile]
      constructor
      · exact fun found => (Option.filter_eq_some_iff.1 found).1
      · exact fun found => Option.filter_eq_some_iff.2 ⟨found, by simpa using sameLine⟩
    rw [← head]
    cases Text.trimEnd (rest.takeWhile (· ≠ '\n')) with
    | nil => simp [Text.startsWith]
    | cons d tail =>
        simp only [Text.startsWith, List.isPrefixOf, Bool.and_true, Bool.and_eq_true, beq_iff_eq,
          List.head?_cons, Option.some.injEq]
        exact ⟨fun same => ⟨same.1.symm, same.2.symm⟩, fun same => ⟨same.1.symm, same.2.symm⟩⟩
  have slashes := second '/' (by decide) (by decide)
  have star := second '*' (by decide) (by decide)
  rw [hasCodeAhead, taken, Text.trim_cons_of_dark dark]
  simp only [List.isEmpty_cons, Bool.not_false, Bool.true_and, Bool.and_eq_true, Bool.not_eq_true',
    ← Bool.not_eq_true, slashes, star, ← not_or, ← and_or_left]

end Comment

end ScssLint
