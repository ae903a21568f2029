import ScssLint.Proofs.Text.Utf8
import ScssLint.Source.LineIndex

/-! # Lines and columns of offsets

The lines that start at or before an offset are the first one and those behind the line feeds in
front of the offset (`LineIndex.startsUpTo_ofText`), so the line of an offset counts these line
feeds and the column the characters behind the last of them (`LineIndex.lineCol_append`). Positions
are therefore in the order of the offsets as long as 32 bits are enough for the counts
(`LineIndex.lineCol_exact`); at the end of a text of nearly 4 GiB they may not be
(`LineIndex.lineCol_longLine`).
-/

namespace ScssLint

namespace Text

/-- The characters behind the last line feed of a text. -/
def lastLine (text : Text) : Text :=
  (text.reverse.takeWhile (· ≠ '\n')).reverse

theorem newline_notMem_lastLine (text : Text) : '\n' ∉ lastLine text := by
  intro member
  rw [lastLine, List.mem_reverse] at member
  exact of_decide_eq_true (List.all_eq_true.1 List.all_takeWhile '\n' member) rfl

/-- Nothing or a line feed stands in front of the last line. -/
theorem exists_lastLine (text : Text) :
    ∃ front, text = front ++ lastLine text ∧ (front = [] ∨ ∃ lines, front = lines ++ ['\n']) := by
  refine ⟨(text.reverse.dropWhile (· ≠ '\n')).reverse, ?_, ?_⟩
  · rw [lastLine, ← List.reverse_append, List.takeWhile_append_dropWhile, List.reverse_reverse]
  · cases shape : text.reverse.dropWhile (· ≠ '\n') with
    | nil => exact .inl rfl
    | cons c rest =>
        have ends := List.head?_dropWhile_not (· ≠ '\n') text.reverse
        rw [shape] at ends
        have isNewline : c = '\n' := by simpa using ends
        exact .inr ⟨rest.reverse, by rw [isNewline, List.reverse_cons]⟩

theorem lastLine_append {more : Text} (whole : '\n' ∉ more) (text : Text) :
    lastLine (text ++ more) = lastLine text ++ more := by
  have kept : ∀ c ∈ more.reverse, decide (c ≠ '\n') = true := by
    intro c member
    refine decide_eq_true fun same => whole ?_
    exact List.mem_reverse.1 (same ▸ member)
  rw [lastLine, List.reverse_append, List.takeWhile_append_of_pos kept, List.reverse_append,
    List.reverse_reverse, lastLine]

theorem length_le_bytes (text : Text) : text.length ≤ bytes text := by
  induction text with
  | nil => exact Nat.le_refl 0
  | cons c rest ih =>
      have positive := c.utf8Size_pos
      rw [List.length_cons, bytes_cons]
      omega

/-- The characters in the bytes of a beginning are its characters. -/
theorem charsWithin?_append (line rest : Text) :
    charsWithin? (bytes line) (line ++ rest) = some line.length := by
  induction line with
  | nil => rw [bytes_nil, charsWithin?, List.length_nil]
  | cons c line ih =>
      obtain ⟨count, length⟩ := Nat.exists_eq_add_one.2 (bytes_pos (List.cons_ne_nil c line))
      have left : count + 1 - c.utf8Size = bytes line := by
        rw [← length, bytes_cons, Nat.add_sub_cancel_left]
      have fits : c.utf8Size ≤ count + 1 := by
        rw [← length, bytes_cons]
        exact Nat.le_add_right _ _
      rw [length, List.cons_append, charsWithin?, if_pos fits, left, ih, Option.map_some,
        List.length_cons]

end Text

namespace LineIndex

theorem startsAfter_append (offset : Nat) (before behind : Text) :
    startsAfter offset (before ++ behind) =
      startsAfter offset before ++ startsAfter (offset + Text.bytes before) behind := by
  induction before generalizing offset with
  | nil => rfl
  | cons c before ih =>
      simp only [List.cons_append, startsAfter, ih, Text.bytes_cons, Nat.add_assoc]
      split <;> rfl

/-- A line starts behind the line feed in front of it. -/
theorem of_mem_startsAfter {offset start : Nat} {text : Text}
    (member : start ∈ startsAfter offset text) :
    offset < start ∧ start ≤ offset + Text.bytes text := by
  induction text generalizing offset with
  | nil => exact absurd member List.not_mem_nil
  | cons c rest ih =>
      have positive := c.utf8Size_pos
      have later (member : start ∈ startsAfter (offset + c.utf8Size) rest) :
          offset < start ∧ start ≤ offset + Text.bytes (c :: rest) := by
        have bounds := ih member
        rw [Text.bytes_cons]
        omega
      rw [startsAfter] at member
      split at member
      · rcases List.mem_cons.1 member with rfl | inRest
        · rw [Text.bytes_cons]
          omega
        · exact later inRest
      · exact later member

theorem length_startsAfter (offset : Nat) (text : Text) :
    (startsAfter offset text).length = text.count '\n' := by
  induction text generalizing offset with
  | nil => rfl
  | cons c rest ih =>
      rw [startsAfter, List.count_cons]
      split
      · rename_i isNewline
        rw [List.length_cons, ih, if_pos (beq_iff_eq.2 isNewline)]
      · rename_i other
        rw [ih, if_neg fun same => other (beq_iff_eq.1 same), Nat.add_zero]

theorem startsAfter_eq_nil {text : Text} (whole : '\n' ∉ text) (offset : Nat) :
    startsAfter offset text = [] := by
  rw [← List.length_eq_zero_iff, length_startsAfter, List.count_eq_zero]
  exact whole

/-- **The lines up to an offset** are the first one and those behind the line feeds in front. -/
theorem startsUpTo_ofText (before behind : Text) :
    (ofText (before ++ behind)).startsUpTo (Text.bytes before) = 0 :: startsAfter 0 before := by
  have first : ∀ start ∈ startsAfter 0 before, decide (start ≤ Text.bytes before) = true :=
    fun start member => decide_eq_true (by have := of_mem_startsAfter member; omega)
  have later : ∀ start ∈ startsAfter (0 + Text.bytes before) behind,
      ¬ decide (start ≤ Text.bytes before) = true := by
    intro start member
    have bounds := of_mem_startsAfter member
    rw [decide_eq_true_eq]
    omega
  dsimp only [startsUpTo, ofText]
  rw [List.filter_cons, if_pos (decide_eq_true (Nat.zero_le _)), startsAfter_append,
    List.filter_append, List.filter_eq_self.2 first, List.filter_eq_nil_iff.2 later, List.append_nil]

/-- The last of these lines starts where the last line of the text in front does. -/
theorem getLastD_startsAfter {front line : Text} (whole : '\n' ∉ line)
    (ends : front = [] ∨ ∃ lines, front = lines ++ ['\n']) :
    (0 :: startsAfter 0 (front ++ line)).getLastD 0 = Text.bytes front := by
  rw [startsAfter_append, startsAfter_eq_nil whole, List.append_nil]
  rcases ends with rfl | ⟨lines, rfl⟩
  · rfl
  · have newline : startsAfter (0 + Text.bytes lines) ['\n'] = [Text.bytes (lines ++ ['\n'])] := by
      simp [startsAfter]
    rw [startsAfter_append, newline, ← List.cons_append, List.getLastD_eq_getLast?,
      List.getLast?_concat, Option.getD_some]

theorem fromOne_lt (count : Nat) : fromOne count < UInt32.size :=
  (UInt32.ofNat count + 1).toNat_lt

/-- Below the greatest number of 32 bits nothing is lost. -/
theorem fromOne_eq {count : Nat} (small : count < UInt32.size - 1) : fromOne count = 1 + count := by
  have fits : count < UInt32.size := Nat.lt_of_lt_pred small
  have one : (1 : UInt32).toNat = 1 := rfl
  rw [fromOne, UInt32.toNat_add, UInt32.toNat_ofNat_of_lt' fits, one, Nat.add_comm 1]
  exact Nat.mod_eq_of_lt (Nat.succ_lt_of_lt_pred small)

/-- **The line and the column of an offset between two parts of a text.** -/
theorem lineCol_append (before behind : Text) {offset : Nat}
    (clamped : min offset (Text.bytes (before ++ behind)) = Text.bytes before) :
    (ofText (before ++ behind)).lineCol (before ++ behind) offset =
      (fromOne (before.count '\n'), fromOne (Text.lastLine before).length) := by
  obtain ⟨front, split, ends⟩ := Text.exists_lastLine before
  have start : (0 :: startsAfter 0 before).getLastD 0 = Text.bytes front := by
    rw [split]
    exact getLastD_startsAfter (Text.newline_notMem_lastLine before) ends
  have distance : Text.bytes before - Text.bytes front = Text.bytes (Text.lastLine before) := by
    conv => lhs; rw [split]
    rw [Text.bytes_append, Nat.add_sub_cancel_left]
  have behindFront : Text.dropBytes (Text.bytes front) (before ++ behind) =
      Text.lastLine before ++ behind := by
    conv => lhs; rw [split]
    rw [List.append_assoc, Text.dropBytes_append (Nat.le_refl _), Nat.sub_self,
      Text.dropBytes_zero]
  simp only [lineCol, clamped, startsUpTo_ofText, start, distance, behindFront,
    Text.charsWithin?_append, Option.getD_some, List.length_cons, length_startsAfter,
    Nat.add_sub_cancel]

/-- A later cut of a text has a later line, or the same line and a later column. -/
theorem lex_of_append (before : Text) {more : Text} (written : more ≠ []) :
    Prod.Lex (· < ·) (· < ·) (1 + before.count '\n', 1 + (Text.lastLine before).length)
      (1 + (before ++ more).count '\n', 1 + (Text.lastLine (before ++ more)).length) := by
  by_cases breaks : '\n' ∈ more
  · have positive := List.count_pos_iff.2 breaks
    refine .left _ _ ?_
    rw [List.count_append]
    omega
  · have longer := List.length_pos_iff.2 written
    rw [List.count_append, List.count_eq_zero.2 breaks, Nat.add_zero,
      Text.lastLine_append breaks, List.length_append]
    exact .right _ (by omega)

/-- Whether the line and the column of the end of a text are numbers of 32 bits. -/
def HasSmallEnd (text : Text) : Prop :=
  text.count '\n' < UInt32.size - 1 ∧ (Text.lastLine text).length < UInt32.size - 1

/-- In a text of less than 4 GiB the end is the only place whose line or column can need more. -/
theorem HasSmallEnd.front {before behind : Text} (small : HasSmallEnd (before ++ behind))
    (short : Text.bytes (before ++ behind) < UInt32.size) : HasSmallEnd before := by
  by_cases ends : behind = []
  · rwa [ends, List.append_nil] at small
  · obtain ⟨front, split, _⟩ := Text.exists_lastLine before
    have lines : before.count '\n' ≤ before.length := List.count_le_length
    have columns := congrArg List.length split
    have counted := Text.length_le_bytes before
    have later := Text.bytes_pos ends
    rw [List.length_append] at columns
    rw [Text.bytes_append] at short
    exact ⟨by omega, by omega⟩

theorem lineCol_of_hasSmallEnd {before behind : Text} {offset : Nat} (small : HasSmallEnd before)
    (clamped : min offset (Text.bytes (before ++ behind)) = Text.bytes before) :
    (ofText (before ++ behind)).lineCol (before ++ behind) offset =
      (1 + before.count '\n', 1 + (Text.lastLine before).length) := by
  rw [lineCol_append before behind clamped, fromOne_eq small.1, fromOne_eq small.2]

theorem min_bytes_append (before behind : Text) :
    min (Text.bytes before) (Text.bytes (before ++ behind)) = Text.bytes before := by
  rw [Text.bytes_append]
  exact Nat.min_eq_left (Nat.le_add_right _ _)

/-- Where the end is found by counting, its line and its column are numbers of 32 bits. -/
theorem hasSmallEnd_of_lineCol {text : Text}
    (counts : (ofText text).lineCol text (Text.bytes text) =
      (1 + text.count '\n', 1 + (Text.lastLine text).length)) : HasSmallEnd text := by
  have place := lineCol_append text [] (min_bytes_append text [])
  rw [List.append_nil, counts] at place
  obtain ⟨line, column⟩ := Prod.mk.inj place
  have lineFits := fromOne_lt (text.count '\n')
  have columnFits := fromOne_lt (Text.lastLine text).length
  rw [← line] at lineFits
  rw [← column] at columnFits
  exact ⟨by omega, by omega⟩

/-- **Lines count line feeds, columns count characters**, and both are in the order of the offsets,
exactly in the texts of less than 4 GiB whose end has a line and a column of 32 bits. -/
theorem lineCol_exact (text : Text) (short : Text.bytes text < UInt32.size) :
    ((∀ before behind offset, text = before ++ behind →
        min offset (Text.bytes text) = Text.bytes before →
        (ofText text).lineCol text offset =
          (1 + before.count '\n', 1 + (Text.lastLine before).length)) ↔ HasSmallEnd text) ∧
    (HasSmallEnd text → ∀ first second, text.IsBoundary first → text.IsBoundary second →
      first < second → Prod.Lex (· < ·) (· < ·) ((ofText text).lineCol text first)
        ((ofText text).lineCol text second)) := by
  refine ⟨⟨fun counts => ?_, ?_⟩, ?_⟩
  · exact hasSmallEnd_of_lineCol
      (counts text [] _ (List.append_nil text).symm (Nat.min_self _))
  · rintro small before behind offset rfl clamped
    exact lineCol_of_hasSmallEnd (small.front short) clamped
  · rintro small _ _ ⟨before, behind, rfl, rfl⟩ ⟨before', behind', whole, rfl⟩ order
    obtain ⟨more, rfl, rfl⟩ : ∃ more, before' = before ++ more ∧ behind = more ++ behind' := by
      rcases List.append_eq_append_iff.1 whole with ⟨more, rfl, rfl⟩ | ⟨more, rfl, rfl⟩
      · exact ⟨more, rfl, rfl⟩
      · rw [Text.bytes_append] at order
        omega
    have written : more ≠ [] := by
      rintro rfl
      rw [List.append_nil] at order
      exact Nat.lt_irrefl _ order
    have first := lineCol_of_hasSmallEnd (small.front short)
      (min_bytes_append before (more ++ behind'))
    rw [← List.append_assoc] at small short
    have second := lineCol_of_hasSmallEnd (small.front short)
      (min_bytes_append (before ++ more) behind')
    rw [List.append_assoc before more behind'] at second
    rw [first, second]
    exact lex_of_append before written

/-- A text with a character of two bytes. -/
def accented : Text := "a \x7B\n  é: x;\n\x7D".toList

/-- The character behind it and the end of the text, also when asked for from far behind. -/
theorem lineCol_exact_accented :
    Text.bytes accented < UInt32.size ∧ HasSmallEnd accented ∧
      (ofText accented).lineCol accented 10 = (2, 6) ∧
      (ofText accented).lineCol accented 100 = (3, 2) ∧
      Prod.Lex (· < ·) (· < ·) ((ofText accented).lineCol accented 8)
        ((ofText accented).lineCol accented 10) := by
  have short : Text.bytes accented < UInt32.size := by decide +kernel
  have small : HasSmallEnd accented := ⟨by decide +kernel, by decide +kernel⟩
  obtain ⟨counts, ascends⟩ := lineCol_exact accented short
  have inLine := counts.2 small "a \x7B\n  é: ".toList "x;\n\x7D".toList 10 rfl (by decide +kernel)
  have atEnd := counts.2 small accented [] 100 rfl (by decide +kernel)
  refine ⟨short, small, inLine.trans (by decide +kernel), atEnd.trans (by decide +kernel), ?_⟩
  exact ascends small 8 10 ⟨"a \x7B\n  é".toList, ": x;\n\x7D".toList, rfl, by decide +kernel⟩
    ⟨"a \x7B\n  é: ".toList, "x;\n\x7D".toList, rfl, by decide +kernel⟩ (by decide)

/-- The longest line of letters in a text of less than 4 GiB. -/
def longLine : Text := List.replicate (UInt32.size - 1) 'a'

theorem bytes_replicate (count : Nat) : Text.bytes (List.replicate count 'a') = count := by
  induction count with
  | zero => rfl
  | succ count ih =>
      rw [List.replicate_succ, Text.bytes_cons, ih, Nat.add_comm]
      rfl

theorem lastLine_of_notMem {text : Text} (whole : '\n' ∉ text) : Text.lastLine text = text :=
  Text.lastLine_append whole []

theorem newline_notMem_longLine : '\n' ∉ longLine := fun member =>
  absurd (List.eq_of_mem_replicate member) (by decide)

/-- The column of its end is zero, which is not the number of the letters in front and one. -/
theorem lineCol_longLine :
    Text.bytes longLine < UInt32.size ∧
      (ofText longLine).lineCol longLine (Text.bytes longLine) = (1, 0) ∧
      (1 + longLine.count '\n', 1 + (Text.lastLine longLine).length) = (1, UInt32.size) := by
  have length : longLine.length = UInt32.size - 1 := List.length_replicate
  have size : Text.bytes longLine = UInt32.size - 1 := bytes_replicate _
  have lines : longLine.count '\n' = 0 := List.count_eq_zero.2 newline_notMem_longLine
  have place := lineCol_append longLine [] (min_bytes_append longLine [])
  rw [List.append_nil, lines, lastLine_of_notMem newline_notMem_longLine, length] at place
  refine ⟨?_, place.trans (by decide +kernel), ?_⟩
  · rw [size]
    decide
  · rw [lines, lastLine_of_notMem newline_notMem_longLine, length]
    rfl

end LineIndex

end ScssLint
