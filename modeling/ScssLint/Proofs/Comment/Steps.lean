import ScssLint.Comment.Blanking

/-! # The steps of a scanner

What a scanner hands out, step by step. Away from line comments a step reads one character and what
its reaction takes along (`Comment.Scanner.toList_step`); a line comment is read at once, with the
line break that closes it (`Comment.Scanner.toList_line`) or to the end of the text
(`Comment.Scanner.toList_lastLine`). Every scanner that is not inside a line comment proceeds by
these steps (`Comment.Scanner.induct_steps`).
-/

namespace ScssLint

namespace Comment

/-- Whether a scanner is inside a line comment. -/
def Mode.isLine : Mode → Bool
  | .line .. => true
  | _ => false

namespace Scanner

variable {blocks flag : Bool} {before rest : Text}

/-- What stands in front of the scanner, taken as a text of its own. -/
theorem toList_nil {scanner : Scanner} (outside : scanner.mode.isLine = false)
    (ended : scanner.rest = []) : scanner.toList = [] := by
  obtain ⟨blocks, before, rest, mode, flag⟩ := scanner
  subst ended
  rw [toList]
  cases mode with
  | line start inline body => simp [Mode.isLine] at outside
  | _ => rfl

/-- A step hands out what is found in it. -/
theorem toList_step {scanner : Scanner} {c : Char} {rest : Text}
    (ahead : scanner.rest = c :: rest) :
    scanner.toList = (scanner.react c rest).found.toList ++
      (scanner.after c rest (scanner.react c rest)).toList := by
  obtain ⟨blocks, before, rest', mode, flag⟩ := scanner
  subst ahead
  rw [toList]

theorem takeWhile_of_notMem {line : Text} (whole : '\n' ∉ line) :
    line.takeWhile (· ≠ '\n') = line := by
  have all : ∀ c ∈ line, decide (c ≠ '\n') = true := fun c member =>
    decide_eq_true fun same => whole (same ▸ member)
  have taken : (line ++ []).takeWhile (· ≠ '\n') = line ++ [].takeWhile (· ≠ '\n') :=
    List.takeWhile_append_of_pos all
  rwa [List.append_nil, List.takeWhile_nil, List.append_nil] at taken

theorem takeWhile_append_newline {line : Text} (whole : '\n' ∉ line) (rest : Text) :
    (line ++ '\n' :: rest).takeWhile (· ≠ '\n') = line := by
  have all : ∀ c ∈ line, decide (c ≠ '\n') = true := fun c member =>
    decide_eq_true fun same => whole (same ▸ member)
  rw [List.takeWhile_append_of_pos all, List.takeWhile_cons_of_neg (by simp), List.append_nil]

/-- A line comment ends in front of the first line break. -/
theorem react_line {start : Nat} {inlineBefore : Bool} {body line tail : Text} {c : Char}
    (whole : '\n' ∉ line) (ahead : c :: rest = line ++ '\n' :: tail) :
    (⟨blocks, before, c :: rest, .line start inlineBefore body, flag⟩ : Scanner).react c rest =
      ⟨line.length, .code, false, some (ofLine start inlineBefore (withoutReturn line))⟩ := by
  have lineEq : (c :: rest).takeWhile (· ≠ '\n') = line := by
    rw [ahead, takeWhile_append_newline whole]
  have fits : line.length ≤ rest.length := by
    have lengths := congrArg List.length ahead
    simp only [List.length_cons, List.length_append] at lengths
    omega
  simp only [react, lineEq, fits, ↓reduceIte]

/-- Without a line break a line comment takes all that is left. -/
theorem react_lastLine {start : Nat} {inlineBefore : Bool} {body : Text} {c : Char}
    (whole : '\n' ∉ c :: rest) :
    (⟨blocks, before, c :: rest, .line start inlineBefore body, flag⟩ : Scanner).react c rest =
      ⟨rest.length, .line start inlineBefore (c :: rest), flag, none⟩ := by
  have lineEq : (c :: rest).takeWhile (· ≠ '\n') = c :: rest := takeWhile_of_notMem whole
  have long : ¬ (c :: rest).length ≤ rest.length := by
    rw [List.length_cons]
    omega
  simp only [react, lineEq, long, ↓reduceIte]

theorem react_slashes :
    (⟨blocks, before, '/' :: '/' :: rest, .code, flag⟩ : Scanner).react '/' ('/' :: rest) =
      ⟨1, .line (Text.bytes before) flag [], flag, none⟩ := by
  simp only [react, offset, List.head?_cons, and_self, ↓reduceIte]

theorem toList_slashes :
    (⟨blocks, before, '/' :: '/' :: rest, .code, flag⟩ : Scanner).toList =
      (⟨blocks, '/' :: '/' :: before, rest, .line (Text.bytes before) flag [], flag⟩ :
        Scanner).toList := by
  rw [toList_step rfl, react_slashes]
  rfl

/-- **A line comment and the line break behind it.** -/
theorem toList_line {line : Text} (whole : '\n' ∉ line) :
    (⟨blocks, before, '/' :: '/' :: (line ++ '\n' :: rest), .code, flag⟩ : Scanner).toList =
      ofLine (Text.bytes before) flag (withoutReturn line) ::
        (⟨blocks, '\n' :: (line.reverse ++ '/' :: '/' :: before), rest, .code, false⟩ :
          Scanner).toList := by
  rw [toList_slashes]
  cases line with
  | nil =>
      have ahead : '\n' :: rest = [] ++ '\n' :: rest := rfl
      rw [List.nil_append, toList_step rfl, react_line whole ahead]
      rfl
  | cons d line =>
      have ahead : d :: (line ++ '\n' :: rest) = (d :: line) ++ '\n' :: rest := rfl
      rw [List.cons_append, toList_step rfl, react_line whole ahead]
      simp [after, List.take_length_add_append]

/-- **A line comment that the end of the text cuts off.** -/
theorem toList_lastLine {line : Text} (whole : '\n' ∉ line) :
    (⟨blocks, before, '/' :: '/' :: line, .code, flag⟩ : Scanner).toList =
      [ofLine (Text.bytes before) flag line] := by
  rw [toList_slashes]
  cases line with
  | nil =>
      rw [toList]
      rfl
  | cons d line =>
      rw [toList_step rfl, react_lastLine whole]
      simp [after, toList, finish]

/-- Characters that a scanner reads as ordinary text wherever they stand in it. -/
def isPlain (c : Char) : Bool :=
  c != '/' && c != '"' && c != '\'' && c != '\\' && c != '('

theorem isPlain_of_isSpace {c : Char} (space : isSpace c = true) : isPlain c = true := by
  simp only [isSpace, Bool.or_eq_true, beq_iff_eq] at space
  rcases space with (((rfl | rfl) | rfl) | rfl) | rfl <;> rfl

theorem react_plain {c : Char} (plain : isPlain c = true) :
    (⟨blocks, before, c :: rest, .code, flag⟩ : Scanner).react c rest =
      ⟨0, .code, hasCodeAfter flag c, none⟩ := by
  simp only [isPlain, Bool.and_eq_true, bne_iff_ne, ne_eq] at plain
  obtain ⟨⟨⟨⟨slash, double⟩, single⟩, backslash⟩, paren⟩ := plain
  simp only [react, slash, double, single, backslash, paren, false_and, or_self, ↓reduceIte]

theorem toList_plainChar {c : Char} (plain : isPlain c = true) :
    (⟨blocks, before, c :: rest, .code, flag⟩ : Scanner).toList =
      (⟨blocks, c :: before, rest, .code, hasCodeAfter flag c⟩ : Scanner).toList := by
  rw [toList_step rfl, react_plain plain]
  rfl

theorem toList_slash (alone : rest.head? ≠ some '/') (noBlock : rest.head? ≠ some '*') :
    (⟨blocks, before, '/' :: rest, .code, flag⟩ : Scanner).toList =
      (⟨blocks, '/' :: before, rest, .code, true⟩ : Scanner).toList := by
  have reads : hasCodeAfter flag '/' = true := by simp [hasCodeAfter, isSpace]
  rw [toList_step rfl]
  simp only [react, alone, noBlock, and_false, ↓reduceIte, reads]
  rfl

theorem toList_opensBlock :
    (⟨blocks, before, '/' :: '*' :: rest, .code, flag⟩ : Scanner).toList =
      (⟨blocks, '*' :: '/' :: before, rest, .block (Text.bytes before) flag [], flag⟩ :
        Scanner).toList := by
  rw [toList_step rfl]
  rfl

theorem toList_opensString {quote : Char} (mark : quote = '"' ∨ quote = '\'') :
    (⟨blocks, before, quote :: rest, .code, flag⟩ : Scanner).toList =
      (⟨blocks, quote :: before, rest, .quoted quote, true⟩ : Scanner).toList := by
  rw [toList_step rfl]
  rcases mark with rfl | rfl <;> rfl

/-- A backslash at the end of a line or of the text stands alone. -/
theorem toList_backslash (ended : ∀ c ∈ rest.head?, c = '\n') :
    (⟨blocks, before, '\\' :: rest, .code, flag⟩ : Scanner).toList =
      (⟨blocks, '\\' :: before, rest, .code, true⟩ : Scanner).toList := by
  rw [toList_step rfl]
  cases rest with
  | nil => rfl
  | cons c rest =>
      obtain rfl := ended c rfl
      rfl

theorem toList_escape {c : Char} (inLine : c ≠ '\n') :
    (⟨blocks, before, '\\' :: c :: rest, .code, flag⟩ : Scanner).toList =
      (⟨blocks, c :: '\\' :: before, rest, .code, true⟩ : Scanner).toList := by
  have length : escapeLength (c :: rest) = 1 := by simp only [escapeLength, inLine, ↓reduceIte]
  have reaction : (⟨blocks, before, '\\' :: c :: rest, .code, flag⟩ : Scanner).react '\\'
      (c :: rest) = ⟨1, .code, true, none⟩ := by
    rw [← length]
    rfl
  rw [toList_step rfl, reaction]
  rfl

theorem toList_opensUrl (named : endsInUrl before = true) (unquoted : opensQuoted rest = false) :
    (⟨blocks, before, '(' :: rest, .code, flag⟩ : Scanner).toList =
      (⟨blocks, '(' :: before, rest, .url, true⟩ : Scanner).toList := by
  have reaction : (⟨blocks, before, '(' :: rest, .code, flag⟩ : Scanner).react '(' rest =
      ⟨0, .url, true, none⟩ := by
    simp [react, named, unquoted]
  rw [toList_step rfl, reaction]
  rfl

theorem toList_paren (ordinary : (endsInUrl before && !opensQuoted rest) = false) :
    (⟨blocks, before, '(' :: rest, .code, flag⟩ : Scanner).toList =
      (⟨blocks, '(' :: before, rest, .code, true⟩ : Scanner).toList := by
  have reaction : (⟨blocks, before, '(' :: rest, .code, flag⟩ : Scanner).react '(' rest =
      ⟨0, .code, true, none⟩ := by
    simp [react, ordinary]
  rw [toList_step rfl, reaction]
  rfl

section Strings

variable {c quote : Char}

theorem toList_inString (other : c ≠ quote) (plain : c ≠ '\\') :
    (⟨blocks, before, c :: rest, .quoted quote, flag⟩ : Scanner).toList =
      (⟨blocks, c :: before, rest, .quoted quote, hasCodeAfter flag c⟩ : Scanner).toList := by
  rw [toList_step rfl]
  simp only [react, other, plain, ↓reduceIte]
  rfl

/-- A backslash in a string and the character behind it, also if that is a line break. -/
theorem toList_escapeInString (inLine : '\n' ≠ quote) :
    (⟨blocks, before, '\\' :: c :: rest, .quoted quote, flag⟩ : Scanner).toList =
      (⟨blocks, c :: '\\' :: before, rest, .quoted quote,
        if c = '\n' then false else flag || decide (1 < c.utf8Size)⟩ : Scanner).toList := by
  by_cases breaks : c = '\n'
  · subst breaks
    have alone : (⟨blocks, before, '\\' :: '\n' :: rest, .quoted quote, flag⟩ : Scanner).toList =
        (⟨blocks, '\\' :: before, '\n' :: rest, .quoted quote, flag || false⟩ :
          Scanner).toList := by
      rw [toList_step rfl]
      rfl
    exact alone.trans (toList_inString inLine (by decide))
  · rw [toList_step rfl, if_neg breaks]
    simp only [react, escapeLength, breaks, ↓reduceIte, List.take_succ_cons, List.take_zero,
      List.any_cons, List.any_nil, Bool.or_false]
    rfl

theorem toList_backslashInString :
    (⟨blocks, before, ['\\'], .quoted quote, flag⟩ : Scanner).toList = [] := by
  rw [toList_step rfl]
  exact toList_nil rfl rfl

theorem toList_closesString (noEscape : quote ≠ '\\') :
    (⟨blocks, before, quote :: rest, .quoted quote, flag⟩ : Scanner).toList =
      (⟨blocks, quote :: before, rest, .code, flag⟩ : Scanner).toList := by
  rw [toList_step rfl]
  simp only [react, noEscape, ↓reduceIte]
  rfl

end Strings

theorem toList_inUrl {c : Char} (other : c ≠ ')') :
    (⟨blocks, before, c :: rest, .url, flag⟩ : Scanner).toList =
      (⟨blocks, c :: before, rest, .url, hasCodeAfter flag c⟩ : Scanner).toList := by
  rw [toList_step rfl]
  simp only [react, other, ↓reduceIte]
  rfl

theorem toList_closesUrl :
    (⟨blocks, before, ')' :: rest, .url, flag⟩ : Scanner).toList =
      (⟨blocks, ')' :: before, rest, .code, flag⟩ : Scanner).toList := by
  rw [toList_step rfl]
  rfl

/-- Ordinary text hands out nothing. -/
theorem toList_plain {text : Text} (plain : ∀ c ∈ text, isPlain c = true) (before : Text)
    (flag : Bool) :
    (⟨blocks, before, text ++ rest, .code, flag⟩ : Scanner).toList =
      (⟨blocks, text.reverse ++ before, rest, .code, text.foldl hasCodeAfter flag⟩ :
        Scanner).toList := by
  induction text generalizing before flag with
  | nil => rfl
  | cons c text ih =>
      have read := ih (fun d member => plain d (List.mem_cons_of_mem c member)) (c :: before)
        (hasCodeAfter flag c)
      rw [List.cons_append, toList_plainChar (plain c List.mem_cons_self), List.reverse_cons,
        List.append_assoc]
      exact read

/-- A text is a single line, or a line with a line break behind it. -/
theorem exists_line (text : Text) :
    ∃ line : Text, '\n' ∉ line ∧ (text = line ∨ ∃ rest, text = line ++ '\n' :: rest) := by
  induction text with
  | nil => exact ⟨[], List.not_mem_nil, .inl rfl⟩
  | cons c text ih =>
      by_cases breaks : c = '\n'
      · exact ⟨[], List.not_mem_nil, .inr ⟨text, by rw [breaks, List.nil_append]⟩⟩
      · obtain ⟨line, whole, same⟩ := ih
        have longer : '\n' ∉ c :: line := by
          simp only [List.mem_cons, not_or]
          exact ⟨fun same => breaks same.symm, whole⟩
        refine ⟨c :: line, longer, ?_⟩
        rcases same with rfl | ⟨rest, rfl⟩
        · exact .inl rfl
        · exact .inr ⟨rest, rfl⟩

/-- Only two slashes in ordinary text open a line comment. -/
theorem slashes_of_isLine {scanner : Scanner} {c : Char} (outside : scanner.mode.isLine = false)
    (opens : (scanner.react c rest).mode.isLine = true) :
    scanner.mode = .code ∧ c = '/' ∧ rest.head? = some '/' := by
  obtain ⟨blocks, before, rest', mode, flag⟩ := scanner
  cases mode with
  | line start inline body => simp [Mode.isLine] at outside
  | code =>
      by_cases slashes : c = '/' ∧ rest.head? = some '/'
      · exact ⟨rfl, slashes⟩
      · simp only [react, slashes, ↓reduceIte] at opens
        repeat' split at opens
        all_goals simp [Mode.isLine] at opens
  | quoted quote =>
      simp only [react] at opens
      repeat' split at opens
      all_goals simp [Mode.isLine] at opens
  | url =>
      simp only [react] at opens
      repeat' split at opens
      all_goals simp [Mode.isLine] at opens
  | block start inline body =>
      simp only [react] at opens
      repeat' split at opens
      all_goals simp [Mode.isLine] at opens

/-- **Scanning by steps.** A property of scanners outside line comments holds of all of them if it
holds at the end of the text and is carried back over a step, over a line comment with its line
break, and over a line comment that is cut off. -/
theorem induct_steps {motive : (scanner : Scanner) → scanner.mode.isLine = false → Prop}
    (ended : ∀ (scanner : Scanner) (outside : scanner.mode.isLine = false),
      scanner.rest = [] → motive scanner outside)
    (step : ∀ (scanner : Scanner) (c : Char) (rest : Text)
      (outside : scanner.mode.isLine = false), scanner.rest = c :: rest →
      ∀ stays : (scanner.react c rest).mode.isLine = false,
        motive (scanner.after c rest (scanner.react c rest)) stays → motive scanner outside)
    (line : ∀ (blocks : Bool) (before line rest : Text) (flag : Bool), '\n' ∉ line →
      motive ⟨blocks, '\n' :: (line.reverse ++ '/' :: '/' :: before), rest, .code, false⟩ rfl →
      motive ⟨blocks, before, '/' :: '/' :: (line ++ '\n' :: rest), .code, flag⟩ rfl)
    (lastLine : ∀ (blocks : Bool) (before line : Text) (flag : Bool), '\n' ∉ line →
      motive ⟨blocks, before, '/' :: '/' :: line, .code, flag⟩ rfl)
    (scanner : Scanner) (outside : scanner.mode.isLine = false) : motive scanner outside := by
  induction left : scanner.rest.length using Nat.strongRecOn generalizing scanner with
  | _ count ih =>
      cases ahead : scanner.rest with
      | nil => exact ended scanner outside ahead
      | cons c rest =>
          have count_eq : (c :: rest).length = count := ahead ▸ left
          cases opens : (scanner.react c rest).mode.isLine with
          | false =>
              refine step scanner c rest outside ahead opens (ih _ ?_ _ opens rfl)
              exact count_eq ▸ length_rest_after_lt ..
          | true =>
              obtain ⟨mode, slash, second⟩ := slashes_of_isLine outside opens
              obtain ⟨tail, rfl⟩ := List.head?_eq_some_iff.1 second
              obtain ⟨blocks, before, rest', mode', flag⟩ := scanner
              simp only at ahead mode
              subst ahead mode slash
              obtain ⟨body, whole, rfl | ⟨rest, rfl⟩⟩ := exists_line tail
              · exact lastLine blocks before _ flag whole
              · refine line blocks before body rest flag whole (ih _ ?_ _ rfl rfl)
                simp only [List.length_cons, List.length_append] at count_eq ⊢
                omega

theorem toList_slashes_ne_nil :
    (⟨blocks, before, '/' :: '/' :: rest, .code, flag⟩ : Scanner).toList ≠ [] := by
  obtain ⟨line, whole, rfl | ⟨behind, rfl⟩⟩ := exists_line rest
  · rw [toList_lastLine whole]
    exact List.cons_ne_nil _ _
  · rw [toList_line whole]
    exact List.cons_ne_nil _ _

/-- How far an escape reaches is seen from the character behind the backslash. -/
theorem escapeLength_congr {rest rest' : Text} (head : rest'.head? = rest.head?) :
    escapeLength rest' = escapeLength rest := by
  cases rest with
  | nil => rw [List.head?_eq_none_iff.1 head]
  | cons c rest =>
      obtain ⟨tail, rfl⟩ := List.head?_eq_some_iff.1 head
      rfl

/-- What is read of ordinary text depends on what stands around it at four characters only. -/
theorem react_code_congr {before before' rest rest' around around' : Text} {c : Char}
    (offset : Text.bytes before' = Text.bytes before)
    (slash : c = '/' → rest'.head? = rest.head?)
    (backslash : c = '\\' → escapeLength rest' = escapeLength rest)
    (paren : c = '(' → (endsInUrl before' && !opensQuoted rest') =
      (endsInUrl before && !opensQuoted rest)) :
    (⟨blocks, before', around', .code, flag⟩ : Scanner).react c rest' =
      (⟨blocks, before, around, .code, flag⟩ : Scanner).react c rest := by
  simp only [react, Scanner.offset, offset]
  by_cases isSlash : c = '/'
  · subst isSlash
    simp only [slash rfl, hasCodeAfter]
    rfl
  · by_cases isBackslash : c = '\\'
    · subst isBackslash
      simp only [backslash rfl]
      rfl
    · by_cases isParen : c = '('
      · subst isParen
        simp only [paren rfl]
        rfl
      · simp only [isSlash, isBackslash, isParen, false_and, ↓reduceIte]

theorem react_quoted_congr {before before' rest rest' around around' : Text} {c quote : Char}
    (backslash : c = '\\' → rest'.head? = rest.head?) :
    (⟨blocks, before', around', .quoted quote, flag⟩ : Scanner).react c rest' =
      (⟨blocks, before, around, .quoted quote, flag⟩ : Scanner).react c rest := by
  simp only [react]
  by_cases isBackslash : c = '\\'
  · simp only [isBackslash, ↓reduceIte, List.take_one, backslash isBackslash,
      escapeLength_congr (backslash isBackslash)]
  · simp only [isBackslash, ↓reduceIte]

theorem react_block_congr {before before' rest rest' around around' body : Text} {c : Char}
    {start : Nat} {inlineBefore : Bool} (star : c = '*' → rest'.head? = rest.head?)
    (closes : c = '*' → rest.head? = some '/' →
      hasCodeAhead (rest'.drop 1) = hasCodeAhead (rest.drop 1)) :
    (⟨blocks, before', around', .block start inlineBefore body, flag⟩ : Scanner).react c rest' =
      (⟨blocks, before, around, .block start inlineBefore body, flag⟩ : Scanner).react c rest := by
  simp only [react]
  by_cases isStar : c = '*'
  · rw [star isStar]
    by_cases ends : rest.head? = some '/'
    · simp only [isStar, ends, and_self, ↓reduceIte, ofBlock, closes isStar ends]
    · simp only [ends, and_false, ↓reduceIte]
  · simp only [isStar, false_and, ↓reduceIte]

/-- A reaction takes along no more than there is. -/
theorem more_le_length (scanner : Scanner) (c : Char) (rest : Text) :
    (scanner.react c rest).more ≤ rest.length := by
  obtain ⟨blocks, before, rest', mode, flag⟩ := scanner
  have escape : escapeLength rest ≤ rest.length := by
    cases rest with
    | nil => exact Nat.le_refl _
    | cons d rest =>
        simp only [escapeLength, List.length_cons]
        split <;> omega
  have head (sign : Char) (second : rest.head? = some sign) : 1 ≤ rest.length := by
    obtain ⟨tail, rfl⟩ := List.head?_eq_some_iff.1 second
    simp
  cases mode with
  | code =>
      simp only [react]
      split
      · rename_i slashes
        exact head _ slashes.2
      · split
        · rename_i _ opens
          exact head _ opens.2
        · repeat' split
          all_goals first | exact Nat.zero_le _ | exact escape
  | quoted quote =>
      simp only [react]
      repeat' split
      all_goals first | exact Nat.zero_le _ | exact escape
  | url =>
      simp only [react]
      split <;> exact Nat.zero_le _
  | block start inline body =>
      simp only [react]
      split
      · rename_i closes
        exact head _ closes.2
      · exact Nat.zero_le _
  | line start inline body =>
      simp only [react]
      split
      · assumption
      · exact Nat.le_refl _

/-- Outside line comments only closed block comments are found, and these only on request. -/
theorem kind_of_found {scanner : Scanner} {c : Char} {comment : Comment}
    (outside : scanner.mode.isLine = false) (found : (scanner.react c rest).found = some comment) :
    comment.kind = .block ∧ scanner.blocks = true := by
  obtain ⟨blocks, before, rest', mode, flag⟩ := scanner
  cases mode with
  | line start inline body => simp [Mode.isLine] at outside
  | block start inline body =>
      simp only [react] at found
      split at found
      · simp only at found
        split at found
        · rename_i requested
          obtain rfl := Option.some.inj found
          exact ⟨rfl, requested⟩
        · simp at found
      · simp at found
  | _ =>
      simp only [react] at found
      repeat' split at found
      all_goals simp at found

/-- The line comments that are still to come. -/
def lines (scanner : Scanner) : List Comment :=
  scanner.toList.filter (·.kind == .doubleSlash)

theorem lines_nil {scanner : Scanner} (outside : scanner.mode.isLine = false)
    (ended : scanner.rest = []) : scanner.lines = [] := by
  rw [lines, toList_nil outside ended, List.filter_nil]

theorem lines_step {scanner : Scanner} {c : Char} {rest : Text}
    (outside : scanner.mode.isLine = false) (ahead : scanner.rest = c :: rest) :
    scanner.lines = (scanner.after c rest (scanner.react c rest)).lines := by
  rw [lines, toList_step ahead, List.filter_append, lines]
  cases found : (scanner.react c rest).found with
  | none => rfl
  | some comment => simp [(kind_of_found outside found).1]

theorem lines_line {line : Text} (whole : '\n' ∉ line) :
    (⟨blocks, before, '/' :: '/' :: (line ++ '\n' :: rest), .code, flag⟩ : Scanner).lines =
      ofLine (Text.bytes before) flag (withoutReturn line) ::
        (⟨blocks, '\n' :: (line.reverse ++ '/' :: '/' :: before), rest, .code, false⟩ :
          Scanner).lines := by
  rw [lines, toList_line whole]
  rfl

theorem lines_lastLine {line : Text} (whole : '\n' ∉ line) :
    (⟨blocks, before, '/' :: '/' :: line, .code, flag⟩ : Scanner).lines =
      [ofLine (Text.bytes before) flag line] := by
  rw [lines, toList_lastLine whole]
  rfl

/-- The scanner with block comments handed out or not. -/
def withBlocks (requested : Bool) (scanner : Scanner) : Scanner :=
  { scanner with blocks := requested }

/-- Apart from what is found, a step does not depend on whether block comments are handed out. -/
theorem after_withBlocks (requested : Bool) (scanner : Scanner) (c : Char) (rest : Text) :
    (scanner.withBlocks requested).after c rest ((scanner.withBlocks requested).react c rest) =
      (scanner.after c rest (scanner.react c rest)).withBlocks requested := by
  obtain ⟨blocks, before, rest', mode, flag⟩ := scanner
  cases mode with
  | block start inline body =>
      simp only [withBlocks, react]
      split <;> rfl
  | _ => rfl

/-- **Asking for block comments changes no line comment.** -/
theorem lines_withBlocks (requested : Bool) (scanner : Scanner)
    (outside : scanner.mode.isLine = false) :
    (scanner.withBlocks requested).lines = scanner.lines := by
  induction scanner, outside using induct_steps with
  | ended scanner outside ended =>
      rw [lines_nil outside ended]
      exact lines_nil outside ended
  | step scanner c rest outside ahead _ ih =>
      have opened : (scanner.withBlocks requested).mode.isLine = false := outside
      rw [lines_step outside ahead, lines_step opened ahead, after_withBlocks, ih]
  | line blocks before line rest flag whole ih =>
      change (⟨requested, before, '/' :: '/' :: (line ++ '\n' :: rest), .code, flag⟩ :
        Scanner).lines = _
      rw [lines_line whole, lines_line whole]
      exact congrArg _ ih
  | lastLine blocks before line flag whole =>
      change (⟨requested, before, '/' :: '/' :: line, .code, flag⟩ : Scanner).lines = _
      rw [lines_lastLine whole, lines_lastLine whole]

/-- A scanner that hands out no block comments hands out line comments only. -/
theorem lines_of_noBlocks (scanner : Scanner) (outside : scanner.mode.isLine = false) :
    scanner.blocks = false → scanner.lines = scanner.toList := by
  induction scanner, outside using induct_steps with
  | ended scanner outside ended =>
      intro _
      rw [lines_nil outside ended, toList_nil outside ended]
  | step scanner c rest outside ahead _ ih =>
      intro unrequested
      rw [lines_step outside ahead, toList_step ahead, ih unrequested]
      cases found : (scanner.react c rest).found with
      | none => rfl
      | some comment => simp [(kind_of_found outside found).2] at unrequested
  | line blocks before line rest flag whole ih =>
      intro unrequested
      rw [lines_line whole, toList_line whole, ih unrequested]
  | lastLine blocks before line flag whole =>
      intro _
      rw [lines_lastLine whole, toList_lastLine whole]

/-- No line comment starts in front of the scanner. -/
theorem offset_le_start (scanner : Scanner) (outside : scanner.mode.isLine = false) :
    ∀ comment ∈ scanner.lines,
      scanner.offset ≤ comment.span.start ∧ comment.span.start ≤ comment.span.stop := by
  induction scanner, outside using induct_steps with
  | ended scanner outside ended => simp [lines_nil outside ended]
  | step scanner c rest outside ahead _ ih =>
      rw [lines_step outside ahead]
      intro comment member
      obtain ⟨behind, ordered⟩ := ih comment member
      refine ⟨Nat.le_trans ?_ behind, ordered⟩
      simp only [offset, after, Text.bytes_append, Text.bytes_cons]
      omega
  | line blocks before line rest flag whole ih =>
      rw [lines_line whole]
      intro comment member
      rcases List.mem_cons.1 member with rfl | later
      · simp only [offset, ofLine]
        omega
      · obtain ⟨behind, ordered⟩ := ih comment later
        refine ⟨Nat.le_trans ?_ behind, ordered⟩
        simp only [offset, Text.bytes_append, Text.bytes_cons]
        omega
  | lastLine blocks before line flag whole =>
      rw [lines_lastLine whole]
      intro comment member
      obtain rfl := List.mem_singleton.1 member
      simp only [offset, ofLine]
      omega

end Scanner

/-- The line comments are the same with and without the block comments between them. -/
theorem lineComments_eq_lines (source : Text) :
    lineComments source = (Scanner.ofText true source).lines := by
  rw [← Scanner.lines_withBlocks false (Scanner.ofText true source) rfl]
  exact (Scanner.lines_of_noBlocks (Scanner.ofText false source) rfl rfl).symm

end Comment

end ScssLint
