import ScssLint.Proofs.Comment.Context

/-! # Scanning line by line

A scanner that has read whole lines and is in the middle of nothing starts afresh
(`Comment.toList_append`). Whole lines in front of more text are read as they are by themselves
(`Comment.Scanner.reads_afresh`), since no look ahead reaches over their end
(`Comment.Scanner.react_append`), and what stands behind them is read as it is at the start of a
text, but for the offsets (`Comment.Scanner.Moved.toList`).
-/

namespace ScssLint

namespace Comment

/-- The comment in a text in which `distance` more bytes stand in front of it. -/
def shift (distance : Nat) (comment : Comment) : Comment :=
  { comment with span := comment.span.shift distance }

namespace Scanner

/-- The scanner once it has read its text and handed out all comments. -/
def drained (scanner : Scanner) : Scanner :=
  match _hrest : scanner.rest with
  | [] => scanner.finish.2
  | c :: rest => (scanner.after c rest (scanner.react c rest)).drained
termination_by scanner.rest.length
decreasing_by
  rw [_hrest]
  exact length_rest_after_lt ..

theorem drained_nil {scanner : Scanner} (ended : scanner.rest = []) :
    scanner.drained = scanner.finish.2 := by
  obtain ⟨blocks, before, rest, mode, flag⟩ := scanner
  subst ended
  rw [drained]

theorem finish_of_outside {scanner : Scanner} (outside : scanner.mode.isLine = false) :
    scanner.finish = (none, scanner) := by
  obtain ⟨blocks, before, rest, mode, flag⟩ := scanner
  cases mode with
  | line start inlineBefore body => exact absurd outside Bool.noConfusion
  | _ => rfl

theorem drained_step {scanner : Scanner} {c : Char} {rest : Text}
    (ahead : scanner.rest = c :: rest) :
    scanner.drained = (scanner.after c rest (scanner.react c rest)).drained := by
  obtain ⟨blocks, before, rest', mode, flag⟩ := scanner
  subst ahead
  rw [drained]

/-- **A scanner is drained once it has no next comment**, and up to then it hands out its comments
one by one. -/
theorem next_cases (scanner : Scanner) :
    (scanner.next = (none, scanner.drained) ∧ scanner.toList = []) ∨
      ∃ comment later, scanner.next = (some comment, later) ∧
        scanner.toList = comment :: later.toList ∧ scanner.drained = later.drained := by
  fun_induction next scanner with
  | case1 scanner ended =>
      obtain ⟨blocks, before, rest, mode, flag⟩ := scanner
      subst ended
      rw [drained_nil rfl]
      cases mode with
      | line start inlineBefore body =>
          refine .inr ⟨_, _, rfl, ?_, ?_⟩
          · rw [toList, toList]
            rfl
          · rw [drained_nil rfl]
            rfl
      | _ => exact .inl ⟨rfl, toList_nil rfl rfl⟩
  | case2 scanner c rest ahead reaction comment found =>
      refine .inr ⟨comment, _, rfl, ?_, drained_step ahead⟩
      rw [toList_step ahead, found]
      rfl
  | case3 scanner c rest ahead reaction silent ih =>
      rw [drained_step ahead, toList_step ahead, silent]
      exact ih

/-- Behind a line comment and its line break. -/
theorem drained_line {blocks flag : Bool} {before line rest : Text} (whole : '\n' ∉ line) :
    (⟨blocks, before, '/' :: '/' :: (line ++ '\n' :: rest), .code, flag⟩ : Scanner).drained =
      (⟨blocks, '\n' :: (line.reverse ++ '/' :: '/' :: before), rest, .code, false⟩ :
        Scanner).drained := by
  have opened : (⟨blocks, before, '/' :: '/' :: (line ++ '\n' :: rest), .code, flag⟩ :
      Scanner).drained =
        (⟨blocks, '/' :: '/' :: before, line ++ '\n' :: rest, .line (Text.bytes before) flag [],
          flag⟩ : Scanner).drained := by
    rw [drained_step rfl, react_slashes]
    rfl
  rw [opened]
  cases line with
  | nil =>
      have ahead : '\n' :: rest = [] ++ '\n' :: rest := rfl
      rw [List.nil_append, drained_step rfl, react_line whole ahead]
      rfl
  | cons d line =>
      have ahead : d :: (line ++ '\n' :: rest) = (d :: line) ++ '\n' :: rest := rfl
      rw [List.cons_append, drained_step rfl, react_line whole ahead]
      simp [after, List.take_length_add_append]

theorem drained_withBlocks (requested : Bool) (scanner : Scanner) :
    (scanner.withBlocks requested).drained = scanner.drained.withBlocks requested := by
  fun_induction drained scanner with
  | case1 scanner ended =>
      rw [@drained_nil (scanner.withBlocks requested) ended]
      obtain ⟨blocks, before, rest, mode, flag⟩ := scanner
      cases mode <;> rfl
  | case2 scanner c rest ahead ih =>
      rw [@drained_step (scanner.withBlocks requested) _ _ ahead, after_withBlocks, ih]

/-- An unquoted `url(` argument that is not closed is read to the end of the text. -/
theorem drained_inUrl {blocks flag : Bool} {before rest : Text} (unclosed : ')' ∉ rest) :
    (⟨blocks, before, rest, .url, flag⟩ : Scanner).drained.mode = .url := by
  induction rest generalizing before flag with
  | nil =>
      rw [drained_nil rfl]
      rfl
  | cons c rest ih =>
      have other : c ≠ ')' := fun same => unclosed (same ▸ List.mem_cons_self)
      rw [drained_step rfl]
      simp only [react, other, ↓reduceIte]
      exact ih fun member => unclosed (List.mem_cons_of_mem c member)

/-! ### In front of more text -/

/-- The scanner of a text with more text behind it. -/
def extended (more : Text) (scanner : Scanner) : Scanner :=
  { scanner with rest := scanner.rest ++ more }

/-- A scanner behind what is left of the text, in the middle of nothing and at the start of a line. -/
def afresh (more : Text) (scanner : Scanner) : Scanner :=
  ⟨scanner.blocks, scanner.rest.reverse ++ scanner.before, more, .code, false⟩

section Looks

variable {rest more : Text}

/-- Behind a character that is no line break, the next one of its line is seen. -/
theorem head?_append_of_ne {c : Char} (ends : (c :: rest).getLast? = some '\n') (inLine : c ≠ '\n')
    (more : Text) : (rest ++ more).head? = rest.head? := by
  cases rest with
  | nil => exact absurd (Option.some.inj ends) inLine
  | cons d rest => rfl

/-- No quote is seen behind a line break, unless there is white space only in front of it. -/
theorem opensQuoted_append_of_dark (dark : ∃ c ∈ rest, isSpace c = false) (more : Text) :
    opensQuoted (rest ++ more) = opensQuoted rest := by
  obtain ⟨spaces, tail, rfl, all, stops⟩ := Text.exists_leading isSpace rest
  obtain ⟨c, member, notSpace⟩ := dark
  cases tail with
  | nil =>
      rw [List.append_nil] at member
      rw [all c member] at notSpace
      exact Bool.noConfusion notSpace
  | cons d tail =>
      rw [List.append_assoc, opensQuoted_append all, opensQuoted_append all, List.cons_append,
        opensQuoted_cons (stops d tail rfl), opensQuoted_cons (stops d tail rfl)]

/-- Code behind a line break is not seen. -/
theorem hasCodeAhead_append_of_mem (breaks : '\n' ∈ rest) (more : Text) :
    hasCodeAhead (rest ++ more) = hasCodeAhead rest := by
  obtain ⟨line, whole, rfl | ⟨behind, rfl⟩⟩ := exists_line rest
  · exact absurd breaks whole
  · rw [hasCodeAhead, hasCodeAhead, List.append_assoc, List.cons_append,
      takeWhile_append_newline whole, takeWhile_append_newline whole]

end Looks

/-- **Whole lines are read as they are by themselves**, unless they leave a `url(` argument open. -/
theorem react_append {scanner : Scanner} {c : Char} {rest : Text}
    (outside : scanner.mode.isLine = false) (ends : (c :: rest).getLast? = some '\n')
    (atRest : (scanner.after c rest (scanner.react c rest)).drained.mode = .code) (more : Text) :
    (scanner.extended more).react c (rest ++ more) = scanner.react c rest := by
  have head := fun inLine : c ≠ '\n' => head?_append_of_ne ends inLine more
  obtain ⟨blocks, before, around, mode, flag⟩ := scanner
  cases mode with
  | line start inlineBefore body => exact absurd outside Bool.noConfusion
  | url => rfl
  | quoted quote =>
      refine react_quoted_congr fun backslash => head ?_
      rw [backslash]
      decide
  | block start inlineBefore body =>
      refine react_block_congr (fun star => head ?_) fun star closes => ?_
      · rw [star]
        decide
      · obtain ⟨tail, rfl⟩ := List.head?_eq_some_iff.1 closes
        have breaks := List.mem_of_getLast? ends
        rw [star] at breaks
        simp only [List.mem_cons, Char.reduceEq, false_or] at breaks
        exact hasCodeAhead_append_of_mem breaks more
  | code =>
      refine react_code_congr rfl (fun slash => head ?_)
        (fun backslash => escapeLength_congr (head ?_)) fun paren => ?_
      · rw [slash]
        decide
      · rw [backslash]
        decide
      · cases url : endsInUrl before with
        | false => rfl
        | true =>
            by_cases dark : ∃ d ∈ rest, isSpace d = false
            · rw [opensQuoted_append_of_dark dark more]
            · -- Behind white space only, an argument is opened that nothing closes.
              have all : ∀ d ∈ rest, isSpace d = true := fun d member =>
                Bool.not_eq_false _ ▸ fun space => dark ⟨d, member, space⟩
              have unquoted : opensQuoted rest = false := by
                have passed := opensQuoted_append all []
                rwa [List.append_nil] at passed
              have unclosed : ')' ∉ rest := fun member => dark ⟨')', member, rfl⟩
              have reaction : (⟨blocks, before, around, .code, flag⟩ : Scanner).react '(' rest =
                  ⟨0, .url, true, none⟩ := by
                simp [react, url, unquoted]
              rw [paren, reaction] at atRest
              have open_ := @drained_inUrl blocks true ('(' :: before) rest unclosed
              exact absurd (open_.symm.trans atRest) Mode.noConfusion

/-- A string is not closed by a line break. -/
def IsProper (mode : Mode) : Prop :=
  mode ≠ .quoted '\n'

theorem isProper_react {scanner : Scanner} (proper : IsProper scanner.mode) (c : Char)
    (rest : Text) : IsProper (scanner.react c rest).mode := by
  obtain ⟨blocks, before, around, mode, flag⟩ := scanner
  have opened (mark : c = '"' ∨ c = '\'') : IsProper (.quoted c) := by
    rcases mark with rfl | rfl <;> exact fun same => absurd (Mode.quoted.inj same) (by decide)
  cases mode with
  | code =>
      simp only [react]
      repeat' split
      all_goals first | exact opened ‹_› | exact Mode.noConfusion
  | quoted quote =>
      simp only [react]
      repeat' split
      all_goals first | exact proper | exact Mode.noConfusion
  | url | block start inlineBefore body | line start inlineBefore body =>
      simp only [react]
      repeat' split
      all_goals exact Mode.noConfusion

/-- Behind the line break at the end of a text no code was seen. -/
theorem lineHasCode_of_ended {scanner : Scanner} {c : Char} {rest : Text}
    (outside : scanner.mode.isLine = false) (proper : IsProper scanner.mode)
    (ends : (c :: rest).getLast? = some '\n')
    (ended : (scanner.after c rest (scanner.react c rest)).rest = [])
    (code : (scanner.react c rest).mode = .code) : (scanner.react c rest).lineHasCode = false := by
  have single (alone : rest = []) : c = '\n' := by
    rw [alone] at ends
    exact Option.some.inj ends
  have whole : rest.drop (scanner.react c rest).more = [] := ended
  obtain ⟨blocks, before, around, mode, flag⟩ := scanner
  cases mode with
  | line start inlineBefore body => exact absurd outside Bool.noConfusion
  | quoted quote =>
      by_cases escapes : c = '\\'
      · simp only [react, escapes, ↓reduceIte] at code
        exact Mode.noConfusion code
      by_cases closes : c = quote
      · subst closes
        simp only [react, escapes, ↓reduceIte] at whole
        exact absurd (congrArg Mode.quoted (single whole)) proper
      · simp only [react, escapes, closes, ↓reduceIte] at code
        exact Mode.noConfusion code
  | url =>
      by_cases closes : c = ')'
      · simp only [react, closes, ↓reduceIte] at whole
        exact absurd (closes.symm.trans (single whole)) (by decide)
      · simp only [react, closes, ↓reduceIte] at code
        exact Mode.noConfusion code
  | block start inlineBefore body =>
      by_cases closes : c = '*' ∧ rest.head? = some '/'
      · obtain ⟨tail, rfl⟩ := List.head?_eq_some_iff.1 closes.2
        simp only [react, closes, and_self, ↓reduceIte, List.drop_one, List.tail_cons] at whole
        rw [whole, List.getLast?_cons_cons] at ends
        exact absurd (Option.some.inj ends) (by decide)
      · simp only [react, closes, ↓reduceIte] at code
        exact Mode.noConfusion code
  | code =>
      by_cases noLine : c = '/' ∧ rest.head? = some '/'
      · simp only [react, noLine, and_self, ↓reduceIte] at code
        exact Mode.noConfusion code
      by_cases noBlock : c = '/' ∧ rest.head? = some '*'
      · simp only [react, noBlock, and_self, ↓reduceIte] at code
        exact Mode.noConfusion code
      by_cases escapes : c = '\\'
      · -- A backslash leaves a line break alone, so it does not take the last character along.
        subst escapes
        cases rest with
        | nil => exact absurd (single rfl) (by decide)
        | cons d tail =>
            have taken : (d :: tail).drop (escapeLength (d :: tail)) = [] := whole
            by_cases breaks : d = '\n'
            · rw [escapeLength, if_pos breaks] at taken
              exact absurd taken (List.cons_ne_nil _ _)
            · rw [escapeLength, if_neg breaks, List.drop_one, List.tail_cons] at taken
              rw [taken, List.getLast?_cons_cons] at ends
              exact absurd (Option.some.inj ends) breaks
      · have alone : ((⟨blocks, before, around, .code, flag⟩ : Scanner).react c rest).more = 0 := by
          simp only [react, noLine, noBlock, escapes, ↓reduceIte]
          repeat' split
          all_goals rfl
        rw [alone, List.drop_zero] at whole
        rw [single whole]
        rfl

theorem after_extended {scanner : Scanner} {rest : Text} {reaction : Reaction}
    (fits : reaction.more ≤ rest.length) (c : Char) (more : Text) :
    (scanner.extended more).after c (rest ++ more) reaction =
      (scanner.after c rest reaction).extended more := by
  simp only [after, extended, List.take_append_of_le_length fits,
    List.drop_append_of_le_length fits]

/-- Whether the text ahead of a scanner ends with a line break, or the scanner stands behind one. -/
def EndsLine (scanner : Scanner) : Prop :=
  scanner.rest.getLast? = some '\n' ∨ scanner.rest = [] ∧ scanner.lineHasCode = false

theorem EndsLine.last {scanner : Scanner} {c : Char} {rest : Text} (ends : scanner.EndsLine)
    (ahead : scanner.rest = c :: rest) : (c :: rest).getLast? = some '\n' := by
  rw [← ahead]
  exact ends.resolve_right fun empty => List.cons_ne_nil _ _ (ahead.symm.trans empty.1)

/-- A step outside line comments leaves the line break at the end where it is. -/
theorem EndsLine.step {scanner : Scanner} {c : Char} {rest : Text} (ends : scanner.EndsLine)
    (outside : scanner.mode.isLine = false) (proper : IsProper scanner.mode)
    (ahead : scanner.rest = c :: rest) (stays : (scanner.react c rest).mode.isLine = false)
    (atRest : (scanner.after c rest (scanner.react c rest)).drained.mode = .code) :
    (scanner.after c rest (scanner.react c rest)).EndsLine := by
  have last := ends.last ahead
  by_cases ended : (scanner.after c rest (scanner.react c rest)).rest = []
  · rw [drained_nil ended, finish_of_outside stays] at atRest
    exact .inr ⟨ended, lineHasCode_of_ended outside proper last ended atRest⟩
  · have cut : c :: rest = (c :: rest.take (scanner.react c rest).more) ++
        (scanner.after c rest (scanner.react c rest)).rest := by
      simp only [after, List.cons_append, List.take_append_drop]
    rw [cut] at last
    exact .inl (getLast?_of_append ended last)

/-- So does a line comment. -/
theorem EndsLine.behind_line {blocks flag : Bool} {before line rest : Text}
    (ends : EndsLine ⟨blocks, before, '/' :: '/' :: (line ++ '\n' :: rest), .code, flag⟩) :
    EndsLine ⟨blocks, '\n' :: (line.reverse ++ '/' :: '/' :: before), rest, .code, false⟩ := by
  have last := ends.last rfl
  by_cases ended : rest = []
  · exact .inr ⟨ended, rfl⟩
  · have cut : '/' :: '/' :: (line ++ '\n' :: rest) =
        ('/' :: '/' :: (line ++ ['\n'])) ++ rest := by
      simp only [List.cons_append, List.append_assoc, List.nil_append]
    rw [cut] at last
    exact .inl (getLast?_of_append ended last)

/-- What stands behind the text stands behind it after a step, too. -/
theorem afresh_after {scanner : Scanner} {c : Char} {rest : Text} (ahead : scanner.rest = c :: rest)
    (reaction : Reaction) (more : Text) :
    (scanner.after c rest reaction).afresh more = scanner.afresh more := by
  simp only [afresh, after, ahead, List.reverse_cons, List.append_assoc, List.singleton_append]
  rw [← List.append_assoc, ← List.reverse_append, List.take_append_drop]

theorem afresh_line (blocks flag : Bool) (before line rest more : Text) :
    (⟨blocks, '\n' :: (line.reverse ++ '/' :: '/' :: before), rest, .code, false⟩ :
      Scanner).afresh more =
        (⟨blocks, before, '/' :: '/' :: (line ++ '\n' :: rest), .code, flag⟩ :
          Scanner).afresh more := by
  simp only [afresh, List.reverse_cons, List.reverse_append, List.append_assoc, List.cons_append,
    List.nil_append]

/-- **What stands behind whole lines is read afresh.** -/
theorem reads_afresh (more : Text) (scanner : Scanner)
    (outside : scanner.mode.isLine = false) :
    IsProper scanner.mode → scanner.EndsLine → scanner.drained.mode = .code →
    (scanner.extended more).toList = scanner.toList ++ (scanner.afresh more).toList ∧
      (scanner.extended more).overwritten =
        scanner.overwritten ++ (scanner.afresh more).overwritten := by
  induction scanner, outside using induct_steps with
  | ended scanner outside ended =>
      intro _ ends atRest
      obtain ⟨blocks, before, rest, mode, flag⟩ := scanner
      dsimp only at ended
      subst ended
      obtain ⟨-, rfl⟩ := ends.resolve_left fun last => absurd last.symm (Option.some_ne_none _)
      rw [drained_nil rfl, finish_of_outside outside] at atRest
      dsimp only at atRest
      subst atRest
      constructor
      · rw [@toList_nil ⟨blocks, before, [], .code, false⟩ rfl rfl]
        rfl
      · rw [@overwritten_nil ⟨blocks, before, [], .code, false⟩ rfl rfl]
        rfl
  | step scanner c rest outside ahead stays ih =>
      intro proper ends atRest
      rw [drained_step ahead] at atRest
      have fits := more_le_length scanner c rest
      have reaction := react_append outside (ends.last ahead) atRest more
      have ahead' : (scanner.extended more).rest = c :: (rest ++ more) := by
        rw [extended, ahead, List.cons_append]
      obtain ⟨reads, overwrites⟩ := ih (isProper_react proper c rest)
        (ends.step outside proper ahead stays atRest) atRest
      rw [afresh_after ahead] at reads overwrites
      constructor
      · rw [toList_step ahead', toList_step ahead, reaction, after_extended fits, reads,
          List.append_assoc]
      · have outside' : (scanner.extended more).mode.isLine = false := outside
        have stays' : ((scanner.extended more).react c (rest ++ more)).mode.isLine = false := by
          rwa [reaction]
        rw [overwritten_step outside' ahead' stays', reaction, after_extended fits, overwrites,
          overwritten_step outside ahead stays, List.take_append_of_le_length fits,
          List.append_assoc]
  | line blocks before line rest flag whole ih =>
      intro _ ends atRest
      rw [drained_line whole] at atRest
      obtain ⟨reads, overwrites⟩ := ih Mode.noConfusion ends.behind_line atRest
      have ahead : (⟨blocks, before, '/' :: '/' :: (line ++ '\n' :: rest), .code, flag⟩ :
          Scanner).extended more =
            ⟨blocks, before, '/' :: '/' :: (line ++ '\n' :: (rest ++ more)), .code, flag⟩ := by
        simp only [extended, List.cons_append, List.append_assoc]
      rw [afresh_line] at reads overwrites
      constructor
      · rw [ahead, toList_line whole, toList_line whole, List.cons_append]
        exact congrArg _ reads
      · rw [ahead, overwritten_line whole, overwritten_line whole, List.append_assoc,
          List.append_assoc]
        exact congrArg (fun tail => _ ++ (_ ++ tail)) overwrites
  | lastLine blocks before line flag whole =>
      intro _ ends
      have last := List.mem_of_getLast? (ends.last rfl)
      simp only [List.mem_cons, Char.reduceEq, false_or] at last
      exact absurd last whole

/-! ### Behind more text -/

/-- What a scanner is in the middle of in a text in which `distance` more bytes stand in front. -/
def shiftMode (distance : Nat) : Mode → Mode
  | .block start inlineBefore body => .block (start + distance) inlineBefore body
  | .line start inlineBefore body => .line (start + distance) inlineBefore body
  | mode => mode

theorem isLine_shiftMode (distance : Nat) (mode : Mode) :
    (shiftMode distance mode).isLine = mode.isLine := by
  cases mode <;> rfl

theorem shift_ofLine {distance start start' : Nat} (moved : start' = start + distance)
    (inlineBefore : Bool) (body : Text) :
    ofLine start' inlineBefore body = shift distance (ofLine start inlineBefore body) := by
  subst moved
  simp only [ofLine, shift, Span.shift, Comment.mk.injEq, Span.mk.injEq, true_and, and_true]
  omega

/-- Whether a scanner reads the same text as another one, but `distance` bytes behind it. -/
structure Moved (distance : Nat) (scanner other : Scanner) : Prop where
  blocks : other.blocks = scanner.blocks
  rest : other.rest = scanner.rest
  mode : other.mode = shiftMode distance scanner.mode
  lineHasCode : other.lineHasCode = scanner.lineHasCode
  offset : other.offset = scanner.offset + distance
  name : nameRun other.before = nameRun scanner.before

namespace Moved

variable {distance : Nat} {scanner other : Scanner}

/-- **A scanner reacts alike wherever it stands**, but for the offset of a comment. -/
theorem react (moved : Moved distance scanner other) (outside : scanner.mode.isLine = false)
    (c : Char) (rest : Text) :
    other.react c rest =
      ⟨(scanner.react c rest).more, shiftMode distance (scanner.react c rest).mode,
        (scanner.react c rest).lineHasCode, (scanner.react c rest).found.map (shift distance)⟩ := by
  obtain ⟨blocks, before, around, mode, flag⟩ := scanner
  obtain ⟨blocks', before', around', mode', flag'⟩ := other
  obtain ⟨sameBlocks, -, sameMode, sameFlag, offset, name⟩ := moved
  have named := endsInUrl_congr name
  dsimp only at sameBlocks sameMode sameFlag named
  subst sameBlocks sameMode sameFlag
  cases mode with
  | line start inlineBefore body => exact absurd outside Bool.noConfusion
  | code =>
      have place : Text.bytes before' = Text.bytes before + distance := offset
      change (⟨blocks', before', around', .code, flag'⟩ : Scanner).react c rest = _
      simp only [Scanner.react, Scanner.offset, place, named]
      repeat' split
      all_goals rfl
  | quoted quote =>
      change (⟨blocks', before', around', .quoted quote, flag'⟩ : Scanner).react c rest = _
      simp only [Scanner.react]
      repeat' split
      all_goals rfl
  | url =>
      change (⟨blocks', before', around', .url, flag'⟩ : Scanner).react c rest = _
      simp only [Scanner.react]
      repeat' split
      all_goals rfl
  | block start inlineBefore body =>
      have found : ofBlock (start + distance) inlineBefore body.reverse (rest.drop 1) =
          shift distance (ofBlock start inlineBefore body.reverse (rest.drop 1)) := by
        simp only [ofBlock, shift, Span.shift, Comment.mk.injEq, Span.mk.injEq, true_and, and_true]
        omega
      change (⟨blocks', before', around', .block (start + distance) inlineBefore body, flag'⟩ :
        Scanner).react c rest = _
      simp only [Scanner.react, found]
      repeat' split
      all_goals rfl

theorem after (moved : Moved distance scanner other) (outside : scanner.mode.isLine = false)
    (c : Char) (rest : Text) :
    Moved distance (scanner.after c rest (scanner.react c rest))
      (other.after c rest (other.react c rest)) := by
  rw [moved.react outside]
  refine ⟨moved.blocks, rfl, rfl, rfl, ?_, ?_⟩
  · have offset := moved.offset
    simp only [Scanner.offset, Scanner.after, Text.bytes_append, Text.bytes_cons] at offset ⊢
    omega
  · exact nameRun_append _ (nameRun_append [c] moved.name)

/-- **The same comments are found in the same text**, but for their offsets. -/
theorem toList (scanner : Scanner) (outside : scanner.mode.isLine = false) :
    ∀ other, Moved distance scanner other →
      other.toList = scanner.toList.map (shift distance) := by
  induction scanner, outside using induct_steps with
  | ended scanner outside ended =>
      intro other moved
      have outside' : other.mode.isLine = false := by
        rw [moved.mode, isLine_shiftMode, outside]
      rw [toList_nil outside ended, toList_nil outside' (moved.rest.trans ended), List.map_nil]
  | step scanner c rest outside ahead stays ih =>
      intro other moved
      rw [toList_step ahead, toList_step (moved.rest.trans ahead), ih _ (moved.after outside c rest),
        moved.react outside, List.map_append]
      cases (scanner.react c rest).found <;> rfl
  | line blocks before line rest flag whole ih =>
      intro other moved
      obtain ⟨blocks', before', rest', mode', flag'⟩ := other
      obtain ⟨sameBlocks, sameRest, sameMode, sameFlag, offset, name⟩ := moved
      dsimp only [shiftMode] at sameBlocks sameRest sameMode sameFlag
      subst sameBlocks sameRest sameMode sameFlag
      have later : Moved distance
          ⟨blocks', '\n' :: (line.reverse ++ '/' :: '/' :: before), rest, .code, false⟩
          ⟨blocks', '\n' :: (line.reverse ++ '/' :: '/' :: before'), rest, .code, false⟩ := by
        refine ⟨rfl, rfl, rfl, rfl, ?_, rfl⟩
        simp only [Scanner.offset, Text.bytes_append, Text.bytes_cons] at offset ⊢
        omega
      rw [toList_line whole, toList_line whole, ih _ later, List.map_cons]
      exact congrArg (· :: _) (shift_ofLine offset flag' _)
  | lastLine blocks before line flag whole =>
      intro other moved
      obtain ⟨blocks', before', rest', mode', flag'⟩ := other
      obtain ⟨sameBlocks, sameRest, sameMode, sameFlag, offset, name⟩ := moved
      dsimp only [shiftMode] at sameBlocks sameRest sameMode sameFlag
      subst sameBlocks sameRest sameMode sameFlag
      rw [toList_lastLine whole, toList_lastLine whole, List.map_singleton]
      exact congrArg (fun comment => [comment]) (shift_ofLine offset flag' _)

end Moved

end Scanner

/-- **Scanning is compositional over lines.** Behind whole lines that leave the scanner in the middle
of nothing, a text has the comments that it has by itself, moved by the length of the lines, and is
blanked as it is by itself. -/
theorem toList_append (blocks : Bool) {lines : Text} (more : Text)
    (ends : lines = [] ∨ lines.getLast? = some '\n')
    (atRest : (Scanner.ofText blocks lines).drained.mode = .code) :
    (Scanner.ofText blocks (lines ++ more)).toList =
        (Scanner.ofText blocks lines).toList ++
          (Scanner.ofText blocks more).toList.map (shift (Text.bytes lines)) ∧
      blankLineComments (lines ++ more) = blankLineComments lines ++ blankLineComments more := by
  have ends' : lines.getLast? = some '\n' ∨ lines = [] ∧ false = false :=
    ends.symm.imp_right fun empty => ⟨empty, rfl⟩
  have name : Scanner.nameRun (lines.reverse ++ []) = Scanner.nameRun [] := by
    rw [List.append_nil]
    rcases ends with rfl | last
    · rfl
    · obtain ⟨start, rfl⟩ := List.getLast?_eq_some_iff.1 last
      rw [List.reverse_append]
      rfl
  constructor
  · obtain ⟨reads, _⟩ :=
      Scanner.reads_afresh more (Scanner.ofText blocks lines) rfl Mode.noConfusion ends' atRest
    have moved : Scanner.Moved (Text.bytes lines) (Scanner.ofText blocks more)
        ⟨blocks, lines.reverse ++ [], more, .code, false⟩ := by
      refine ⟨rfl, rfl, rfl, rfl, ?_, name⟩
      rw [List.append_nil, Scanner.offset, Text.bytes_reverse]
      exact (Nat.zero_add _).symm
    rw [← Scanner.Moved.toList _ rfl _ moved]
    exact reads
  · have atRest' : (Scanner.ofText true lines).drained.mode = .code := by
      have same := Scanner.drained_withBlocks true (Scanner.ofText blocks lines)
      exact (congrArg Scanner.mode same).trans atRest
    obtain ⟨_, overwrites⟩ :=
      Scanner.reads_afresh more (Scanner.ofText true lines) rfl Mode.noConfusion ends' atRest'
    have alike : Scanner.Alike (Scanner.ofText true more)
        ⟨true, lines.reverse ++ [], more, .code, false⟩ := ⟨rfl, name⟩
    have same := (Scanner.Alike.overwritten_append List.not_mem_nil _ rfl _ alike
      (List.append_nil more).symm (.inl rfl)).trans (List.append_nil _)
    rw [blankLineComments_eq_overwritten, blankLineComments_eq_overwritten,
      blankLineComments_eq_overwritten, ← same]
    exact overwrites

/-- Lines with two comments, the second of which takes two of them. -/
def twoComments : Text := "a\r\nb // c\n/* d\n*/\n".toList

theorem toList_append_twoComments :
    twoComments.getLast? = some '\n' ∧
      (Scanner.ofText true twoComments).drained.mode = .code ∧
      (Scanner.ofText true (twoComments ++ "e //".toList)).toList =
        (Scanner.ofText true twoComments).toList ++
          (Scanner.ofText true "e //".toList).toList.map (shift (Text.bytes twoComments)) := by
  have last : twoComments.getLast? = some '\n' := by decide
  have atRest : (Scanner.ofText true twoComments).drained.mode = .code := by decide +kernel
  exact ⟨last, atRest, (toList_append true "e //".toList (.inr last) atRest).1⟩

end Comment

end ScssLint
