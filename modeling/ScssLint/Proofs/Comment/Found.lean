import ScssLint.Proofs.Comment.Context
import ScssLint.Proofs.Comment.Passes

/-! # Where a block comment is found

A block comment that a scanner hands out stands in the text with its markers, and what the scanner
blanks in front of it does not depend on what the comment holds (`Comment.Scanner.exists_isFound`).
-/

namespace ScssLint

namespace Comment

/-- A block comment with its markers. -/
def blockText (body : Text) : Text :=
  '/' :: '*' :: (body ++ ['*', '/'])

/-- A text holds a closing marker or not. -/
theorem exists_closer (text : Text) :
    (∃ body rest, text = body ++ '*' :: '/' :: rest ∧ ¬ ['*', '/'] <:+: body) ∨
      ¬ ['*', '/'] <:+: text := by
  induction text with
  | nil => exact .inr fun found => List.cons_ne_nil _ _ (List.infix_nil.1 found)
  | cons c text ih =>
      by_cases closes : ['*', '/'] <+: c :: text
      · obtain ⟨rest, whole⟩ := closes
        refine .inl ⟨[], rest, whole.symm, fun found => ?_⟩
        exact List.cons_ne_nil _ _ (List.infix_nil.1 found)
      · rcases ih with ⟨body, rest, rfl, noCloser⟩ | noCloser
        · refine .inl ⟨c :: body, rest, rfl, fun found => ?_⟩
          rcases List.infix_cons_iff.1 found with ahead | inside
          · exact closes (ahead.trans (List.prefix_append (c :: body) _))
          · exact noCloser inside
        · refine .inr fun found => ?_
          rcases List.infix_cons_iff.1 found with ahead | inside
          · exact closes ahead
          · exact noCloser inside

namespace Scanner

variable {blocks : Bool} {rest : Text}

/-- A character in front of which no comment is closed is a part of the comment. -/
theorem toList_inBlock {c : Char} (other : ¬ ['*', '/'] <+: c :: rest) (start : Nat)
    (inlineBefore : Bool) (read before : Text) (flag : Bool) :
    (⟨blocks, before, c :: rest, .block start inlineBefore read, flag⟩ : Scanner).toList =
      (⟨blocks, c :: before, rest, .block start inlineBefore (c :: read),
        if c = '\n' then false else flag⟩ : Scanner).toList := by
  have goesOn : ¬ (c = '*' ∧ rest.head? = some '/') := by
    rintro ⟨rfl, second⟩
    obtain ⟨tail, rfl⟩ := List.head?_eq_some_iff.1 second
    exact other (List.prefix_append ['*', '/'] tail)
  rw [toList_step rfl]
  simp only [react, goesOn, ↓reduceIte]
  rfl

/-- A block comment without a closing marker is none. -/
theorem toList_unclosed (noCloser : ¬ ['*', '/'] <:+: rest) (start : Nat) (inlineBefore : Bool)
    (read before : Text) (flag : Bool) :
    (⟨blocks, before, rest, .block start inlineBefore read, flag⟩ : Scanner).toList = [] := by
  induction rest generalizing read before flag with
  | nil => exact toList_nil rfl rfl
  | cons c rest ih =>
      rw [toList_inBlock fun ahead => noCloser ahead.isInfix]
      exact ih (fun inside => noCloser (List.infix_cons inside)) _ _ _

/-- A block comment ends with the first closing marker. -/
theorem toList_closed {body : Text} (noCloser : ¬ ['*', '/'] <:+: body) (start : Nat)
    (inlineBefore : Bool) (read before : Text) (flag : Bool) :
    ∃ later, (⟨blocks, before, body ++ '*' :: '/' :: rest, .block start inlineBefore read, flag⟩ :
        Scanner).toList =
      (if blocks then [ofBlock start inlineBefore (read.reverse ++ body) rest] else []) ++
        (⟨blocks, '/' :: '*' :: (body.reverse ++ before), rest, .code, later⟩ :
          Scanner).toList := by
  induction body generalizing read before flag with
  | nil =>
      refine ⟨flag, ?_⟩
      rw [List.nil_append, toList_step rfl, List.append_nil]
      cases blocks <;> rfl
  | cons c body ih =>
      have other : ¬ ['*', '/'] <+: c :: (body ++ '*' :: '/' :: rest) := by
        intro ahead
        obtain ⟨rfl, second⟩ := List.cons_prefix_cons.1 ahead
        cases body with
        | nil => exact absurd (List.cons_prefix_cons.1 second).1 (by decide)
        | cons d body =>
            obtain ⟨rfl, _⟩ := List.cons_prefix_cons.1 second
            exact noCloser (List.prefix_append ['*', '/'] body).isInfix
      obtain ⟨later, reads⟩ := ih (fun inside => noCloser (List.infix_cons inside)) (c :: read)
        (c :: before) (if c = '\n' then false else flag)
      refine ⟨later, ?_⟩
      rw [List.cons_append, toList_inBlock other, reads]
      simp only [List.reverse_cons, List.append_assoc, List.singleton_append]

end Scanner

/-- A block comment is passed over. -/
theorem passes_blockText {body : Text} (noCloser : ¬ ['*', '/'] <:+: body) (before rest : Text) :
    Passes before (blockText body) rest := by
  intro flag
  obtain ⟨later, reads⟩ := @Scanner.toList_closed false rest body noCloser (Text.bytes before) flag
    [] ('*' :: '/' :: before) flag
  refine ⟨later, ?_⟩
  have order : blockText body ++ rest = '/' :: '*' :: (body ++ '*' :: '/' :: rest) := by
    simp [blockText]
  have behind : (blockText body).reverse ++ before =
      '/' :: '*' :: (body.reverse ++ '*' :: '/' :: before) := by
    simp [blockText]
  rw [order, behind, Scanner.toList_opensBlock, reads]
  rfl

theorem bytes_blockText (body : Text) : Text.bytes (blockText body) = 2 + Text.bytes body + 2 := by
  have slash : '/'.utf8Size = 1 := rfl
  have star : '*'.utf8Size = 1 := rfl
  simp only [blockText, Text.bytes_cons, Text.bytes_append, Text.bytes_nil, slash, star]
  omega

/-- Whether comments may be found in a mode. -/
def Mode.isOpen : Mode → Bool
  | .code | .quoted _ | .url => true
  | _ => false

theorem Mode.isLine_of_isOpen {mode : Mode} (isOpen : mode.isOpen = true) :
    mode.isLine = false := by
  cases mode <;> first | rfl | exact Bool.noConfusion isOpen

theorem Mode.eq_of_kind {mode other : Mode} (isOpen : mode.isOpen = true)
    (same : other.kind = mode.kind) : other = mode := by
  cases mode <;> cases other <;>
    first | exact Bool.noConfusion isOpen | exact same | exact Mode.noConfusion same

/-- Comments may be found behind a character, too, if it starts none. -/
theorem Scanner.isOpen_react {scanner : Scanner} {c : Char} {rest : Text}
    (isOpen : scanner.mode.isOpen = true)
    (noComment : scanner.mode = .code → c = '/' → rest.head? ≠ some '/' ∧ rest.head? ≠ some '*') :
    (scanner.react c rest).mode.isOpen = true ∧ (scanner.react c rest).found = none := by
  obtain ⟨blocks, before, around, mode, flag⟩ := scanner
  cases mode with
  | code =>
      have noLine : ¬ (c = '/' ∧ rest.head? = some '/') := fun found =>
        (noComment rfl found.1).1 found.2
      have noBlock : ¬ (c = '/' ∧ rest.head? = some '*') := fun found =>
        (noComment rfl found.1).2 found.2
      simp only [react, noLine, noBlock, ↓reduceIte]
      repeat' split
      all_goals exact ⟨rfl, rfl⟩
  | quoted quote | url =>
      simp only [react]
      repeat' split
      all_goals exact ⟨rfl, rfl⟩
  | block start inlineBefore body | line start inlineBefore body =>
      exact Bool.noConfusion isOpen

namespace Scanner

variable {blocks flag : Bool} {before rest : Text}

/-- **A block comment is read to its first closing marker.** -/
theorem toList_blockText {body : Text} (noCloser : ¬ ['*', '/'] <:+: body) :
    ∃ later, (⟨blocks, before, blockText body ++ rest, .code, flag⟩ : Scanner).toList =
      (if blocks then [ofBlock (Text.bytes before) flag body rest] else []) ++
        (⟨blocks, (blockText body).reverse ++ before, rest, .code, later⟩ : Scanner).toList := by
  obtain ⟨later, reads⟩ := @toList_closed blocks rest body noCloser (Text.bytes before) flag []
    ('*' :: '/' :: before) flag
  have order : blockText body ++ rest = '/' :: '*' :: (body ++ '*' :: '/' :: rest) := by
    simp only [blockText, List.cons_append, List.append_assoc, List.nil_append]
  have behind : (blockText body).reverse ++ before =
      '/' :: '*' :: (body.reverse ++ '*' :: '/' :: before) := by
    simp only [blockText, List.reverse_cons, List.reverse_append, List.reverse_nil,
      List.nil_append, List.append_assoc, List.cons_append]
  exact ⟨later, by rw [order, behind, toList_opensBlock, reads]; rfl⟩

/-- **Scanning from comment to comment.** A property of scanners outside comments holds of all of
them if it holds at the end of the text and in front of a block comment that is not closed, and is
carried back over a step that starts no comment and over a comment. -/
theorem induct_comments {motive : (scanner : Scanner) → scanner.mode.isOpen = true → Prop}
    (ended : ∀ (scanner : Scanner) (isOpen : scanner.mode.isOpen = true),
      scanner.rest = [] → motive scanner isOpen)
    (step : ∀ (scanner : Scanner) (c : Char) (rest : Text) (isOpen : scanner.mode.isOpen = true),
      scanner.rest = c :: rest →
      (scanner.mode = .code → c = '/' → rest.head? ≠ some '/' ∧ rest.head? ≠ some '*') →
      (scanner.react c rest).found = none →
      ∀ stays : (scanner.react c rest).mode.isOpen = true,
        motive (scanner.after c rest (scanner.react c rest)) stays → motive scanner isOpen)
    (line : ∀ (blocks : Bool) (before line rest : Text) (flag : Bool), '\n' ∉ line →
      motive ⟨blocks, '\n' :: (line.reverse ++ '/' :: '/' :: before), rest, .code, false⟩ rfl →
      motive ⟨blocks, before, '/' :: '/' :: (line ++ '\n' :: rest), .code, flag⟩ rfl)
    (lastLine : ∀ (blocks : Bool) (before line : Text) (flag : Bool), '\n' ∉ line →
      motive ⟨blocks, before, '/' :: '/' :: line, .code, flag⟩ rfl)
    (block : ∀ (blocks : Bool) (before body rest : Text) (flag later : Bool),
      ¬ ['*', '/'] <:+: body →
      (⟨blocks, before, blockText body ++ rest, .code, flag⟩ : Scanner).toList =
        (if blocks then [ofBlock (Text.bytes before) flag body rest] else []) ++
          (⟨blocks, (blockText body).reverse ++ before, rest, .code, later⟩ : Scanner).toList →
      motive ⟨blocks, (blockText body).reverse ++ before, rest, .code, later⟩ rfl →
      motive ⟨blocks, before, blockText body ++ rest, .code, flag⟩ rfl)
    (openBlock : ∀ (blocks : Bool) (before rest : Text) (flag : Bool), ¬ ['*', '/'] <:+: rest →
      motive ⟨blocks, before, '/' :: '*' :: rest, .code, flag⟩ rfl)
    (scanner : Scanner) (isOpen : scanner.mode.isOpen = true) : motive scanner isOpen := by
  induction left : scanner.rest.length using Nat.strongRecOn generalizing scanner with
  | _ count ih =>
      obtain ⟨blocks, before, rest, mode, flag⟩ := scanner
      subst left
      cases rest with
      | nil => exact ended _ isOpen rfl
      | cons c rest =>
          by_cases comments : mode = .code ∧ c = '/' ∧
              (rest.head? = some '/' ∨ rest.head? = some '*')
          · obtain ⟨rfl, rfl, second⟩ := comments
            rcases second with slash | star
            · obtain ⟨tail, rfl⟩ := List.head?_eq_some_iff.1 slash
              obtain ⟨body, inLine, rfl | ⟨rest, rfl⟩⟩ := exists_line tail
              · exact lastLine blocks before _ flag inLine
              · refine line blocks before body rest flag inLine (ih _ ?_ _ rfl rfl)
                simp only [List.length_cons, List.length_append]
                omega
            · obtain ⟨inside, rfl⟩ := List.head?_eq_some_iff.1 star
              rcases exists_closer inside with ⟨body, rest, rfl, noCloser⟩ | noCloser
              · have whole : '/' :: '*' :: (body ++ '*' :: '/' :: rest) =
                    blockText body ++ rest := by
                  simp only [blockText, List.cons_append, List.append_assoc, List.nil_append]
                obtain ⟨later, reads⟩ := @toList_blockText blocks flag before rest body noCloser
                have behind := block blocks before body rest flag later noCloser reads
                  (ih _ (by simp only [List.length_cons, List.length_append]; omega) _ rfl rfl)
                simp only [← whole] at behind
                exact behind
              · exact openBlock blocks before inside flag noCloser
          · have noComment : mode = .code → c = '/' →
                rest.head? ≠ some '/' ∧ rest.head? ≠ some '*' := fun code slash =>
              ⟨fun second => comments ⟨code, slash, .inl second⟩,
                fun second => comments ⟨code, slash, .inr second⟩⟩
            obtain ⟨stays, none⟩ := @isOpen_react ⟨blocks, before, c :: rest, mode, flag⟩ c rest
              isOpen noComment
            exact step _ c rest isOpen rfl noComment none stays
              (ih _ (length_rest_after_lt ⟨blocks, before, c :: rest, mode, flag⟩ c rest _) _ stays
                rfl)

end Scanner

theorem opensQuoted_slash (text behind behind' : Text) :
    opensQuoted (text ++ '/' :: behind) = opensQuoted (text ++ '/' :: behind') := by
  induction text with
  | nil => exact (opensQuoted_cons rfl _).trans (opensQuoted_cons rfl _).symm
  | cons c text ih =>
      by_cases space : isSpace c = true
      · have passed := opensQuoted_append (List.forall_mem_singleton.2 space)
        exact (passed _).trans (ih.trans (passed _).symm)
      · rw [Bool.not_eq_true] at space
        exact (opensQuoted_cons space _).trans (opensQuoted_cons space _).symm

/-- Whether a scanner in `mode` behind `before` makes `blanked` of `text` in front of any block
comment and is in ordinary text there. -/
def LeadsToComment (mode : Mode) (before text blanked : Text) : Prop :=
  ∀ tail flag, ∃ later,
    (⟨false, before, text ++ '/' :: '*' :: tail, mode, flag⟩ : Scanner).overwritten =
      blanked ++
        (⟨false, text.reverse ++ before, '/' :: '*' :: tail, .code, later⟩ : Scanner).overwritten

namespace LeadsToComment

variable {mode : Mode} {before text blanked : Text}

theorem nil (before : Text) : LeadsToComment .code before [] [] :=
  fun _ flag => ⟨flag, rfl⟩

theorem bytes_eq (leads : LeadsToComment mode before text blanked)
    (isOpen : mode.isOpen = true) : Text.bytes blanked = Text.bytes text := by
  obtain ⟨later, overwritten⟩ := leads [] false
  have length := congrArg Text.bytes overwritten
  rw [Scanner.bytes_overwritten _ (Mode.isLine_of_isOpen isOpen), Text.bytes_append,
    Text.bytes_append, Scanner.bytes_overwritten _ rfl] at length
  exact (Nat.add_right_cancel length).symm

/-- A character that starts no comment, and what is read along with it. -/
theorem step {c : Char} {more : Nat} {mode' : Mode} (isOpen : mode.isOpen = true)
    (isOpen' : mode'.isOpen = true) (fits : more ≤ text.length)
    (react : ∀ tail flag, ∃ flag',
      (⟨false, before, c :: (text ++ '/' :: '*' :: tail), mode, flag⟩ : Scanner).react c
        (text ++ '/' :: '*' :: tail) = ⟨more, mode', flag', none⟩)
    (leads : LeadsToComment mode' ((text.take more).reverse ++ c :: before) (text.drop more)
      blanked) :
    LeadsToComment mode before (c :: text) (c :: text.take more ++ blanked) := by
  intro tail flag
  obtain ⟨flag', reacts⟩ := react tail flag
  obtain ⟨later, overwritten⟩ := leads tail flag'
  have stays : ((⟨false, before, c :: (text ++ '/' :: '*' :: tail), mode, flag⟩ : Scanner).react c
      (text ++ '/' :: '*' :: tail)).mode.isLine = false := by
    rw [reacts]
    exact Mode.isLine_of_isOpen isOpen'
  have step := Scanner.overwritten_step (Mode.isLine_of_isOpen isOpen) rfl stays
  have whole : c :: text = c :: text.take more ++ text.drop more := by
    rw [List.cons_append, List.take_append_drop]
  have read : (c :: text).reverse ++ before =
      (text.drop more).reverse ++ ((text.take more).reverse ++ c :: before) := by
    rw [whole, List.reverse_append, List.reverse_cons]
    simp only [List.append_assoc, List.singleton_append]
  simp only [reacts, Scanner.after, List.take_append_of_le_length fits,
    List.drop_append_of_le_length fits] at step
  refine ⟨later, ?_⟩
  rw [List.cons_append, step, overwritten, read, List.append_assoc]

theorem line {line : Text} (whole : '\n' ∉ line)
    (leads : LeadsToComment .code ('\n' :: (line.reverse ++ '/' :: '/' :: before)) text blanked) :
    LeadsToComment .code before ('/' :: '/' :: (line ++ '\n' :: text))
      (List.replicate (Text.bytes (marked (withoutReturn line))) ' ' ++
        (lineEnd line ++ blanked)) := by
  intro tail flag
  obtain ⟨later, overwritten⟩ := leads tail false
  have order : '/' :: '/' :: (line ++ '\n' :: text) ++ '/' :: '*' :: tail =
      '/' :: '/' :: (line ++ '\n' :: (text ++ '/' :: '*' :: tail)) := by
    simp
  have read : ('/' :: '/' :: (line ++ '\n' :: text)).reverse ++ before =
      text.reverse ++ '\n' :: (line.reverse ++ '/' :: '/' :: before) := by
    simp
  refine ⟨later, ?_⟩
  rw [order, Scanner.overwritten_line whole, overwritten, read]
  simp only [List.append_assoc]

theorem behindComment {body : Text} (noCloser : ¬ ['*', '/'] <:+: body)
    (leads : LeadsToComment .code ((blockText body).reverse ++ before) text blanked) :
    LeadsToComment .code before (blockText body ++ text) (blockText body ++ blanked) := by
  intro tail flag
  obtain ⟨between, passed⟩ :=
    (passes_blockText noCloser before (text ++ '/' :: '*' :: tail)).overwritten flag
  obtain ⟨later, overwritten⟩ := leads tail between
  refine ⟨later, ?_⟩
  rw [List.append_assoc, passed, overwritten, List.reverse_append, List.append_assoc,
    List.append_assoc]

end LeadsToComment

/-- A block comment with `body` in it stands between `front`, for which `blanked` is written, and
`behind` in a text that is read in `mode` behind `before`. -/
structure IsFound (mode : Mode) (before rest : Text) (comment : Comment)
    (front blanked body behind : Text) : Prop where
  whole : rest = front ++ (blockText body ++ behind)
  noCloser : ¬ ['*', '/'] <:+: body
  start : comment.span.start = Text.bytes before + Text.bytes front
  stop : comment.span.stop = comment.span.start + Text.bytes (blockText body)
  text : comment.text = Text.trim body
  leads : LeadsToComment mode before front blanked

namespace IsFound

variable {mode mode' : Mode} {before rest front blanked body behind : Text} {comment : Comment}

/-- A scanner reacts alike whatever the comment holds. -/
theorem exists_react {c : Char} {flag : Bool} (isOpen : mode.isOpen = true)
    (noComment : mode = .code → c = '/' → rest.head? ≠ some '/' ∧ rest.head? ≠ some '*')
    (whole : rest = front ++ (blockText body ++ behind)) (tail : Text) (flag' : Bool) :
    ∃ later, (⟨false, before, c :: (front ++ '/' :: '*' :: tail), mode, flag'⟩ : Scanner).react c
        (front ++ '/' :: '*' :: tail) =
      ⟨((⟨true, before, c :: rest, mode, flag⟩ : Scanner).react c rest).more,
        ((⟨true, before, c :: rest, mode, flag⟩ : Scanner).react c rest).mode, later, none⟩ := by
  have head : (front ++ '/' :: '*' :: tail).head? = rest.head? := by
    rw [whole]
    cases front <;> rfl
  have quoted : opensQuoted (front ++ '/' :: '*' :: tail) = opensQuoted rest := by
    rw [whole]
    exact opensQuoted_slash front _ _
  have alike : Scanner.Alike ⟨true, before, c :: rest, mode, flag⟩
      ⟨false, before, c :: (front ++ '/' :: '*' :: tail), mode, flag'⟩ := ⟨rfl, rfl⟩
  obtain ⟨more, kind⟩ := alike.react (Mode.isLine_of_isOpen isOpen) (c := c) head quoted
  have opens := (@Scanner.isOpen_react ⟨true, before, c :: rest, mode, flag⟩ c rest isOpen
    noComment).1
  have found := (@Scanner.isOpen_react
    ⟨false, before, c :: (front ++ '/' :: '*' :: tail), mode, flag'⟩ c
    (front ++ '/' :: '*' :: tail) isOpen (head ▸ noComment)).2
  have same := Mode.eq_of_kind opens kind
  generalize (⟨false, before, c :: (front ++ '/' :: '*' :: tail), mode, flag'⟩ : Scanner).react c
    (front ++ '/' :: '*' :: tail) = reaction at more same found
  obtain ⟨more', mode', later, found'⟩ := reaction
  dsimp only at more same found
  exact ⟨later, by rw [more, same, found]⟩

theorem step {c : Char} {flag : Bool} (isOpen : mode.isOpen = true)
    (noComment : mode = .code → c = '/' → rest.head? ≠ some '/' ∧ rest.head? ≠ some '*')
    {reaction : Reaction}
    (reacts : (⟨true, before, c :: rest, mode, flag⟩ : Scanner).react c rest = reaction)
    (found : IsFound reaction.mode ((rest.take reaction.more).reverse ++ c :: before)
      (rest.drop reaction.more) comment front blanked body behind) :
    IsFound mode before (c :: rest) comment (c :: (rest.take reaction.more ++ front))
      (c :: (rest.take reaction.more ++ blanked)) body behind := by
  subst reacts
  have fits := Scanner.more_le_length ⟨true, before, c :: rest, mode, flag⟩ c rest
  have length := List.length_take_of_le fits
  have whole := List.take_append_drop
    ((⟨true, before, c :: rest, mode, flag⟩ : Scanner).react c rest).more rest
  rw [found.whole, ← List.append_assoc] at whole
  have opens := (@Scanner.isOpen_react ⟨true, before, c :: rest, mode, flag⟩ c rest isOpen
    noComment).1
  have leads := LeadsToComment.step isOpen opens
    (Nat.le_trans (Nat.le_of_eq length.symm) (List.length_append ▸ Nat.le_add_right _ _))
    (exists_react isOpen noComment whole.symm) (by
      rw [List.take_left' length, List.drop_left' length]
      exact found.leads)
  rw [List.take_left' length, List.cons_append] at leads
  refine ⟨congrArg (c :: ·) whole.symm, found.noCloser, ?_, found.stop, found.text, leads⟩
  rw [found.start]
  simp only [Text.bytes_append, Text.bytes_reverse, Text.bytes_cons]
  omega

theorem line {line : Text} (inLine : '\n' ∉ line)
    (found : IsFound .code ('\n' :: (line.reverse ++ '/' :: '/' :: before)) rest comment front
      blanked body behind) :
    IsFound .code before ('/' :: '/' :: (line ++ '\n' :: rest)) comment
      ('/' :: '/' :: (line ++ '\n' :: front))
      (List.replicate (Text.bytes (marked (withoutReturn line))) ' ' ++ (lineEnd line ++ blanked))
      body behind := by
  refine ⟨?_, found.noCloser, ?_, found.stop, found.text, found.leads.line inLine⟩
  · rw [found.whole]
    simp
  · rw [found.start]
    simp only [Text.bytes_append, Text.bytes_reverse, Text.bytes_cons]
    omega

theorem behindComment {first : Text} (noCloser : ¬ ['*', '/'] <:+: first)
    (found : IsFound .code ((blockText first).reverse ++ before) rest comment front blanked body
      behind) :
    IsFound .code before (blockText first ++ rest) comment (blockText first ++ front)
      (blockText first ++ blanked) body behind := by
  refine ⟨?_, found.noCloser, ?_, found.stop, found.text, found.leads.behindComment noCloser⟩
  · rw [found.whole, List.append_assoc]
  · rw [found.start]
    simp only [Text.bytes_append, Text.bytes_reverse]
    omega

end IsFound

/-- **What is blanked around a comment does not depend on what it holds.** -/
theorem IsFound.exists_blanked {source front blanked body behind : Text} {comment : Comment}
    (found : IsFound .code [] source comment front blanked body behind) :
    ∃ later, ∀ body', ¬ ['*', '/'] <:+: body' →
      blankLineComments (front ++ (blockText body' ++ behind)) =
        blanked ++ (blockText body' ++ later) := by
  refine ⟨(⟨false, ['/'], behind, .code, false⟩ : Scanner).overwritten, fun body' noCloser => ?_⟩
  have shape : blockText body' ++ behind = '/' :: '*' :: (body' ++ ['*', '/'] ++ behind) := rfl
  obtain ⟨between, leads⟩ := found.leads (body' ++ ['*', '/'] ++ behind) false
  rw [← shape] at leads
  obtain ⟨flag, passed⟩ :=
    (passes_blockText noCloser (front.reverse ++ []) behind).overwritten between
  have alike : Scanner.Alike ⟨false, ['/'], behind, .code, false⟩
      ⟨false, (blockText body').reverse ++ (front.reverse ++ []), behind, .code, flag⟩ := by
    refine ⟨rfl, ?_⟩
    have last : (blockText body').reverse = '/' :: ('*' :: (body'.reverse ++ ['*', '/'])) := by
      simp [blockText]
    rw [last]
    rfl
  have same := Scanner.Alike.overwritten_append List.not_mem_nil _ rfl _ alike
    (List.append_nil behind).symm (.inl rfl)
  rw [← overwritten_of_noBlocks, leads, passed, same, List.append_nil]

/-- **A block comment that a scanner hands out stands in the text.** -/
theorem Scanner.exists_isFound (scanner : Scanner) (isOpen : scanner.mode.isOpen = true)
    (blocks : scanner.blocks = true) {comment : Comment} (found : comment ∈ scanner.toList)
    (isBlock : comment.kind = .block) :
    ∃ front blanked body behind,
      IsFound scanner.mode scanner.before scanner.rest comment front blanked body behind := by
  induction scanner, isOpen using Scanner.induct_comments with
  | ended scanner isOpen ended =>
      rw [Scanner.toList_nil (Mode.isLine_of_isOpen isOpen) ended] at found
      exact absurd found List.not_mem_nil
  | step scanner c rest isOpen ahead noComment silent stays ih =>
      rw [Scanner.toList_step ahead, silent] at found
      obtain ⟨front, blanked, body, behind, held⟩ := ih blocks found
      obtain ⟨_, before, _, mode, flag⟩ := scanner
      subst ahead blocks
      exact ⟨_, _, body, behind, held.step isOpen noComment rfl⟩
  | line _ before line rest flag inLine ih =>
      rw [Scanner.toList_line inLine] at found
      rcases List.mem_cons.1 found with rfl | later
      · exact CommentKind.noConfusion isBlock
      · obtain ⟨front, blanked, body, behind, held⟩ := ih blocks later
        exact ⟨_, _, body, behind, held.line inLine⟩
  | lastLine _ before line flag inLine =>
      rw [Scanner.toList_lastLine inLine, List.mem_singleton] at found
      rw [found] at isBlock
      exact CommentKind.noConfusion isBlock
  | block _ before first rest flag later noCloser reads ih =>
      subst blocks
      rw [reads, if_pos rfl, List.singleton_append] at found
      rcases List.mem_cons.1 found with rfl | later
      · refine ⟨[], [], first, rest, rfl, noCloser, rfl, ?_, rfl, .nil before⟩
        rw [bytes_blockText]
        simp only [ofBlock]
        omega
      · obtain ⟨front, blanked, body, behind, held⟩ := ih rfl later
        exact ⟨_, _, body, behind, held.behindComment noCloser⟩
  | openBlock _ before rest flag noCloser =>
      rw [Scanner.toList_opensBlock, Scanner.toList_unclosed noCloser] at found
      exact absurd found List.not_mem_nil

/-- A text with spaces between the markers of a block comment. -/
def hollow (source : Text) (comment : Comment) : Text :=
  blankSpans 0 source [⟨comment.span.start + 2, comment.span.stop - 2⟩]

theorem IsFound.hollow_eq {source front blanked body behind : Text} {comment : Comment}
    (found : IsFound .code [] source comment front blanked body behind) :
    hollow source comment =
      front ++ (blockText (List.replicate (Text.bytes body) ' ') ++ behind) := by
  have start : comment.span.start + 2 = 0 + Text.bytes (front ++ ['/', '*']) := by
    have size : Text.bytes ['/', '*'] = 2 := rfl
    rw [found.start, Text.bytes_append, size, Text.bytes_nil]
    omega
  have stop : comment.span.stop - 2 = 0 + Text.bytes (front ++ ['/', '*']) + Text.bytes body := by
    rw [found.stop, bytes_blockText, ← start]
    omega
  have order : source = front ++ ['/', '*'] ++ (body ++ ('*' :: '/' :: behind)) := by
    rw [found.whole]
    simp [blockText]
  rw [hollow, start, stop, order, blankSpans_append, blankSpans_cons]
  · simp [blockText, blankSpans]
  · intro span member
    rw [List.mem_singleton.1 member]
    exact ⟨Nat.le_refl _, Nat.le_add_right _ _⟩

end Comment

end ScssLint
