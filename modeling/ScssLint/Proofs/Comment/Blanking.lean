import ScssLint.Proofs.Comment.Ahead
import ScssLint.Proofs.Comment.Overwriting
import ScssLint.Stylesheet.Outline

/-! # Blanking line comments

A scanner that reads a text and a scanner that reads the blanked text stay in step
(`Comment.Scanner.Twin`): what they have read differs in comments only, and what lies ahead differs
in line comments only, so that both react alike (`Comment.Scanner.Twin.react`). The second scanner
finds the block comments of the first one and nothing else (`Comment.Scanner.Twin.toList`), so
blanking removes the line comments and changes nothing else
(`Comment.blankLineComments_removes_lines`).
-/

namespace ScssLint

namespace Comment

namespace Scanner

variable {blocks flag : Bool} {before rest : Text}

theorem isPlain_of_isBlank {c : Char} (blank : isBlank c = true) : isPlain c = true := by
  have other (d : Char) (dark : isBlank d = false) : c ≠ d := by
    rintro rfl
    rw [blank] at dark
    exact Bool.noConfusion dark
  simp only [isPlain, Bool.and_eq_true, bne_iff_ne, ne_eq]
  exact ⟨⟨⟨⟨other _ (by decide), other _ (by decide)⟩, other _ (by decide)⟩,
    other _ (by decide)⟩, other _ (by decide)⟩

/-- White space stays where it is in ordinary text and in an unquoted `url(` argument. -/
theorem overwritten_blank {mode : Mode} (open_ : mode = .code ∨ mode = .url) {c : Char}
    (blank : isBlank c = true) :
    (⟨blocks, before, c :: rest, mode, flag⟩ : Scanner).overwritten =
      c :: (⟨blocks, c :: before, rest, mode, hasCodeAfter flag c⟩ : Scanner).overwritten := by
  have reaction : (⟨blocks, before, c :: rest, mode, flag⟩ : Scanner).react c rest =
      ⟨0, mode, hasCodeAfter flag c, none⟩ := by
    rcases open_ with rfl | rfl
    · exact react_plain (isPlain_of_isBlank blank)
    · have other : c ≠ ')' := by
        rintro rfl
        exact absurd blank (by decide)
      simp only [react, other, ↓reduceIte]
  have outside : mode.isLine = false := by rcases open_ with rfl | rfl <;> rfl
  rw [overwritten_step outside rfl (by rw [reaction]; exact outside), reaction]
  rfl

theorem overwritten_blanks {mode : Mode} (open_ : mode = .code ∨ mode = .url) (before : Text)
    (flag : Bool) {blanks : Text} (all : ∀ c ∈ blanks, isBlank c = true) :
    ∃ later : Scanner, later.mode = mode ∧ later.rest = rest ∧
      (⟨blocks, before, blanks ++ rest, mode, flag⟩ : Scanner).overwritten =
        blanks ++ later.overwritten := by
  induction blanks generalizing before flag with
  | nil => exact ⟨⟨blocks, before, rest, mode, flag⟩, rfl, rfl, rfl⟩
  | cons c blanks ih =>
      obtain ⟨later, sameMode, sameRest, same⟩ := ih (c :: before) (hasCodeAfter flag c)
        fun d member => all d (List.mem_cons_of_mem c member)
      refine ⟨later, sameMode, sameRest, ?_⟩
      rw [List.cons_append, overwritten_blank open_ (all c List.mem_cons_self), same]
      rfl

/-- Overwriting keeps the first character, unless it opens a line comment. -/
theorem head?_overwritten (scanner : Scanner) (outside : scanner.mode.isLine = false) :
    scanner.overwritten.head? = scanner.rest.head? ∨
      (scanner.mode = .code ∧ (∃ tail, scanner.rest = '/' :: '/' :: tail) ∧
        scanner.overwritten.head? = some ' ') := by
  have spaces (count : Nat) (tail : Text) :
      (List.replicate (2 + count) ' ' ++ tail).head? = some ' ' := by
    rw [Nat.add_comm, List.replicate_succ, List.cons_append, List.head?_cons]
  induction scanner, outside using induct_steps with
  | ended scanner outside ended =>
      rw [overwritten_nil outside ended, ended]
      exact .inl rfl
  | step scanner c rest outside ahead stays _ =>
      rw [overwritten_step outside ahead stays, ahead]
      exact .inl rfl
  | line blocks before line rest flag whole _ =>
      rw [overwritten_line whole, bytes_marked]
      exact .inr ⟨rfl, ⟨_, rfl⟩, spaces ..⟩
  | lastLine blocks before line flag whole =>
      have first := spaces (Text.bytes line) []
      rw [List.append_nil] at first
      rw [overwritten_lastLine whole, bytes_marked]
      exact .inr ⟨rfl, ⟨_, rfl⟩, first⟩

/-- Overwriting ahead hides no quote behind a parenthesis and moves none there. -/
theorem opensQuoted_overwritten {scanner : Scanner}
    (argument : scanner.mode = .url ∨ (scanner.mode = .code ∧ opensQuoted scanner.rest = true)) :
    opensQuoted scanner.overwritten = opensQuoted scanner.rest := by
  obtain ⟨blocks, before, text, mode, flag⟩ := scanner
  obtain ⟨spaces, rest, rfl, all, stops⟩ := Text.exists_leading isSpace text
  have open_ : mode = .code ∨ mode = .url := argument.elim .inr fun found => .inl found.1
  obtain ⟨later, sameMode, sameRest, same⟩ :=
    overwritten_blanks open_ before flag fun c member => isBlank_of_isSpace (all c member)
  have outside : later.mode.isLine = false := by
    rw [sameMode]
    rcases open_ with rfl | rfl <;> rfl
  simp only [opensQuoted_append all] at argument
  rw [same, opensQuoted_append all, opensQuoted_append all, ← sameRest]
  cases ahead : later.rest with
  | nil => rw [overwritten_nil outside ahead]
  | cons c tail =>
      have dark := stops c tail (sameRest.symm.trans ahead)
      have first : later.overwritten.head? = some c := by
        rcases head?_overwritten later outside with kept | ⟨code, ⟨behind, slashes⟩, _⟩
        · rw [kept, ahead, List.head?_cons]
        · rcases argument with url | ⟨_, quoted⟩
          · rw [sameMode, url] at code
            exact Mode.noConfusion code
          · rw [← sameRest, slashes, opensQuoted_cons (by decide)] at quoted
            exact absurd quoted (by decide)
      obtain ⟨behind, rewritten⟩ := List.head?_eq_some_iff.1 first
      rw [rewritten, opensQuoted_cons dark, opensQuoted_cons dark]

/-- What follows the character that is read looks the same after overwriting, unless a line comment
opens there. -/
theorem head?_taken_overwritten {scanner : Scanner} {c : Char} {rest : Text}
    (stays : (scanner.react c rest).mode.isLine = false) :
    (rest.take (scanner.react c rest).more ++
        (scanner.after c rest (scanner.react c rest)).overwritten).head? = rest.head? ∨
      ((scanner.react c rest).more = 0 ∧ (scanner.react c rest).mode = .code ∧
        rest.head? = some '/') := by
  cases count : (scanner.react c rest).more with
  | zero =>
      have dropped : (scanner.after c rest (scanner.react c rest)).rest = rest := by
        simp only [after, count, List.drop_zero]
      rcases head?_overwritten (scanner.after c rest (scanner.react c rest)) stays with
        kept | ⟨code, ⟨tail, slashes⟩, _⟩
      · rw [dropped] at kept
        rw [List.take_zero, List.nil_append]
        exact .inl kept
      · rw [dropped] at slashes
        exact .inr ⟨rfl, code, by rw [slashes, List.head?_cons]⟩
  | succ more =>
      have fits := more_le_length scanner c rest
      cases rest with
      | nil =>
          rw [count, List.length_nil] at fits
          omega
      | cons d rest =>
          rw [List.take_succ_cons, List.cons_append, List.head?_cons, List.head?_cons]
          exact .inl rfl

theorem isBlank_of_mem_spaces {count : Nat} {c : Char} (member : c ∈ List.replicate count ' ') :
    isBlank c = true ∧ c ≠ '\n' := by
  obtain rfl := List.eq_of_mem_replicate member
  exact ⟨rfl, by decide⟩

theorem hasCodeAhead_lineEnd (line rest : Text) : hasCodeAhead (lineEnd line ++ rest) = false := by
  unfold lineEnd
  split
  · have returned : ∀ c ∈ ['\r'], isBlank c = true ∧ c ≠ '\n' := by
      intro c member
      obtain rfl := List.mem_singleton.1 member
      exact ⟨rfl, by decide⟩
    exact (hasCodeAhead_append returned _).trans (hasCodeAhead_newline rest)
  · exact hasCodeAhead_newline rest

/-- Line comments become white space, which hides code on their line as little as they do. -/
theorem hasCodeAhead_overwritten_of_dark (scanner : Scanner)
    (outside : scanner.mode.isLine = false) (code : scanner.mode = .code)
    (first : ∀ c tail, scanner.rest = c :: tail → c = '\n' ∨ isBlank c = false) :
    hasCodeAhead scanner.overwritten = hasCodeAhead scanner.rest := by
  have marker (sign : Char) (tail : Text) (comments : sign = '/' ∨ sign = '*') :
      hasCodeAhead ('/' :: sign :: tail) = false := by
    rw [← Bool.not_eq_true, hasCodeAhead_cons (by decide)]
    rcases comments with rfl | rfl <;> simp
  induction scanner, outside using induct_steps with
  | ended scanner outside ended => rw [overwritten_nil outside ended, ended]
  | step scanner c rest outside ahead stays _ =>
      rw [overwritten_step outside ahead stays, ahead, List.cons_append]
      rcases first c rest ahead with rfl | dark
      · rw [hasCodeAhead_newline, hasCodeAhead_newline]
      · rw [Bool.eq_iff_iff, hasCodeAhead_cons dark, hasCodeAhead_cons dark]
        rcases head?_taken_overwritten stays with kept | ⟨_, _, slash⟩
        · rw [kept]
        · have other : c ≠ '/' := by
            rintro rfl
            obtain ⟨tail, rfl⟩ := List.head?_eq_some_iff.1 slash
            obtain ⟨blocks, before, rest', mode, flag⟩ := scanner
            simp only at ahead code
            subst ahead code
            rw [react_slashes] at stays
            exact Bool.noConfusion stays
          simp only [other, false_and]
  | line blocks before line rest flag whole _ =>
      rw [overwritten_line whole, hasCodeAhead_append fun c => isBlank_of_mem_spaces,
        hasCodeAhead_lineEnd, marker '/' _ (.inl rfl)]
  | lastLine blocks before line flag whole =>
      have spaces : ∀ c ∈ List.replicate (Text.bytes (marked line)) ' ',
          isBlank c = true ∧ c ≠ '\n' := fun c => isBlank_of_mem_spaces
      have blank := hasCodeAhead_append spaces []
      rw [List.append_nil, hasCodeAhead_nil] at blank
      rw [overwritten_lastLine whole, blank, marker '/' _ (.inl rfl)]

/-- Overwriting line comments ahead makes no line look as if it had code, and none as if not. -/
theorem hasCodeAhead_overwritten {scanner : Scanner} (code : scanner.mode = .code) :
    hasCodeAhead scanner.overwritten = hasCodeAhead scanner.rest := by
  obtain ⟨blocks, before, text, mode, flag⟩ := scanner
  obtain ⟨blanks, rest, rfl, all, stops⟩ :=
    Text.exists_leading (fun c => isBlank c && c != '\n') text
  simp only [Bool.and_eq_true, bne_iff_ne, ne_eq] at all
  obtain ⟨later, sameMode, sameRest, same⟩ :=
    overwritten_blanks (.inl code) before flag fun c member => (all c member).1
  simp only at code
  subst code
  rw [same, hasCodeAhead_append all, hasCodeAhead_append all, ← sameRest]
  apply hasCodeAhead_overwritten_of_dark later (by rw [sameMode]; rfl) sameMode
  intro c tail ahead
  have dark := stops c tail (sameRest.symm.trans ahead)
  by_cases breaks : c = '\n'
  · exact .inl breaks
  · rw [Bool.and_eq_false_iff] at dark
    exact .inr (dark.resolve_right (by simpa using breaks))

/-- The characters in front of a place that can belong to a function name, last one first. -/
def nameRun (before : Text) : Text :=
  before.takeWhile fun c => c.isAlphanum || c == '-' || c == '_'

theorem nameRun_append (read : Text) {before before' : Text}
    (same : nameRun before' = nameRun before) :
    nameRun (read ++ before') = nameRun (read ++ before) := by
  simp only [nameRun] at same
  rw [nameRun, nameRun, List.takeWhile_append, List.takeWhile_append, same]

theorem exists_lineEnd (line : Text) : ∃ start, lineEnd line = start ++ ['\n'] := by
  unfold lineEnd
  split
  · exact ⟨['\r'], rfl⟩
  · exact ⟨[], rfl⟩

theorem isPlain_of_mem_lineEnd {line : Text} {c : Char} (member : c ∈ lineEnd line) :
    isPlain c = true := by
  unfold lineEnd at member
  split at member
  · simp only [List.mem_cons, List.not_mem_nil, or_false] at member
    rcases member with rfl | rfl <;> rfl
  · obtain rfl := List.mem_singleton.1 member
    rfl

theorem foldl_hasCodeAfter_lineEnd (line : Text) (flag : Bool) :
    (lineEnd line).foldl hasCodeAfter flag = false := by
  obtain ⟨start, ends⟩ := exists_lineEnd line
  rw [ends, List.foldl_append]
  rfl

/-- A scanner that reads the overwritten text in step with another scanner. -/
structure Twin (scanner twin : Scanner) : Prop where
  blocks : twin.blocks = scanner.blocks
  rest : twin.rest = scanner.overwritten
  mode : twin.mode = scanner.mode
  lineHasCode : twin.lineHasCode = scanner.lineHasCode
  offset : twin.offset = scanner.offset
  name : nameRun twin.before = nameRun scanner.before

namespace Twin

/-- **Twins react alike.** -/
theorem react {scanner twin : Scanner} (twins : Twin scanner twin) {c : Char} {rest : Text}
    (outside : scanner.mode.isLine = false) (ahead : scanner.rest = c :: rest)
    (stays : (scanner.react c rest).mode.isLine = false) :
    twin.react c (rest.take (scanner.react c rest).more ++
        (scanner.after c rest (scanner.react c rest)).overwritten) = scanner.react c rest := by
  have head := head?_taken_overwritten stays
  obtain ⟨blocks', before, rest', mode', flag'⟩ := scanner
  obtain ⟨blocks, before', rest'', mode, flag⟩ := twin
  obtain ⟨sameBlocks, -, sameMode, sameFlag, offset, name⟩ := twins
  simp only at sameBlocks sameMode sameFlag ahead
  subst sameBlocks sameMode sameFlag ahead
  cases mode with
  | line start inline body => exact absurd outside Bool.noConfusion
  | url => rfl
  | quoted quote =>
      refine react_quoted_congr fun backslash => head.resolve_right ?_
      rintro ⟨-, code, -⟩
      simp only [Scanner.react, backslash, ↓reduceIte] at code
      exact Mode.noConfusion code
  | block start inline body =>
      have block : (Scanner.react ⟨blocks, before, c :: rest, .block start inline body, flag⟩ c
          rest).mode = .code → c = '*' ∧ rest.head? = some '/' := by
        intro code
        simp only [Scanner.react] at code
        split at code
        · assumption
        · exact Mode.noConfusion code
      refine react_block_congr (fun star => head.resolve_right ?_) fun star closes => ?_
      · rintro ⟨single, code, -⟩
        have ends := block code
        simp only [Scanner.react, ends, and_self, ↓reduceIte] at single
        exact absurd single (by decide)
      · obtain ⟨tail, rfl⟩ := List.head?_eq_some_iff.1 closes
        simp only [Scanner.react, star, List.head?_cons, and_self, ↓reduceIte]
        exact hasCodeAhead_overwritten rfl
  | code =>
      refine react_code_congr offset (fun slash => head.resolve_right ?_) (fun backslash => ?_)
        fun paren => ?_
      · rintro ⟨-, -, second⟩
        obtain ⟨tail, rfl⟩ := List.head?_eq_some_iff.1 second
        rw [slash, react_slashes] at stays
        exact Bool.noConfusion stays
      · rcases head with kept | ⟨single, -, second⟩
        · exact escapeLength_congr kept
        · obtain ⟨tail, rfl⟩ := List.head?_eq_some_iff.1 second
          rw [backslash] at single
          exact absurd single Nat.one_ne_zero
      · have sameName : endsInUrl before' = endsInUrl before :=
          congrArg (fun run : Text => Text.equalAnyCase run.reverse ['u', 'r', 'l']) name
        rw [sameName]
        cases url : endsInUrl before with
        | false => rfl
        | true =>
            have reaction : Scanner.react ⟨blocks, before, c :: rest, .code, flag⟩ c rest =
                ⟨0, if (endsInUrl before && !opensQuoted rest) = true then .url else .code, true,
                  none⟩ := by
              rw [paren]
              rfl
            rw [reaction, List.take_zero, List.nil_append, opensQuoted_overwritten]
            · rfl
            · cases quoted : opensQuoted rest with
              | false => exact .inl (by simp only [Scanner.after, url]; rfl)
              | true => exact .inr ⟨by simp only [Scanner.after, url]; rfl, quoted⟩

theorem after {scanner twin : Scanner} (twins : Twin scanner twin) {c : Char} {rest : Text}
    (outside : scanner.mode.isLine = false) (ahead : scanner.rest = c :: rest)
    (stays : (scanner.react c rest).mode.isLine = false) :
    ∃ rest', twin.rest = c :: rest' ∧ twin.react c rest' = scanner.react c rest ∧
      Twin (scanner.after c rest (scanner.react c rest))
        (twin.after c rest' (scanner.react c rest)) := by
  have fits := more_le_length scanner c rest
  have length : (rest.take (scanner.react c rest).more).length = (scanner.react c rest).more := by
    rw [List.length_take, Nat.min_eq_left fits]
  refine ⟨rest.take (scanner.react c rest).more ++
    (scanner.after c rest (scanner.react c rest)).overwritten,
    twins.rest.trans (overwritten_step outside ahead stays), twins.react outside ahead stays, ?_⟩
  constructor
  · exact twins.blocks
  · exact List.drop_left' length
  · rfl
  · rfl
  · have offset := twins.offset
    simp only [Scanner.offset] at offset
    simp only [Scanner.after, Scanner.offset, List.take_left' length, Text.bytes_append,
      Text.bytes_cons, offset]
  · simp only [Scanner.after, List.take_left' length]
    exact nameRun_append _ (nameRun_append [c] twins.name)

/-- Behind a line comment the twin has read white space, and both are at the start of a line. -/
theorem behindLine {line : Text} {twin : Scanner}
    (twins : Twin ⟨blocks, before, '/' :: '/' :: (line ++ '\n' :: rest), .code, flag⟩ twin)
    (whole : '\n' ∉ line) :
    ∃ later, twin.toList = later.toList ∧
      Twin ⟨blocks, '\n' :: (line.reverse ++ '/' :: '/' :: before), rest, .code, false⟩ later := by
  obtain ⟨blocks', before', rest', mode', flag'⟩ := twin
  obtain ⟨sameBlocks, sameRest, sameMode, -, offset, -⟩ := twins
  simp only [Scanner.offset] at sameBlocks sameRest sameMode offset
  subst sameBlocks sameRest sameMode
  let read : Text := List.replicate (Text.bytes (marked (withoutReturn line))) ' ' ++ lineEnd line
  have plain : ∀ c ∈ read, isPlain c = true := by
    intro c member
    rcases List.mem_append.1 member with space | break_
    · exact isPlain_of_isBlank (isBlank_of_mem_spaces space).1
    · exact isPlain_of_mem_lineEnd break_
  have broken : read.foldl hasCodeAfter flag' = false := by
    rw [List.foldl_append, foldl_hasCodeAfter_lineEnd]
  refine ⟨⟨blocks', read.reverse ++ before', overwritten
    ⟨blocks', '\n' :: (line.reverse ++ '/' :: '/' :: before), rest, .code, false⟩, .code, false⟩,
    ?_, rfl, rfl, rfl, rfl, ?_, ?_⟩
  · rw [overwritten_line whole, ← List.append_assoc, toList_plain plain, broken]
  · rw [offset_behindLine]
    simp only [Scanner.offset, read, Text.bytes_append, Text.bytes_reverse, bytes_spaces, offset]
    omega
  · obtain ⟨start, ends⟩ := exists_lineEnd line
    simp only [read, ends, List.reverse_append, List.reverse_singleton, List.cons_append,
      List.nil_append, List.append_assoc, nameRun]
    rfl

/-- **The twin finds the block comments and nothing else.** -/
theorem toList (scanner : Scanner) (outside : scanner.mode.isLine = false) :
    ∀ twin, Twin scanner twin → twin.toList = scanner.toList.filter (·.kind == .block) := by
  induction scanner, outside using induct_steps with
  | ended scanner outside ended =>
      intro twin twins
      have twinEnded : twin.rest = [] := twins.rest.trans (overwritten_nil outside ended)
      rw [toList_nil outside ended, toList_nil (twins.mode ▸ outside) twinEnded]
      rfl
  | step scanner c rest outside ahead stays ih =>
      intro twin twins
      obtain ⟨rest', ahead', reaction, later⟩ := twins.after outside ahead stays
      rw [toList_step ahead, toList_step ahead', reaction, ih _ later, List.filter_append]
      congr 1
      cases found : (scanner.react c rest).found with
      | none => rfl
      | some comment => simp [(kind_of_found outside found).1]
  | line blocks before line rest flag whole ih =>
      intro twin twins
      obtain ⟨later, same, behind⟩ := twins.behindLine whole
      rw [same, ih later behind, toList_line whole]
      rfl
  | lastLine blocks before line flag whole =>
      intro twin twins
      obtain ⟨blocks', before', rest', mode', flag'⟩ := twin
      obtain ⟨-, sameRest, sameMode, -, -, -⟩ := twins
      simp only at sameRest sameMode
      subst sameRest sameMode
      have plain : ∀ c ∈ List.replicate (Text.bytes (marked line)) ' ', isPlain c = true :=
        fun c member => isPlain_of_isBlank (isBlank_of_mem_spaces member).1
      have read : (⟨blocks', before', List.replicate (Text.bytes (marked line)) ' ' ++ [], .code,
          flag'⟩ : Scanner).toList = [] :=
        (toList_plain plain before' flag').trans (toList_nil rfl rfl)
      rw [List.append_nil] at read
      rw [overwritten_lastLine whole, read, toList_lastLine whole]
      rfl

end Twin

end Scanner

/-- The comments of the blanked text are the block comments of the text. -/
theorem allComments_blankLineComments (source : Text) :
    allComments (blankLineComments source) =
      (allComments source).filter (·.kind == .block) := by
  have twins : Scanner.Twin (Scanner.ofText true source)
      (Scanner.ofText true (blankLineComments source)) :=
    ⟨rfl, blankLineComments_eq_overwritten source, rfl, rfl, rfl, rfl⟩
  exact twins.toList _ rfl

theorem lineComments_blankLineComments (source : Text) :
    lineComments (blankLineComments source) = [] := by
  have comments := allComments_blankLineComments source
  rw [lineComments_eq_lines, Scanner.lines]
  apply List.filter_eq_nil_iff.2
  intro comment member
  have found : comment ∈ allComments (blankLineComments source) := member
  rw [comments] at found
  have block := (List.mem_filter.1 found).2
  rw [beq_iff_eq] at block ⊢
  rw [block]
  exact CommentKind.noConfusion

theorem blankLineComments_of_no_lineComments {source : Text} (none : lineComments source = []) :
    blankLineComments source = source := by
  rw [blankLineComments, none]
  rfl

/-- **Blanking removes the line comments and changes nothing else.** The blanked text has spaces in
the place of the line comments and is the text everywhere else, its comments are the block comments
of the text, and it is read as the same stylesheet. -/
theorem blankLineComments_removes_lines (source : Text) :
    Text.bytes (blankLineComments source) = Text.bytes source ∧
      (∀ index, (Text.utf8 (blankLineComments source))[index]? =
        if ∃ comment ∈ lineComments source,
            comment.span.start ≤ index ∧ index < comment.span.stop then some 0x20
        else (Text.utf8 source)[index]?) ∧
      allComments (blankLineComments source) = (allComments source).filter (·.kind == .block) ∧
      lineComments (blankLineComments source) = [] ∧
      blankLineComments (blankLineComments source) = blankLineComments source ∧
      Stylesheet.ofText (blankLineComments source) = Stylesheet.ofText source := by
  have bytes : Text.bytes (blankLineComments source) = Text.bytes source := by
    rw [blankLineComments_eq_overwritten, Scanner.bytes_overwritten _ rfl]
    rfl
  have overwrites : Overwrites 0 source (blankLineComments source)
      ((lineComments source).map (·.span)) := by
    rw [blankLineComments_eq_overwritten, lineComments_eq_lines]
    exact Scanner.overwrites_lines (Scanner.ofText true source) rfl
  have lines := lineComments_blankLineComments source
  have again := blankLineComments_of_no_lineComments lines
  refine ⟨bytes, ?_, allComments_blankLineComments source, lines, again, ?_⟩
  · intro index
    have held : (∃ span ∈ (lineComments source).map (·.span),
        span.start ≤ index ∧ index < span.stop) ↔
          ∃ comment ∈ lineComments source,
            comment.span.start ≤ index ∧ index < comment.span.stop := by
      constructor
      · rintro ⟨span, member, inside⟩
        obtain ⟨comment, found, rfl⟩ := List.mem_map.1 member
        exact ⟨comment, found, inside⟩
      · rintro ⟨comment, found, inside⟩
        exact ⟨comment.span, List.mem_map_of_mem found, inside⟩
    have overwritten := overwrites index
    rw [Nat.zero_add] at overwritten
    simp only [overwritten, held]
  · rw [Stylesheet.ofText, Stylesheet.ofText, Outline.ofText, Outline.ofText, again, bytes]

end Comment

end ScssLint
