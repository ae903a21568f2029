import ScssLint.Proofs.Comment.Steps
import ScssLint.Proofs.Text.Utf8

/-! # Overwriting what a scanner has not read yet

`Comment.Scanner.overwritten` is the text in front of a scanner with spaces in place of its line
comments. A step leaves what it reads as it is (`Comment.Scanner.overwritten_step`), a line comment
becomes spaces up to its line break (`Comment.Scanner.overwritten_line`), and no byte is added or
lost (`Comment.Scanner.bytes_overwritten`). Byte by byte, exactly the spans of the line comments are
overwritten (`Comment.Scanner.overwrites_lines`), and a place between two characters of the result is
one of the text as well, unless it lies within a row of spaces
(`Comment.isBoundary_of_blankLineComments`).
-/

namespace ScssLint

/-- Overwriting leaves a beginning of the text alone that lies in front of all spans. -/
theorem blankSpans_append {offset : Nat} {start : Text} {spans : List Span}
    (behind : ∀ span ∈ spans, offset + Text.bytes start ≤ span.start ∧ span.start ≤ span.stop)
    (rest : Text) :
    blankSpans offset (start ++ rest) spans =
      start ++ blankSpans (offset + Text.bytes start) rest spans := by
  cases spans with
  | nil => rfl
  | cons span spans =>
      obtain ⟨first, ordered⟩ := behind span List.mem_cons_self
      simp only [blankSpans]
      rw [Text.takeBytes_append (by omega), Text.dropBytes_append (by omega), Nat.sub_sub,
        Nat.sub_sub]
      simp only [List.append_assoc]

/-- A span at the start of the text is overwritten as a whole. -/
theorem blankSpans_cons (offset : Nat) (covered rest : Text) (spans : List Span) :
    blankSpans offset (covered ++ rest) (⟨offset, offset + Text.bytes covered⟩ :: spans) =
      List.replicate (Text.bytes covered) ' ' ++
        blankSpans (offset + Text.bytes covered) rest spans := by
  have length : offset + Text.bytes covered - offset = Text.bytes covered := by omega
  simp only [blankSpans, Span.length, Nat.sub_self, Text.takeBytes_zero, List.nil_append, length]
  rw [Text.dropBytes_append (Nat.le_refl _), Nat.sub_self, Text.dropBytes_zero]

/-- The second text is the first one, which starts at `offset`, with spaces in some spans. -/
def Overwrites (offset : Nat) (text blanked : Text) (spans : List Span) : Prop :=
  ∀ index, (Text.utf8 blanked)[index]? =
    if ∃ span ∈ spans, span.start ≤ offset + index ∧ offset + index < span.stop then some 0x20
    else (Text.utf8 text)[index]?

namespace Overwrites

variable {offset : Nat} {text blanked : Text} {spans : List Span}

theorem append {start : Text} (behind : ∀ span ∈ spans, offset + Text.bytes start ≤ span.start)
    (rest : Overwrites (offset + Text.bytes start) text blanked spans) :
    Overwrites offset (start ++ text) (start ++ blanked) spans := by
  intro index
  rw [Text.utf8_append, Text.utf8_append]
  by_cases early : index < Text.bytes start
  · have untouched :
        ¬ ∃ span ∈ spans, span.start ≤ offset + index ∧ offset + index < span.stop := by
      rintro ⟨span, member, started, _⟩
      have := behind span member
      omega
    rw [if_neg untouched, List.getElem?_append_left (by rwa [Text.length_utf8]),
      List.getElem?_append_left (by rwa [Text.length_utf8])]
  · have late : Text.bytes start ≤ index := Nat.le_of_not_lt early
    have same : offset + Text.bytes start + (index - Text.bytes start) = offset + index := by omega
    rw [List.getElem?_append_right (by rwa [Text.length_utf8]),
      List.getElem?_append_right (by rwa [Text.length_utf8]), Text.length_utf8,
      rest (index - Text.bytes start), same]

theorem utf8_spaces (count : Nat) :
    Text.utf8 (List.replicate count ' ') = List.replicate count 0x20 := by
  induction count with
  | zero => rfl
  | succ count ih =>
      rw [List.replicate_succ, Text.utf8_cons_of_ascii rfl, ih, List.replicate_succ]
      rfl

theorem cover {covered : Text}
    (rest : Overwrites (offset + Text.bytes covered) text blanked spans) :
    Overwrites offset (covered ++ text) (List.replicate (Text.bytes covered) ' ' ++ blanked)
      (⟨offset, offset + Text.bytes covered⟩ :: spans) := by
  intro index
  rw [Text.utf8_append, Text.utf8_append, utf8_spaces]
  by_cases early : index < Text.bytes covered
  · rw [if_pos ⟨_, List.mem_cons_self, Nat.le_add_right _ _, Nat.add_lt_add_left early _⟩,
      List.getElem?_append_left (by rwa [List.length_replicate]),
      List.getElem?_replicate_of_lt early]
  · have late : Text.bytes covered ≤ index := Nat.le_of_not_lt early
    have same : offset + Text.bytes covered + (index - Text.bytes covered) = offset + index := by
      omega
    have others : (∃ span ∈ (⟨offset, offset + Text.bytes covered⟩ : Span) :: spans,
        span.start ≤ offset + index ∧ offset + index < span.stop) ↔
          ∃ span ∈ spans, span.start ≤ offset + index ∧ offset + index < span.stop := by
      constructor
      · rintro ⟨span, member, inside⟩
        rcases List.mem_cons.1 member with rfl | member
        · simp only at inside
          omega
        · exact ⟨span, member, inside⟩
      · rintro ⟨span, member, inside⟩
        exact ⟨span, List.mem_cons_of_mem _ member, inside⟩
    rw [List.getElem?_append_right (by rwa [List.length_replicate]),
      List.getElem?_append_right (by rwa [Text.length_utf8]), Text.length_utf8,
      List.length_replicate, rest (index - Text.bytes covered), same]
    simp only [others]

theorem refl (offset : Nat) (text : Text) : Overwrites offset text text [] := by
  intro index
  simp only [List.not_mem_nil, false_and, exists_false, ↓reduceIte]

end Overwrites

namespace Comment

/-- Whether no row of spaces goes on behind a cut with two or more of them in front of it. -/
def IsCut (front behind : Text) : Prop :=
  [' ', ' '] <:+ front → behind.head? ≠ some ' '

theorem IsCut.of_append {start front behind : Text} (cut : IsCut (start ++ front) behind) :
    IsCut front behind :=
  fun spaces => cut (spaces.trans (List.suffix_append start front))

/-- A line comment with its marker. -/
def marked (body : Text) : Text :=
  '/' :: '/' :: body

/-- The line break behind a line comment, with the carriage return in front of the line feed. -/
def lineEnd (line : Text) : Text :=
  if line.getLast? = some '\r' then ['\r', '\n'] else ['\n']

theorem bytes_marked (body : Text) : Text.bytes (marked body) = 2 + Text.bytes body := by
  have slash : '/'.utf8Size = 1 := rfl
  simp only [marked, Text.bytes_cons]
  omega

theorem marked_append_lineEnd (line rest : Text) :
    marked (withoutReturn line) ++ (lineEnd line ++ rest) =
      '/' :: '/' :: (line ++ '\n' :: rest) := by
  unfold withoutReturn lineEnd
  split
  · rename_i last
    obtain ⟨start, rfl⟩ := List.getLast?_eq_some_iff.1 last
    simp only [marked, List.dropLast_concat, List.cons_append, List.append_assoc, List.nil_append]
  · rfl

theorem span_ofLine (start : Nat) (inlineBefore : Bool) (body : Text) :
    (ofLine start inlineBefore body).span = ⟨start, start + Text.bytes (marked body)⟩ := by
  rw [bytes_marked, ofLine, Nat.add_assoc]

namespace Scanner

variable {blocks flag : Bool} {before rest : Text}

/-- The text in front of the scanner with spaces in place of its line comments. -/
def overwritten (scanner : Scanner) : Text :=
  blankSpans scanner.offset scanner.rest (scanner.lines.map (·.span))

theorem overwritten_nil {scanner : Scanner} (outside : scanner.mode.isLine = false)
    (ended : scanner.rest = []) : scanner.overwritten = [] := by
  rw [overwritten, lines_nil outside ended, ended]
  rfl

/-- A scanner that has read `start` more. -/
theorem overwritten_append {scanner later : Scanner} {start : Text}
    (outside : later.mode.isLine = false) (ahead : scanner.rest = start ++ later.rest)
    (read : later.before = start.reverse ++ scanner.before) (same : scanner.lines = later.lines) :
    scanner.overwritten = start ++ later.overwritten := by
  have moved : later.offset = scanner.offset + Text.bytes start := by
    rw [offset, read, Text.bytes_append, Text.bytes_reverse, offset, Nat.add_comm]
  rw [overwritten, overwritten, ahead, same, moved, blankSpans_append]
  intro span member
  obtain ⟨comment, found, rfl⟩ := List.mem_map.1 member
  rw [← moved]
  exact offset_le_start later outside comment found

theorem overwritten_step {scanner : Scanner} {c : Char} {rest : Text}
    (outside : scanner.mode.isLine = false) (ahead : scanner.rest = c :: rest)
    (stays : (scanner.react c rest).mode.isLine = false) :
    scanner.overwritten = c :: rest.take (scanner.react c rest).more ++
      (scanner.after c rest (scanner.react c rest)).overwritten := by
  refine overwritten_append stays ?_ ?_ (lines_step outside ahead)
  · simp only [after, ahead, List.cons_append, List.take_append_drop]
  · simp only [after, List.reverse_cons, List.append_assoc, List.singleton_append]

/-- A scanner behind a line comment and its line break. -/
theorem offset_behindLine (line : Text) :
    (⟨blocks, '\n' :: (line.reverse ++ '/' :: '/' :: before), rest, .code, false⟩ :
      Scanner).offset =
      Text.bytes before + Text.bytes (marked (withoutReturn line)) + Text.bytes (lineEnd line) := by
  have lengths := congrArg Text.bytes (marked_append_lineEnd line [])
  simp only [Text.bytes_append, Text.bytes_cons, Text.bytes_nil] at lengths
  simp only [offset, Text.bytes_cons, Text.bytes_append, Text.bytes_reverse]
  omega

theorem offset_le_span (scanner : Scanner) (outside : scanner.mode.isLine = false) :
    ∀ span ∈ scanner.lines.map (·.span),
      scanner.offset ≤ span.start ∧ span.start ≤ span.stop := by
  intro span member
  obtain ⟨comment, found, rfl⟩ := List.mem_map.1 member
  exact offset_le_start scanner outside comment found

theorem overwritten_line {line : Text} (whole : '\n' ∉ line) :
    (⟨blocks, before, '/' :: '/' :: (line ++ '\n' :: rest), .code, flag⟩ : Scanner).overwritten =
      List.replicate (Text.bytes (marked (withoutReturn line))) ' ' ++ (lineEnd line ++
        (⟨blocks, '\n' :: (line.reverse ++ '/' :: '/' :: before), rest, .code, false⟩ :
          Scanner).overwritten) := by
  have behind := offset_le_span
    ⟨blocks, '\n' :: (line.reverse ++ '/' :: '/' :: before), rest, .code, false⟩ rfl
  rw [offset_behindLine] at behind
  rw [overwritten, lines_line whole, List.map_cons, span_ofLine, ← marked_append_lineEnd]
  simp only [offset]
  rw [blankSpans_cons, blankSpans_append behind, overwritten, offset_behindLine]

theorem overwritten_lastLine {line : Text} (whole : '\n' ∉ line) :
    (⟨blocks, before, '/' :: '/' :: line, .code, flag⟩ : Scanner).overwritten =
      List.replicate (Text.bytes (marked line)) ' ' := by
  have covered := blankSpans_cons (Text.bytes before) (marked line) [] []
  rw [List.append_nil, blankSpans, List.append_nil] at covered
  rw [overwritten, lines_lastLine whole, List.map_singleton, span_ofLine]
  exact covered

theorem bytes_spaces (count : Nat) : Text.bytes (List.replicate count ' ') = count := by
  induction count with
  | zero => rfl
  | succ count ih =>
      have space : ' '.utf8Size = 1 := rfl
      rw [List.replicate_succ, Text.bytes_cons, ih]
      omega

/-- Overwriting adds no byte and loses none. -/
theorem bytes_overwritten (scanner : Scanner) (outside : scanner.mode.isLine = false) :
    Text.bytes scanner.overwritten = Text.bytes scanner.rest := by
  induction scanner, outside using induct_steps with
  | ended scanner outside ended => rw [overwritten_nil outside ended, ended]
  | step scanner c rest outside ahead stays ih =>
      have cut := congrArg Text.bytes (List.take_append_drop (scanner.react c rest).more rest)
      rw [Text.bytes_append] at cut
      rw [overwritten_step outside ahead stays, ahead, List.cons_append, Text.bytes_cons,
        Text.bytes_append, ih, Text.bytes_cons, ← cut]
      rfl
  | line blocks before line rest flag whole ih =>
      have lengths := congrArg Text.bytes (marked_append_lineEnd line rest)
      rw [overwritten_line whole, ← lengths]
      simp only [Text.bytes_append, bytes_spaces, ih]
  | lastLine blocks before line flag whole =>
      rw [overwritten_lastLine whole, bytes_spaces]
      rfl

/-- A place of what a scanner overwrites is a place of the text if it is one behind a part that
stays as it is. -/
theorem isBoundary_behind {start rest left front behind : Text}
    (whole : start ++ left = front ++ behind) (cut : IsCut front behind)
    (inside : ∀ {front}, left = front ++ behind → IsCut front behind →
      Text.IsBoundary rest (Text.bytes front)) :
    Text.IsBoundary (start ++ rest) (Text.bytes front) := by
  rcases List.append_eq_append_iff.1 whole with ⟨front', rfl, later⟩ | ⟨between, rfl, _⟩
  · rw [Text.bytes_append]
    exact (inside later cut.of_append).behind start
  · rw [List.append_assoc]
    exact Text.isBoundary_append front _

/-- Within the spaces for a line comment there is at most the place behind the first slash. -/
theorem isBoundary_marked {body rest left front behind : Text}
    (whole : List.replicate (Text.bytes (marked body)) ' ' ++ left = front ++ behind)
    (cut : IsCut front behind)
    (inside : ∀ {front}, left = front ++ behind → IsCut front behind →
      Text.IsBoundary rest (Text.bytes front)) :
    Text.IsBoundary (marked body ++ rest) (Text.bytes front) := by
  rcases List.append_eq_append_iff.1 whole with ⟨front', rfl, later⟩ | ⟨between, spaces, later⟩
  · rw [Text.bytes_append, bytes_spaces]
    exact (inside later cut.of_append).behind (marked body)
  · obtain ⟨_, isFront, isBetween⟩ := List.replicate_eq_append_iff.1 spaces
    cases between with
    | nil =>
        rw [List.append_nil] at spaces
        rw [← spaces, bytes_spaces]
        exact Text.isBoundary_append (marked body) rest
    | cons c between =>
        have space : behind.head? = some ' ' := by
          rw [later, List.cons_append, List.head?_cons, (List.cons.inj isBetween).1]
        have noRow : ¬ [' ', ' '] <:+ front := fun row => cut row space
        obtain ⟨count, rfl⟩ : ∃ count, front = List.replicate count ' ' := ⟨_, isFront⟩
        rcases count with _ | _ | count
        · exact Text.isBoundary_append [] (marked body ++ rest)
        · exact Text.isBoundary_append ['/'] ('/' :: body ++ rest)
        · refine absurd ⟨List.replicate count ' ', ?_⟩ noRow
          exact List.replicate_append_replicate (a := ' ') (m := 2)

/-- **Where no row of spaces is cut in two, a place of the overwritten text is one of the text.** -/
theorem isBoundary_overwritten {scanner : Scanner} (outside : scanner.mode.isLine = false)
    {front behind : Text} (whole : scanner.overwritten = front ++ behind)
    (cut : IsCut front behind) : Text.IsBoundary scanner.rest (Text.bytes front) := by
  induction scanner, outside using induct_steps generalizing front with
  | ended scanner outside ended =>
      rw [overwritten_nil outside ended] at whole
      obtain ⟨rfl, rfl⟩ := List.append_eq_nil_iff.1 whole.symm
      exact Text.isBoundary_append [] scanner.rest
  | step scanner c rest outside ahead stays ih =>
      have split : scanner.rest = c :: rest.take (scanner.react c rest).more ++
          (scanner.after c rest (scanner.react c rest)).rest := by
        simp only [after, ahead, List.cons_append, List.take_append_drop]
      rw [overwritten_step outside ahead stays] at whole
      rw [split]
      exact isBoundary_behind whole cut ih
  | line blocks before line rest flag whole' ih =>
      rw [overwritten_line whole'] at whole
      rw [← marked_append_lineEnd]
      exact isBoundary_marked whole cut fun later cut => isBoundary_behind later cut ih
  | lastLine blocks before line flag whole' =>
      rw [overwritten_lastLine whole', ← List.append_nil (List.replicate _ _)] at whole
      rw [show '/' :: '/' :: line = marked line ++ [] from (List.append_nil _).symm]
      refine isBoundary_marked whole cut fun later _ => ?_
      rw [(List.append_eq_nil_iff.1 later.symm).1]
      exact Text.isBoundary_append [] []

/-- **Exactly the line comments are overwritten.** -/
theorem overwrites_lines (scanner : Scanner) (outside : scanner.mode.isLine = false) :
    Overwrites scanner.offset scanner.rest scanner.overwritten (scanner.lines.map (·.span)) := by
  induction scanner, outside using induct_steps with
  | ended scanner outside ended =>
      rw [overwritten_nil outside ended, ended, lines_nil outside ended]
      exact Overwrites.refl _ _
  | step scanner c rest outside ahead stays ih =>
      have moved : (scanner.after c rest (scanner.react c rest)).offset =
          scanner.offset + Text.bytes (c :: rest.take (scanner.react c rest).more) := by
        simp only [after, offset, Text.bytes_append, Text.bytes_cons, Text.bytes_reverse]
        omega
      have cut : c :: rest = c :: rest.take (scanner.react c rest).more ++
          (scanner.after c rest (scanner.react c rest)).rest := by
        simp only [after, List.cons_append, List.take_append_drop]
      have behind := offset_le_span (scanner.after c rest (scanner.react c rest)) stays
      rw [moved] at behind ih
      rw [overwritten_step outside ahead stays, ahead, cut, lines_step outside ahead]
      exact Overwrites.append (fun span member => (behind span member).1) ih
  | line blocks before line rest flag whole ih =>
      have behind := offset_le_span
        ⟨blocks, '\n' :: (line.reverse ++ '/' :: '/' :: before), rest, .code, false⟩ rfl
      rw [offset_behindLine] at behind ih
      rw [overwritten_line whole, lines_line whole, List.map_cons, span_ofLine,
        ← marked_append_lineEnd]
      exact Overwrites.cover (Overwrites.append (fun span member => (behind span member).1) ih)
  | lastLine blocks before line flag whole =>
      have covered := (Overwrites.refl (Text.bytes before + Text.bytes (marked line)) []).cover
      rw [List.append_nil, List.append_nil] at covered
      rw [overwritten_lastLine whole, lines_lastLine whole, List.map_singleton, span_ofLine]
      exact covered

end Scanner

/-- Blanking a text overwrites what a scanner at its start has in front of it. -/
theorem blankLineComments_eq_overwritten (source : Text) :
    blankLineComments source = (Scanner.ofText true source).overwritten := by
  rw [blankLineComments, lineComments_eq_lines]
  rfl

/-- **A place of the blanked text that no row of spaces surrounds is a place of the text.** -/
theorem isBoundary_of_blankLineComments {source front behind : Text}
    (whole : blankLineComments source = front ++ behind) (cut : IsCut front behind) :
    Text.IsBoundary source (Text.bytes front) := by
  rw [blankLineComments_eq_overwritten] at whole
  have outside : (Scanner.ofText true source).mode.isLine = false := rfl
  exact Scanner.isBoundary_overwritten outside whole cut

theorem bytes_blankLineComments (source : Text) :
    Text.bytes (blankLineComments source) = Text.bytes source := by
  rw [blankLineComments_eq_overwritten, Scanner.bytes_overwritten _ rfl]
  rfl

end Comment

end ScssLint
