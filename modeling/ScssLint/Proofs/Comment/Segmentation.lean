import ScssLint.Proofs.Comment.Extent
import ScssLint.Proofs.Comment.Overwriting

/-! # The comments of a stylesheet are its comment segments

The scanner reads a stylesheet character by character and carries a mode along; the segments are
cut byte by byte, each one at once. Both find the same comments at the same places
(`Comment.toList_eq_segments`), and they agree on whether code was seen before them: a scanner that
reads ordinary text stands at the start of a segment, and it stands there again when the segment is
read (`Comment.Scanner.notes_eq_commentsFrom`).
-/

namespace ScssLint

namespace Comment

open Text

section Segments

variable {blocks seen : Bool} {before rest : Text} {c : Char}

theorem segmentsFrom_nil (before : List UInt8) : segmentsFrom before [] = [] := by
  rw [segmentsFrom]

/-- The kind and the place of a comment, and whether code stands before it on its line. -/
def note (comment : Comment) : (CommentKind × Span) × Bool :=
  (place comment, comment.inlineBefore)

/-- The comments among segments, each with whether the segments before it show code on its line;
`seen` says so of what stands before all segments. -/
def commentsAmong (blocks seen : Bool) : List Segment → List ((CommentKind × Span) × Bool)
  | [] => []
  | segment :: rest =>
      (segment.comment? blocks).toList.map (·, seen) ++
        commentsAmong blocks (segment.code.foldl seenAfter seen) rest

theorem map_fst_commentsAmong (blocks seen : Bool) (segments : List Segment) :
    (commentsAmong blocks seen segments).map Prod.fst =
      segments.filterMap (Segment.comment? blocks) := by
  induction segments generalizing seen with
  | nil => rfl
  | cons segment rest ih =>
      rw [commentsAmong, List.map_append, ih, List.filterMap_cons]
      cases segment.comment? blocks <;> rfl

/-- The comments among the segments that are still to come. -/
def commentsFrom (blocks seen : Bool) (before bytes : List UInt8) :
    List ((CommentKind × Span) × Bool) :=
  commentsAmong blocks seen (segmentsFrom before bytes)

theorem commentsFrom_nil (seen : Bool) (before : List UInt8) :
    commentsFrom blocks seen before [] = [] := by
  rw [commentsFrom, segmentsFrom_nil]
  rfl

theorem segmentAt_wide {b : UInt8} (wide : isWideByte b) (before rest : List UInt8) :
    segmentAt before b rest = (.plain, 0) := by
  have other {sign : Char} (ascii : isAscii sign = true) : b ≠ sign.toUInt8 :=
    ne_toUInt8_of_wide wide ascii
  rw [segmentAt, if_neg fun found => other rfl found.1, if_neg fun found => other rfl found.1,
    if_neg fun found => found.elim (other rfl) (other rfl), if_neg (other rfl),
    if_neg fun found => other rfl found.1]

/-- No comment starts inside a wide character. -/
theorem commentsFrom_wide {bytes : List UInt8} (wide : ∀ b ∈ bytes, isWideByte b)
    (before rest : List UInt8) (seen : Bool) :
    commentsFrom blocks seen before (bytes ++ rest) =
      commentsFrom blocks ((codeOf bytes (bytes.map fun _ => false)).foldl seenAfter seen)
        (bytes.reverse ++ before) rest := by
  induction bytes generalizing before seen with
  | nil => rfl
  | cons b bytes ih =>
      rw [List.cons_append, commentsFrom, segmentsFrom,
        segmentAt_wide (wide b List.mem_cons_self)]
      simp only [List.take_zero, List.drop_zero, List.reverse_nil, List.nil_append]
      rw [commentsAmong, ← commentsFrom,
        ih fun d member => wide d (List.mem_cons_of_mem b member), List.reverse_cons,
        List.append_assoc, List.singleton_append]
      rfl

/-- A segment that starts with an ASCII character and ends behind a whole one. -/
theorem commentsFrom_cons (ascii : isAscii c = true) {part tail : Text} {kind : SegmentKind}
    (cut : rest = part ++ tail)
    (found : segmentAt (utf8Before before) c.toUInt8 (utf8 rest) = (kind, bytes part)) :
    commentsFrom blocks seen (utf8Before before) (utf8 (c :: rest)) =
      (Segment.comment? blocks ⟨kind, bytes before, utf8 (c :: part)⟩).toList.map (·, seen) ++
        commentsFrom blocks
          ((Segment.code ⟨kind, bytes before, utf8 (c :: part)⟩).foldl seenAfter seen)
          (utf8Before ((c :: part).reverse ++ before)) (utf8 tail) := by
  subst cut
  have taken : (utf8 (part ++ tail)).take (bytes part) = utf8 part := by
    rw [utf8_append, ← length_utf8, List.take_left]
  have left : (utf8 (part ++ tail)).drop (bytes part) = utf8 tail := by
    rw [utf8_append, ← length_utf8, List.drop_left]
  have segment : segmentsFrom (utf8Before before) (utf8 (c :: (part ++ tail))) =
      ⟨kind, bytes before, utf8 (c :: part)⟩ ::
        segmentsFrom (utf8Before ((c :: part).reverse ++ before)) (utf8 tail) := by
    rw [utf8_cons_of_ascii ascii, segmentsFrom]
    simp only [found, taken, left]
    rw [utf8Before_append, utf8_cons_of_ascii ascii, length_utf8Before, List.reverse_cons,
      List.append_assoc, List.singleton_append]
  rw [commentsFrom, segment]
  rfl

/-- An ASCII character starts the segment that its byte starts. -/
theorem segmentAt_utf8 (ascii : isAscii c = true) (before rest : Text) :
    segmentAt (utf8Before before) c.toUInt8 (utf8 rest) =
      if c = '/' ∧ rest.head? = some '/' then
        let line := (utf8 rest).takeWhile (· ≠ '\n'.toUInt8)
        (.lineComment (line.length < (utf8 rest).length), line.length)
      else if c = '/' ∧ rest.head? = some '*' then
        (throughCloser? ((utf8 rest).drop 1)).elim (.blockComment false, (utf8 rest).length)
          fun length => (.blockComment true, 1 + length)
      else if c = '"' ∨ c = '\'' then
        (.string, throughString c.toUInt8 false (utf8 rest))
      else if c = '\\' then
        (.escape, if rest = [] ∨ rest.head? = some '\n' then 0 else 1)
      else if c = '(' ∧ endsInUrl before ∧ ¬ opensQuoted rest then
        (.urlArgument, through ')'.toUInt8 (utf8 rest))
      else
        (.plain, 0) := by
  have ended : (utf8 rest).head? = none ↔ rest = [] := by
    rw [List.head?_eq_none_iff, ← List.length_eq_zero_iff, length_utf8]
    cases rest with
    | nil => simp
    | cons d rest =>
        have positive := d.utf8Size_pos
        simp only [bytes_cons, List.cons_ne_nil, iff_false]
        omega
  simp (disch := decide) only [segmentAt, toUInt8_inj ascii, head?_utf8, ended,
    namesUrl_utf8Before, quoteAhead_utf8]
  cases throughCloser? ((utf8 rest).drop 1) <;> rfl

/-- A line ends at the same place in its bytes. -/
theorem takeWhile_utf8_newline {line : Text} (whole : '\n' ∉ line) (rest : Text) :
    (utf8 (line ++ '\n' :: rest)).takeWhile (· ≠ '\n'.toUInt8) = utf8 line := by
  rw [utf8_append, takeWhile_utf8 whole, utf8_cons_of_ascii (c := '\n') rfl,
    List.takeWhile_cons_of_neg (by simp), List.append_nil]

theorem getLast?_utf8 {sign : Char} (ascii : isAscii sign = true) (text : Text) :
    (utf8 text).getLast? = some sign.toUInt8 ↔ text.getLast? = some sign := by
  rcases List.eq_nil_or_concat text with rfl | ⟨init, c, same⟩
  · simp
  · rw [same, List.concat_eq_append, utf8_append, List.getLast?_concat, Option.some.injEq]
    rcases utf8EncodeChar_cases c with ⟨narrow, single⟩ | ⟨notAscii, wide⟩
    · rw [utf8_cons, single, utf8_nil, List.append_nil, List.getLast?_concat, Option.some.injEq,
        toUInt8_inj narrow ascii]
    · constructor
      · intro last
        obtain ⟨start, b, encoded⟩ := (List.eq_nil_or_concat (String.utf8EncodeChar c)).resolve_left
          String.utf8EncodeChar_ne_nil
        rw [utf8_cons, utf8_nil, List.append_nil, encoded, List.concat_eq_append,
          ← List.append_assoc, List.getLast?_concat, Option.some.injEq] at last
        have final : isWideByte b := wide b (by simp [encoded])
        exact absurd last (ne_toUInt8_of_wide final ascii)
      · rintro rfl
        rw [ascii] at notAscii
        exact Bool.noConfusion notAscii

/-- Behind an escape, code was seen. -/
theorem commentsFrom_escape (inLine : c ≠ '\n') (before rest : Text) :
    commentsFrom blocks seen (utf8Before before) (utf8 ('\\' :: c :: rest)) =
      commentsFrom blocks true (utf8Before (c :: '\\' :: before)) (utf8 rest) := by
  obtain ⟨b, bytes, encoded, wide⟩ := exists_utf8EncodeChar c
  have found := segmentAt_utf8 (c := '\\') rfl before (c :: rest)
  rw [if_neg (by simp), if_neg (by simp), if_neg (by simp), if_pos rfl,
    if_neg (by simpa using inLine), utf8_cons, encoded, List.cons_append] at found
  rw [commentsFrom, utf8_cons_of_ascii rfl, utf8_cons, encoded, List.cons_append, segmentsFrom]
  simp only [found, List.take_succ_cons, List.take_zero, List.drop_succ_cons, List.drop_zero]
  have shown (start : Nat) :
      (Segment.code ⟨.escape, start, ['\\'.toUInt8, b]⟩).foldl seenAfter seen = true := by
    have other : b ≠ '\n'.toUInt8 :=
      ne_newline_of_utf8EncodeChar inLine (encoded ▸ List.mem_cons_self)
    have first : seenAfter seen ('\\'.toUInt8, true) = true := Bool.or_true seen
    exact (congrArg (seenAfter · _) first).trans (seenAfter_of_ne other _)
  rw [commentsAmong, shown, ← commentsFrom, commentsFrom_wide wide, foldl_seenAfter_wide wide,
    Bool.true_or, utf8Before_cons, utf8Before_cons, utf8EncodeChar_of_ascii (c := '\\') rfl,
    encoded]
  simp only [List.reverse_cons, List.reverse_nil, List.nil_append, List.append_assoc,
    List.singleton_append]
  rfl

theorem commentsFrom_block {inside behind : Text} {length : Nat} (cut : rest = inside ++ behind)
    (closed : throughCloser? (utf8 rest) = some length) (extent : bytes inside = length)
    (before : Text) :
    commentsFrom blocks seen (utf8Before before) (utf8 ('/' :: '*' :: rest)) =
      (if blocks then [((.block, ⟨bytes before, bytes before + (2 + length)⟩), seen)] else []) ++
        commentsFrom blocks ((codeInComment inside).foldl seenAfter seen)
          (utf8Before (inside.reverse ++ '*' :: '/' :: before)) (utf8 behind) := by
  have found := segmentAt_utf8 (c := '/') rfl before ('*' :: rest)
  rw [if_neg (by simp), if_pos ⟨rfl, rfl⟩, utf8_cons_of_ascii (c := '*') rfl, List.drop_one,
    List.tail_cons, ← utf8_cons_of_ascii (c := '*') rfl] at found
  simp only [closed, Option.elim_some] at found
  have whole : '*' :: rest = ('*' :: inside) ++ behind := congrArg _ cut
  have length' : 1 + length = bytes ('*' :: inside) := by
    rw [← extent]
    rfl
  have total : (utf8 ('/' :: '*' :: inside)).length = 2 + length := by
    have slash : '/'.utf8Size = 1 := rfl
    rw [length_utf8, bytes_cons, ← length']
    omega
  have comment : (Segment.comment? blocks
      ⟨.blockComment true, bytes before, utf8 ('/' :: '*' :: inside)⟩).toList.map (·, seen) =
        if blocks then [((.block, ⟨bytes before, bytes before + (2 + length)⟩), seen)] else [] := by
    cases blocks <;> simp [Segment.comment?, Segment.commentLength, total]
  have shown : (Segment.code
      ⟨.blockComment true, bytes before, utf8 ('/' :: '*' :: inside)⟩).foldl seenAfter seen =
        (codeInComment inside).foldl seenAfter seen := by
    change (codeInComment ('/' :: '*' :: inside)).foldl seenAfter seen = _
    rw [codeInComment_cons, codeInComment_cons]
    rfl
  rw [commentsFrom_cons rfl whole (length' ▸ found), comment, shown, List.reverse_cons,
    List.reverse_cons, List.append_assoc, List.append_assoc]
  rfl

theorem commentsFrom_openBlock (unclosed : throughCloser? (utf8 rest) = none) (before : Text) :
    commentsFrom blocks seen (utf8Before before) (utf8 ('/' :: '*' :: rest)) = [] := by
  have found := segmentAt_utf8 (c := '/') rfl before ('*' :: rest)
  rw [if_neg (by simp), if_pos ⟨rfl, rfl⟩, utf8_cons_of_ascii (c := '*') rfl, List.drop_one,
    List.tail_cons, ← utf8_cons_of_ascii (c := '*') rfl, length_utf8] at found
  simp only [unclosed, Option.elim_none] at found
  rw [commentsFrom_cons rfl (List.append_nil _).symm found, utf8_nil, commentsFrom_nil]
  rfl

/-- A carriage return in front of the line break is left out. -/
theorem commentLength_line (start : Nat) (line : Text) :
    Segment.commentLength ⟨.lineComment true, start, utf8 (marked line)⟩ =
      bytes (marked (withoutReturn line)) := by
  have return_iff : (utf8 (marked line)).getLast? = some '\r'.toUInt8 ↔
      line.getLast? = some '\r' := by
    rw [getLast?_utf8 rfl, marked]
    cases line with
    | nil => simp
    | cons c line => simp
  simp only [Segment.commentLength, true_and, return_iff, withoutReturn, length_utf8]
  by_cases last : line.getLast? = some '\r'
  · obtain ⟨front, rfl⟩ := List.getLast?_eq_some_iff.1 last
    have one : '\r'.utf8Size = 1 := rfl
    rw [if_pos last, if_pos last, List.dropLast_concat, bytes_marked, bytes_marked, bytes_append,
      bytes_cons, bytes_nil]
    omega
  · rw [if_neg last, if_neg last]

theorem commentsFrom_lastLine {line : Text} (whole : '\n' ∉ line) (before : Text) :
    commentsFrom blocks seen (utf8Before before) (utf8 ('/' :: '/' :: line)) =
      [note (ofLine (bytes before) seen line)] := by
  have found := segmentAt_utf8 (c := '/') rfl before ('/' :: line)
  have taken : (utf8 ('/' :: line)).takeWhile (· ≠ '\n'.toUInt8) = utf8 ('/' :: line) := by
    have whole' : '\n' ∉ '/' :: line := by simpa using whole
    have cut := takeWhile_utf8 whole' []
    rwa [List.append_nil, List.takeWhile_nil, List.append_nil] at cut
  rw [if_pos ⟨rfl, rfl⟩] at found
  simp only [taken, length_utf8, Nat.lt_irrefl, decide_false] at found
  rw [commentsFrom_cons rfl (List.append_nil _).symm found, utf8_nil, commentsFrom_nil]
  have comment : Segment.comment? blocks
      ⟨.lineComment false, bytes before, utf8 (marked line)⟩ =
        some (place (ofLine (bytes before) seen line)) := by
    rw [place, span_ofLine, ← length_utf8]
    simp [Segment.comment?, Segment.commentLength, ofLine]
  rw [← marked, comment]
  rfl

/-- Behind a line comment a new line starts, without code. -/
theorem commentsFrom_line {line : Text} (whole : '\n' ∉ line) (before rest : Text) :
    commentsFrom blocks seen (utf8Before before) (utf8 ('/' :: '/' :: (line ++ '\n' :: rest))) =
      note (ofLine (bytes before) seen (withoutReturn line)) ::
        commentsFrom blocks false (utf8Before ('\n' :: (line.reverse ++ '/' :: '/' :: before)))
          (utf8 rest) := by
  have found := segmentAt_utf8 (c := '/') rfl before (('/' :: line) ++ '\n' :: rest)
  have taken : (utf8 (('/' :: line) ++ '\n' :: rest)).takeWhile (· ≠ '\n'.toUInt8) =
      utf8 ('/' :: line) :=
    takeWhile_utf8_newline (by simpa using whole) rest
  have shorter : bytes ('/' :: line) < bytes (('/' :: line) ++ '\n' :: rest) := by
    have one : '\n'.utf8Size = 1 := rfl
    rw [bytes_append, bytes_cons '\n']
    omega
  rw [if_pos ⟨rfl, rfl⟩] at found
  simp only [taken, length_utf8, shorter, decide_true] at found
  have ended := segmentAt_utf8 (c := '\n') rfl ((marked line).reverse ++ before) rest
  rw [if_neg (by simp), if_neg (by simp), if_neg (by simp), if_neg (by simp),
    if_neg (by simp)] at ended
  have comment : Segment.comment? blocks
      ⟨.lineComment true, bytes before, utf8 (marked line)⟩ =
        some (place (ofLine (bytes before) seen (withoutReturn line))) := by
    rw [place, span_ofLine, Segment.comment?]
    simp only [commentLength_line, ofLine]
  rw [← List.cons_append, commentsFrom_cons rfl rfl found, ← marked, comment,
    commentsFrom_cons rfl (List.nil_append rest).symm ended]
  simp only [marked, List.reverse_cons, List.append_assoc]
  rfl

end Segments

namespace Scanner

/-- Whether scanner and segments find the same comments in all texts shorter than `count`. -/
def AgreesBelow (blocks : Bool) (count : Nat) : Prop :=
  ∀ (rest before : Text) (flag : Bool), rest.length < count →
    (⟨blocks, before, rest, .code, flag⟩ : Scanner).toList.map note =
      commentsFrom blocks flag (utf8Before before) (utf8 rest)

section Agreement

variable {blocks : Bool} {c : Char} {rest : Text} (before : Text) (flag : Bool)

/-- A segment without a comment of its own. -/
theorem agrees_silent (agrees : AgreesBelow blocks (c :: rest).length) (ascii : isAscii c = true)
    {part tail : Text} {kind : SegmentKind} (later : Bool) (cut : rest = part ++ tail)
    (found : segmentAt (utf8Before before) c.toUInt8 (utf8 rest) = (kind, bytes part))
    (silent : Segment.comment? blocks ⟨kind, bytes before, utf8 (c :: part)⟩ = none)
    (shown : (Segment.code ⟨kind, bytes before, utf8 (c :: part)⟩).foldl seenAfter flag = later)
    (read : (⟨blocks, before, c :: rest, .code, flag⟩ : Scanner).toList =
      (⟨blocks, (c :: part).reverse ++ before, tail, .code, later⟩ : Scanner).toList) :
    (⟨blocks, before, c :: rest, .code, flag⟩ : Scanner).toList.map note =
      commentsFrom blocks flag (utf8Before before) (utf8 (c :: rest)) := by
  have shorter : tail.length < (c :: rest).length := by
    rw [cut, List.length_cons, List.length_append]
    omega
  rw [read, commentsFrom_cons ascii cut found, silent, shown]
  exact agrees tail _ later shorter

theorem agrees_line (agrees : AgreesBelow blocks ('/' :: '/' :: rest).length) :
    (⟨blocks, before, '/' :: '/' :: rest, .code, flag⟩ : Scanner).toList.map note =
      commentsFrom blocks flag (utf8Before before) (utf8 ('/' :: '/' :: rest)) := by
  obtain ⟨line, whole, rfl | ⟨behind, rfl⟩⟩ := exists_line rest
  · rw [toList_lastLine whole, commentsFrom_lastLine whole before]
    rfl
  · rw [toList_line whole, List.map_cons, commentsFrom_line whole before behind]
    refine congrArg _ (agrees behind _ false ?_)
    simp only [List.length_cons, List.length_append]
    omega

theorem agrees_block (agrees : AgreesBelow blocks ('/' :: '*' :: rest).length) :
    (⟨blocks, before, '/' :: '*' :: rest, .code, flag⟩ : Scanner).toList.map note =
      commentsFrom blocks flag (utf8Before before) (utf8 ('/' :: '*' :: rest)) := by
  rw [toList_opensBlock]
  cases closed : throughCloser? (utf8 rest) with
  | none => rw [toList_openBlock closed, commentsFrom_openBlock closed, List.map_nil]
  | some length =>
      obtain ⟨inside, behind, whole, rfl, extent, total, read⟩ :=
        @toList_block blocks _ _ closed (bytes before) flag [] ('*' :: '/' :: before) flag
      have shorter : behind.length < ('/' :: '*' :: (inside ++ behind)).length := by
        simp only [List.length_cons, List.length_append]
        omega
      have found : (if blocks then [ofBlock (bytes before) flag whole behind] else []).map note =
          if blocks then [((.block, ⟨bytes before, bytes before + (2 + length)⟩), flag)]
          else [] := by
        have stop : bytes before + 2 + bytes whole + 2 = bytes before + (2 + length) := by
          rw [bytes_nil] at total
          omega
        cases blocks with
        | false => rfl
        | true => simp [note, place, ofBlock, stop]
      rw [read, commentsFrom_block rfl closed extent, List.map_append, found]
      exact congrArg _ (agrees behind _ _ shorter)

theorem agrees_string (agrees : AgreesBelow blocks (c :: rest).length) (ascii : isAscii c = true)
    (opens : c = '"' ∨ c = '\'')
    (extent : segmentAt (utf8Before before) c.toUInt8 (utf8 rest) =
      (.string, throughString c.toUInt8 false (utf8 rest))) :
    (⟨blocks, before, c :: rest, .code, flag⟩ : Scanner).toList.map note =
      commentsFrom blocks flag (utf8Before before) (utf8 (c :: rest)) := by
  obtain ⟨inside, behind, cut, length, read⟩ := toList_quoted opens rest (c :: before) true
  apply agrees_silent before flag agrees ascii _ cut (length ▸ extent) rfl
    (foldl_code_string opens (bytes before) inside flag)
  rw [toList_opensString opens, read, List.reverse_cons, List.append_assoc]
  rfl

theorem agrees_escape (agrees : AgreesBelow blocks ('\\' :: rest).length)
    (extent : segmentAt (utf8Before before) '\\'.toUInt8 (utf8 rest) =
      (.escape, if rest = [] ∨ rest.head? = some '\n' then 0 else 1)) :
    (⟨blocks, before, '\\' :: rest, .code, flag⟩ : Scanner).toList.map note =
      commentsFrom blocks flag (utf8Before before) (utf8 ('\\' :: rest)) := by
  by_cases alone : rest = [] ∨ rest.head? = some '\n'
  · rw [if_pos alone] at extent
    have ended : ∀ d ∈ rest.head?, d = '\n' := by
      intro d first
      rcases alone with rfl | second
      · exact absurd first (Option.not_mem_none d)
      · exact Option.some.inj (first.symm.trans second)
    exact agrees_silent before flag agrees rfl true (List.nil_append rest).symm extent rfl
      (Bool.or_true flag) (toList_backslash ended)
  · obtain ⟨d, tail, rfl⟩ := List.exists_cons_of_ne_nil fun same => alone (.inl same)
    have inLine : d ≠ '\n' := fun same => alone (.inr (congrArg some same))
    have shorter : tail.length < ('\\' :: d :: tail).length := by
      simp only [List.length_cons]
      omega
    rw [toList_escape inLine, commentsFrom_escape inLine]
    exact agrees tail _ true shorter

theorem agrees_url (agrees : AgreesBelow blocks ('(' :: rest).length)
    (named : endsInUrl before = true) (unquoted : opensQuoted rest = false)
    (extent : segmentAt (utf8Before before) '('.toUInt8 (utf8 rest) =
      (.urlArgument, through ')'.toUInt8 (utf8 rest))) :
    (⟨blocks, before, '(' :: rest, .code, flag⟩ : Scanner).toList.map note =
      commentsFrom blocks flag (utf8Before before) (utf8 ('(' :: rest)) := by
  obtain ⟨inside, behind, cut, length, read⟩ := toList_url rest ('(' :: before) true
  apply agrees_silent before flag agrees rfl _ cut (length ▸ extent) rfl
    (foldl_code_url (bytes before) inside flag)
  rw [toList_opensUrl named unquoted, read, List.reverse_cons, List.append_assoc]
  rfl

/-- A character that is a segment by itself. -/
theorem agrees_single (agrees : AgreesBelow blocks (c :: rest).length) (ascii : isAscii c = true)
    (noLine : ¬ (c = '/' ∧ rest.head? = some '/')) (noBlock : ¬ (c = '/' ∧ rest.head? = some '*'))
    (noString : ¬ (c = '"' ∨ c = '\'')) (noEscape : c ≠ '\\')
    (noUrl : ¬ (c = '(' ∧ endsInUrl before ∧ ¬ opensQuoted rest))
    (extent : segmentAt (utf8Before before) c.toUInt8 (utf8 rest) = (.plain, 0)) :
    (⟨blocks, before, c :: rest, .code, flag⟩ : Scanner).toList.map note =
      commentsFrom blocks flag (utf8Before before) (utf8 (c :: rest)) := by
  have shown := foldl_code_plain ascii (bytes before) flag
  have onwards (read : (⟨blocks, before, c :: rest, .code, flag⟩ : Scanner).toList =
      (⟨blocks, c :: before, rest, .code, hasCodeAfter flag c⟩ : Scanner).toList) :=
    agrees_silent before flag agrees ascii _ (List.nil_append rest).symm extent rfl shown read
  have counts : hasCodeAfter flag '/' = true ∧ hasCodeAfter flag '(' = true :=
    ⟨Bool.or_true flag, Bool.or_true flag⟩
  by_cases isSlash : c = '/'
  · subst isSlash
    apply onwards
    rw [counts.1]
    exact toList_slash (fun second => noLine ⟨rfl, second⟩) fun second => noBlock ⟨rfl, second⟩
  by_cases isParen : c = '('
  · subst isParen
    apply onwards
    rw [counts.2]
    apply toList_paren
    rw [Bool.and_eq_false_imp]
    intro named
    cases quoted : opensQuoted rest with
    | true => rfl
    | false => exact absurd ⟨rfl, named, by simp [quoted]⟩ noUrl
  · have plain : isPlain c = true := by
      simp only [not_or] at noString
      simp [isPlain, isSlash, isParen, noEscape, noString]
    exact onwards (toList_plainChar plain)

/-- A character outside ASCII is as many plain segments as it has bytes. -/
theorem agrees_wide (agrees : AgreesBelow blocks (c :: rest).length) (wide : isAscii c = false) :
    (⟨blocks, before, c :: rest, .code, flag⟩ : Scanner).toList.map note =
      commentsFrom blocks flag (utf8Before before) (utf8 (c :: rest)) := by
  rcases utf8EncodeChar_cases c with ⟨narrow, _⟩ | ⟨_, wideBytes⟩
  · rw [wide] at narrow
    exact Bool.noConfusion narrow
  · rw [toList_plainChar (isPlain_of_wide wide), utf8_cons, commentsFrom_wide wideBytes,
      foldl_seenAfter_char, ← utf8Before_cons]
    exact agrees rest (c :: before) _ (Nat.lt_succ_self _)

end Agreement

/-- **Scanner and segments find the same comments**, and they agree on the code before them. -/
theorem notes_eq_commentsFrom {blocks : Bool} (rest before : Text) (flag : Bool) :
    (⟨blocks, before, rest, .code, flag⟩ : Scanner).toList.map note =
      commentsFrom blocks flag (utf8Before before) (utf8 rest) := by
  induction left : rest.length using Nat.strongRecOn generalizing rest before flag with
  | _ count ih =>
      subst left
      have agrees : AgreesBelow blocks rest.length :=
        fun tail before' later shorter => ih _ shorter tail before' later rfl
      cases rest with
      | nil =>
          rw [toList_nil rfl rfl, utf8_nil, commentsFrom_nil]
          rfl
      | cons c rest =>
          cases ascii : isAscii c with
          | false => exact agrees_wide before flag agrees ascii
          | true =>
              have extent := segmentAt_utf8 ascii before rest
              by_cases opensLine : c = '/' ∧ rest.head? = some '/'
              · obtain ⟨rfl, second⟩ := opensLine
                obtain ⟨tail, rfl⟩ := List.head?_eq_some_iff.1 second
                exact agrees_line before flag agrees
              by_cases opensBlock : c = '/' ∧ rest.head? = some '*'
              · obtain ⟨rfl, second⟩ := opensBlock
                obtain ⟨tail, rfl⟩ := List.head?_eq_some_iff.1 second
                exact agrees_block before flag agrees
              rw [if_neg opensLine, if_neg opensBlock] at extent
              by_cases opensString : c = '"' ∨ c = '\''
              · rw [if_pos opensString] at extent
                exact agrees_string before flag agrees ascii opensString extent
              rw [if_neg opensString] at extent
              by_cases escapes : c = '\\'
              · rw [if_pos escapes] at extent
                subst escapes
                exact agrees_escape before flag agrees extent
              rw [if_neg escapes] at extent
              by_cases opensUrl : c = '(' ∧ endsInUrl before ∧ ¬ opensQuoted rest
              · rw [if_pos opensUrl] at extent
                obtain ⟨rfl, named, unquoted⟩ := opensUrl
                exact agrees_url before flag agrees named (Bool.not_eq_true _ ▸ unquoted) extent
              · rw [if_neg opensUrl] at extent
                exact agrees_single before flag agrees ascii opensLine opensBlock opensString
                  escapes opensUrl extent

theorem places_eq_commentsFrom {blocks : Bool} (rest before : Text) (flag : Bool) :
    (⟨blocks, before, rest, .code, flag⟩ : Scanner).toList.map place =
      (segmentsFrom (utf8Before before) (utf8 rest)).filterMap (Segment.comment? blocks) := by
  have same := congrArg (List.map Prod.fst) (@notes_eq_commentsFrom blocks rest before flag)
  rwa [List.map_map, commentsFrom, map_fst_commentsAmong] at same

end Scanner

/-- **The scanner finds exactly the comment segments.** Its line comments are the line comment
segments, in order, with block comments or without; its block comments are the closed block comment
segments, if they are asked for. The segments spell the stylesheet. -/
theorem toList_eq_segments (blocks : Bool) (source : Text) :
    (Scanner.ofText blocks source).toList.map place =
        (segments (utf8 source)).filterMap (Segment.comment? blocks) ∧
      (segments (utf8 source)).flatMap (·.bytes) = utf8 source :=
  ⟨Scanner.places_eq_commentsFrom source [] false, flatMap_bytes_segments (utf8 source)⟩

end Comment

end ScssLint
