import ScssLint.Proofs.Comment.LineCode
import ScssLint.Proofs.Comment.Records

/-! # Code behind a comment

A block comment is reported as standing in front of code if the first character behind it that is no
white space is code on its line (`Comment.inlineAfter_iff`). That character starts a segment of its
own (`Comment.exists_segment_behind`), which is a comment or not. Code behind a further comment on
the line, or behind white space that is none of a stylesheet, is not seen
(`Comment.inlineAfter_ne_codeBehind`).
-/

namespace ScssLint

namespace Comment

open Text

/-- Whether a segment is a comment, closed or not. -/
def SegmentKind.isComment : SegmentKind → Bool
  | .lineComment _ | .blockComment _ => true
  | _ => false

/-- Whether the byte at `index` is code that stands behind a comment on its line. -/
structure IsCodeBehind (source : Text) (comment : Comment) (index : Nat) : Prop where
  behind : comment.span.stop ≤ index
  dark : ∃ b, (utf8 source)[index]? = some b ∧ isSpaceByte b = false
  sameLine : ∀ earlier, comment.span.stop ≤ earlier → earlier ≤ index →
    (utf8 source)[earlier]? ≠ some '\n'.toUInt8
  outside : ∀ later ∈ allComments source, ¬ (later.span.start ≤ index ∧ index < later.span.stop)
  /-- It is not in a block comment that the end of the text cuts off. -/
  closed : ∀ segment ∈ segments (utf8 source), segment.kind = .blockComment false →
    ¬ (segment.start ≤ index ∧ index < segment.start + segment.bytes.length)

/-- Whether the first character behind a comment that is no white space stands at `index`. -/
def IsFirstBehind (source : Text) (comment : Comment) (index : Nat) : Prop :=
  ∃ front blanks c behind, source = front ++ (blanks ++ c :: behind) ∧
    bytes front = comment.span.stop ∧ index = comment.span.stop + bytes blanks ∧
      (∀ d ∈ blanks, isBlank d = true) ∧ isBlank c = false

section Segments

variable {before bytes : List UInt8} {front behind : List Segment} {b : UInt8}
  {rest : List UInt8}

/-- The segments behind some of the segments are those of the bytes that are left. -/
theorem segmentsFrom_behind (cut : segmentsFrom before bytes = front ++ behind) :
    behind = segmentsFrom ((front.flatMap (·.bytes)).reverse ++ before)
      (behind.flatMap (·.bytes)) := by
  fun_induction segmentsFrom before bytes generalizing front with
  | case1 before =>
      obtain ⟨rfl, rfl⟩ := List.append_eq_nil_iff.1 cut.symm
      exact (segmentsFrom_nil _).symm
  | case2 before b rest kind more found ih =>
      cases front with
      | nil =>
          rw [List.nil_append] at cut
          rw [← cut, List.flatMap_cons, flatMap_bytes_segmentsFrom, List.cons_append,
            List.take_append_drop, List.flatMap_nil, List.reverse_nil, List.nil_append,
            segmentsFrom, found]
      | cons first front =>
          obtain ⟨rfl, later⟩ := List.cons.inj cut
          rw [ih later, flatMap_bytes_segmentsFrom, List.flatMap_cons, List.reverse_append,
            List.append_assoc, List.reverse_cons, List.append_assoc, List.singleton_append]

/-- Whether a segment starts with a byte of ordinary text whatever stands around it. -/
def IsPlainByte (b : UInt8) : Prop :=
  ∀ before rest, segmentAt before b rest = (.plain, 0)

/-- Bytes of ordinary text are segments of their own. -/
theorem exists_plain_segments {plain : List UInt8} (all : ∀ b ∈ plain, IsPlainByte b)
    (before bytes : List UInt8) :
    ∃ own, own.flatMap (·.bytes) = plain ∧
      segmentsFrom before (plain ++ bytes) = own ++ segmentsFrom (plain.reverse ++ before) bytes := by
  induction plain generalizing before with
  | nil => exact ⟨[], rfl, rfl⟩
  | cons b plain ih =>
      obtain ⟨own, spelled, same⟩ :=
        ih (fun d member => all d (List.mem_cons_of_mem b member)) (b :: before)
      refine ⟨⟨.plain, before.length, [b]⟩ :: own, ?_, ?_⟩
      · rw [List.flatMap_cons, spelled]
        rfl
      · rw [List.cons_append, segmentsFrom, all b List.mem_cons_self]
        simp only [List.take_zero, List.drop_zero, List.reverse_nil, List.nil_append]
        rw [same, List.reverse_cons, List.append_assoc, List.singleton_append, List.cons_append]

/-- No byte of a character is an ASCII character, unless the character is that one. -/
theorem ne_toUInt8_of_mem_utf8EncodeChar {c sign : Char} (ascii : isAscii sign = true)
    (other : c ≠ sign) (member : b ∈ String.utf8EncodeChar c) : b ≠ sign.toUInt8 := by
  rcases utf8EncodeChar_cases c with ⟨narrow, single⟩ | ⟨_, wide⟩
  · rw [single, List.mem_singleton] at member
    subst member
    exact fun same => other ((toUInt8_inj narrow ascii).1 same)
  · exact ne_toUInt8_of_wide (wide b member) ascii

/-- White space is ordinary text. -/
theorem isPlainByte_of_isBlank {c : Char} (blank : isBlank c = true)
    (member : b ∈ String.utf8EncodeChar c) : IsPlainByte b := by
  have other (sign : Char) (ascii : isAscii sign = true) (dark : isBlank sign = false) :
      b ≠ sign.toUInt8 := by
    refine ne_toUInt8_of_mem_utf8EncodeChar ascii ?_ member
    rintro rfl
    rw [blank] at dark
    exact Bool.noConfusion dark
  intro before rest
  rw [segmentAt, if_neg fun found => other '/' rfl rfl found.1,
    if_neg fun found => other '/' rfl rfl found.1,
    if_neg fun found => found.elim (other '"' rfl rfl) (other '\'' rfl rfl),
    if_neg (other '\\' rfl rfl), if_neg fun found => other '(' rfl rfl found.1]

/-- A segment is a comment if it starts with a marker. -/
theorem isComment_segmentAt (before : List UInt8) :
    (segmentAt before b rest).1.isComment = true ↔
      b = '/'.toUInt8 ∧ (rest.head? = some '/'.toUInt8 ∨ rest.head? = some '*'.toUInt8) := by
  unfold segmentAt
  by_cases slashes : b = '/'.toUInt8 ∧ rest.head? = some '/'.toUInt8
  · rw [if_pos slashes]
    exact iff_of_true rfl ⟨slashes.1, .inl slashes.2⟩
  rw [if_neg slashes]
  by_cases star : b = '/'.toUInt8 ∧ rest.head? = some '*'.toUInt8
  · rw [if_pos star]
    refine iff_of_true ?_ ⟨star.1, .inr star.2⟩
    cases throughCloser? (rest.drop 1) <;> rfl
  rw [if_neg star]
  refine iff_of_false ?_ fun found => found.2.elim (fun second => slashes ⟨found.1, second⟩)
    fun second => star ⟨found.1, second⟩
  repeat' split
  all_goals exact Bool.false_ne_true

end Segments

/-- Only a closed block comment is handed out as one. -/
theorem Segment.kind_of_comment? (segment : Segment) {span : Span}
    (spoken : segment.comment? true = some (.block, span)) : segment.kind = .blockComment true := by
  obtain ⟨kind, start, bytes⟩ := segment
  cases kind with
  | blockComment closed =>
      cases closed with
      | true => rfl
      | false => exact absurd spoken.symm (Option.some_ne_none _)
  | lineComment closed =>
      exact CommentKind.noConfusion (Prod.mk.inj (Option.some.inj spoken)).1
  | _ => exact absurd spoken.symm (Option.some_ne_none _)

/-- A comment is handed out unless it is a block comment that the end of the text cuts off. -/
theorem Segment.isComment_iff (segment : Segment) :
    segment.kind.isComment = true ↔
      segment.comment? true ≠ none ∨ segment.kind = .blockComment false := by
  obtain ⟨kind, start, bytes⟩ := segment
  cases kind with
  | blockComment closed =>
      refine iff_of_true rfl ?_
      cases closed with
      | true => exact .inl (Option.some_ne_none _)
      | false => exact .inr rfl
  | lineComment closed => exact iff_of_true rfl (.inl (Option.some_ne_none _))
  | _ =>
      constructor
      · exact fun isComment => Bool.noConfusion isComment
      · rintro (spoken | cutOff)
        · exact absurd rfl spoken
        · exact SegmentKind.noConfusion cutOff

section Exactness

variable {source front blanks tail : Text} {comment : Comment} {index : Nat} {c : Char}

/-- Behind a block comment, white space and then what follows it start segments of their own. -/
theorem exists_segment_behind (found : comment ∈ allComments source)
    (block : comment.kind = .block) (whole : source = front ++ (blanks ++ c :: tail))
    (stop : bytes front = comment.span.stop) (white : ∀ d ∈ blanks, isBlank d = true) :
    ∃ segment ∈ segments (utf8 source), ∃ before b rest, utf8 (c :: tail) = b :: rest ∧
      segment.start = comment.span.stop + bytes blanks ∧
      segment.kind = (segmentAt before b rest).1 ∧
      segment.bytes = b :: rest.take (segmentAt before b rest).2 := by
  obtain ⟨own, member, spoken⟩ := mem_places_iff.1 ⟨comment, found, rfl⟩
  obtain ⟨start, ends⟩ := own.span_of_comment? spoken
  have kind : own.kind = .blockComment true := own.kind_of_comment? (by rw [spoken, place, block])
  have length : own.commentLength = own.bytes.length := by
    rw [Segment.commentLength, kind]
    rfl
  obtain ⟨ahead, behind, cut⟩ := List.append_of_mem member
  have ownStart := start_of_segmentsFrom cut
  rw [← List.singleton_append, ← List.append_assoc] at cut
  -- The comment ends with its segment, so the segments behind it are those of what follows it.
  have spelled : (ahead ++ [own]).flatMap (·.bytes) ++ behind.flatMap (·.bytes) =
      utf8 front ++ utf8 (blanks ++ c :: tail) := by
    rw [← List.flatMap_append, ← cut, ← utf8_append, ← whole]
    exact flatMap_bytes_segments (utf8 source)
  have size : ((ahead ++ [own]).flatMap (·.bytes)).length = comment.span.stop := by
    rw [List.length_nil, Nat.zero_add] at ownStart
    rw [List.flatMap_append, List.length_append, ← ownStart, List.flatMap_singleton, ← length]
    exact ends.symm
  obtain ⟨ownBytes, left⟩ := List.append_inj spelled (by rw [size, length_utf8, stop])
  have behindSegments := segmentsFrom_behind cut
  obtain ⟨b, rest, encoded⟩ : ∃ b rest, utf8 (c :: tail) = b :: rest := by
    obtain ⟨b, bytes, encoded, _⟩ := exists_utf8EncodeChar c
    exact ⟨b, bytes ++ utf8 tail, by rw [utf8_cons, encoded, List.cons_append]⟩
  rw [left, utf8_append] at behindSegments
  have plain : ∀ b ∈ utf8 blanks, IsPlainByte b := by
    intro b member
    obtain ⟨d, inBlanks, encodes⟩ := List.mem_flatMap.1 member
    exact isPlainByte_of_isBlank (white d inBlanks) encodes
  obtain ⟨plains, same, cut'⟩ := exists_plain_segments plain _ (utf8 (c :: tail))
  rw [cut', encoded, segmentsFrom] at behindSegments
  rw [behindSegments, ← List.append_assoc] at cut
  have place := start_of_segmentsFrom cut
  refine ⟨_, cut ▸ List.mem_append_right _ List.mem_cons_self, _, b, rest, encoded, ?_, rfl, rfl⟩
  rw [place, List.flatMap_append, List.length_append, size, same, length_utf8, List.length_nil,
    Nat.zero_add]

theorem isSpaceByte_of_mem_utf8EncodeChar {b : UInt8} (dark : isSpace c = false)
    (member : b ∈ String.utf8EncodeChar c) : isSpaceByte b = false := by
  rcases utf8EncodeChar_cases c with ⟨narrow, single⟩ | ⟨_, wide⟩
  · rw [single, List.mem_singleton] at member
    rw [member, isSpaceByte_toUInt8 narrow, dark]
  · exact isSpaceByte_of_wide (wide b member)

/-- A character is the first of a comment if its bytes start with a marker. -/
theorem isComment_segmentAt_utf8 {b : UInt8} {before rest : List UInt8}
    (encoded : utf8 (c :: tail) = b :: rest) :
    (segmentAt before b rest).1.isComment = true ↔
      c = '/' ∧ (tail.head? = some '/' ∨ tail.head? = some '*') := by
  have first : b = '/'.toUInt8 ↔ c = '/' := by
    have head := @head?_utf8 '/' rfl (c :: tail)
    rwa [encoded, List.head?_cons, List.head?_cons, Option.some.injEq, Option.some.injEq] at head
  rw [isComment_segmentAt, first]
  refine and_congr_right fun slash => ?_
  subst slash
  rw [utf8_cons_of_ascii rfl] at encoded
  rw [← (List.cons.inj encoded).2, head?_utf8 rfl, head?_utf8 rfl]

/-- **What follows white space behind a comment is code unless a comment starts there.** -/
theorem isCodeBehind_iff (found : comment ∈ allComments source)
    (block : comment.kind = .block) (whole : source = front ++ (blanks ++ c :: tail))
    (stop : bytes front = comment.span.stop)
    (white : ∀ d ∈ blanks, isBlank d = true ∧ d ≠ '\n') (dark : isBlank c = false) :
    IsCodeBehind source comment (comment.span.stop + bytes blanks) ↔
      ¬ (c = '/' ∧ (tail.head? = some '/' ∨ tail.head? = some '*')) := by
  obtain ⟨segment, member, before, b, rest, encoded, start, kind, spelled⟩ :=
    exists_segment_behind found block whole stop fun d inside => (white d inside).1
  have within : 0 < segment.bytes.length := by
    rw [spelled]
    exact Nat.succ_pos _
  have uncovered := uncovered_at member within
  rw [Nat.add_zero, start] at uncovered
  have read (more : Nat) : (utf8 source)[comment.span.stop + more]? =
      (utf8 blanks ++ b :: rest)[more]? := by
    rw [whole, utf8_append, utf8_append, encoded, ← stop, ← length_utf8 front,
      List.getElem?_append_right (Nat.le_add_right _ _), Nat.add_sub_cancel_left]
  have here : (utf8 source)[comment.span.stop + bytes blanks]? = some b := by
    rw [read, ← length_utf8, List.getElem?_append_right (Nat.le_refl _), Nat.sub_self]
    rfl
  rw [← @isComment_segmentAt_utf8 tail c b before rest encoded, ← kind]
  constructor
  · rintro ⟨_, ⟨b', found', darkByte⟩, _, outside, closed⟩ isComment
    obtain rfl := Option.some.inj (here.symm.trans found')
    rcases segment.isComment_iff.1 isComment with spoken | cutOff
    · -- A comment that is handed out covers its first byte.
      have short := uncovered.1 outside spoken
      have space := Segment.isSpaceByte_of_commentLength_le short (by rw [spelled]; rfl)
      rw [darkByte] at space
      exact Bool.noConfusion space
    · exact closed segment member cutOff ⟨Nat.le_of_eq start, by omega⟩
  · intro noComment
    have darkByte : isSpaceByte b = false := by
      obtain ⟨first, bytes, character, _⟩ := exists_utf8EncodeChar c
      have same := encoded
      rw [utf8_cons, character, List.cons_append] at same
      refine isSpaceByte_of_mem_utf8EncodeChar (c := c) ?_ ?_
      · refine Bool.eq_false_iff.2 fun space => ?_
        rw [isBlank_of_isSpace space] at dark
        exact Bool.noConfusion dark
      · rw [character, (List.cons.inj same).1]
        exact List.mem_cons_self
    refine ⟨Nat.le_add_right _ _, ⟨b, here, darkByte⟩, ?_, uncovered.2 fun spoken => ?_, ?_⟩
    · intro earlier from' upTo breaks
      obtain ⟨more, rfl⟩ := Nat.exists_eq_add_of_le from'
      rcases Nat.eq_or_lt_of_le (Nat.le_of_add_le_add_left upTo) with rfl | inBlanks
      · rw [here] at breaks
        rw [Option.some.inj breaks] at darkByte
        exact Bool.noConfusion darkByte
      · rw [read, List.getElem?_append_left (by rwa [length_utf8])] at breaks
        obtain ⟨d, inside, encodes⟩ := List.mem_flatMap.1 (List.mem_of_getElem? breaks)
        exact ne_newline_of_utf8EncodeChar (white d inside).2 encodes rfl
    · exact absurd (segment.isComment_iff.2 (.inl spoken)) noComment
    · intro other member' cutOff covered
      obtain rfl := eq_of_within member member' ⟨Nat.le_of_eq start, by omega⟩ covered
      exact noComment (segment.isComment_iff.2 (.inr cutOff))

/-- A block comment is reported by what is behind it. -/
theorem exists_behind (found : comment ∈ allComments source) (block : comment.kind = .block) :
    ∃ front behind, source = front ++ behind ∧ bytes front = comment.span.stop ∧
      comment.inlineAfter = hasCodeAhead behind := by
  have held := (Scanner.areHeld_toList (Scanner.ofText true source) rfl).1 comment found
  cases held with
  | line => exact CommentKind.noConfusion block
  | @block front body behind inlineBefore requested whole noCloser =>
      refine ⟨front ++ blockText body, behind, ?_, ?_, rfl⟩
      · rw [List.append_assoc]
        exact whole
      · rw [bytes_append, bytes_blockText]
        simp only [ofBlock, Scanner.ofText, bytes_nil]
        omega

/-- **A block comment is reported as standing in front of code if and only if the first character
behind it that is no white space is code on its line.** -/
theorem inlineAfter_iff (found : comment ∈ allComments source) (block : comment.kind = .block) :
    comment.inlineAfter = true ↔
      ∃ index, IsCodeBehind source comment index ∧ IsFirstBehind source comment index := by
  obtain ⟨front, behind, whole, stop, reported⟩ := exists_behind found block
  rw [reported]
  constructor
  · intro ahead
    obtain ⟨blanks, rest, rfl, all, stops⟩ :=
      Text.exists_leading (fun c => isBlank c && c != '\n') behind
    simp only [Bool.and_eq_true, bne_iff_ne, ne_eq] at all
    rw [hasCodeAhead_append all] at ahead
    cases rest with
    | nil => exact absurd ahead Bool.false_ne_true
    | cons c tail =>
        have first := stops c tail rfl
        by_cases breaks : c = '\n'
        · rw [breaks, hasCodeAhead_newline] at ahead
          exact Bool.noConfusion ahead
        · have dark : isBlank c = false := by
            rw [Bool.and_eq_false_iff] at first
            exact first.resolve_right (by simpa using breaks)
          rw [hasCodeAhead_cons dark, ← isCodeBehind_iff found block whole stop all dark] at ahead
          exact ⟨_, ahead, front, blanks, c, tail, whole, stop, rfl, fun d inside => (all d inside).1,
            dark⟩
  · rintro ⟨_, code, front', blanks, c, tail, whole', stop', rfl, all, dark⟩
    obtain ⟨rfl, rfl⟩ := append_inj_of_bytes (whole.symm.trans whole') (stop.trans stop'.symm)
    have white : ∀ d ∈ blanks, isBlank d = true ∧ d ≠ '\n' := by
      intro d inside
      refine ⟨all d inside, ?_⟩
      rintro rfl
      obtain ⟨start, rest, rfl⟩ := List.append_of_mem inside
      have early : bytes start ≤ bytes (start ++ '\n' :: rest) := by
        rw [bytes_append]
        exact Nat.le_add_right _ _
      refine code.sameLine (comment.span.stop + bytes start) (Nat.le_add_right _ _)
        (Nat.add_le_add_left early _) ?_
      rw [whole, ← stop, utf8_append, ← length_utf8,
        List.getElem?_append_right (Nat.le_add_right _ _), Nat.add_sub_cancel_left,
        List.append_assoc, utf8_append, ← length_utf8, List.getElem?_append_right (Nat.le_refl _),
        Nat.sub_self, List.cons_append, utf8_cons_of_ascii rfl]
      rfl
    rw [hasCodeAhead_append white, hasCodeAhead_cons dark]
    exact (isCodeBehind_iff found block whole stop white dark).1 code

/-- Code behind a comment and white space that no stylesheet knows, in front of another comment. -/
def spacedOut : Text := "/* a */ \u00a0 b /* c */".toList

theorem inlineAfter_spacedOut :
    ⟨.block, ⟨0, 7⟩, ['a'], false, true⟩ ∈ allComments spacedOut ∧
      ∃ index, IsCodeBehind spacedOut ⟨.block, ⟨0, 7⟩, ['a'], false, true⟩ index ∧
        IsFirstBehind spacedOut ⟨.block, ⟨0, 7⟩, ['a'], false, true⟩ index := by
  have found : ⟨.block, ⟨0, 7⟩, ['a'], false, true⟩ ∈ allComments spacedOut := by
    decide +kernel
  exact ⟨found, (inlineAfter_iff found rfl).1 rfl⟩

/-- Behind a further comment on the line, code is not seen. -/
theorem inlineAfter_ne_codeBehind :
    ¬ ∀ (source : Text), ∀ comment ∈ allComments source, comment.kind = .block →
      (comment.inlineAfter = true ↔ ∃ index, IsCodeBehind source comment index) := by
  intro claimed
  have found : (⟨.block, ⟨0, 7⟩, ['a'], false, false⟩ : Comment) ∈
      allComments "/* a */ /* b */ c".toList := by
    decide +kernel
  have code : IsCodeBehind "/* a */ /* b */ c".toList ⟨.block, ⟨0, 7⟩, ['a'], false, false⟩ 16 := {
    behind := by decide
    dark := ⟨99, by decide +kernel⟩
    sameLine := by
      have noBreak : '\n'.toUInt8 ∉ utf8 "/* a */ /* b */ c".toList := by decide +kernel
      exact fun earlier _ _ breaks => noBreak (List.mem_of_getElem? breaks)
    outside := by decide +kernel
    closed := by decide +kernel }
  exact Bool.false_ne_true ((claimed _ _ found rfl).2 ⟨16, code⟩)

end Exactness

end Comment

end ScssLint
