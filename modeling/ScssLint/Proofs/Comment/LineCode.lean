import ScssLint.Proofs.Comment.Segmentation

/-! # Code in front of a comment

A comment is reported as standing behind code if its line holds a byte in front of it that is
neither white space nor part of an earlier comment, unless the scanner overlooks all such bytes
(`Comment.inlineBefore_iff`). What it overlooks (`Comment.IsOverlooked`) is the end of a string or
of a `url(` argument and what a backslash in a string stands in front of.
-/

namespace ScssLint

namespace Comment

open Text

/-- Whether the byte at `index` is one of a string or of a `url(` argument that the scanner does not
take for code. -/
def IsOverlooked (bytes : List UInt8) (index : Nat) : Prop :=
  ∃ segment ∈ segments bytes,
    segment.start ≤ index ∧ segment.overlooked[index - segment.start]? = some true

/-- Whether the byte at `index` is code that stands in front of a comment on its line. -/
structure IsCodeBefore (source : Text) (comment : Comment) (index : Nat) : Prop where
  before : index < comment.span.start
  dark : ∃ b, (utf8 source)[index]? = some b ∧ isSpaceByte b = false
  sameLine : ∀ later, index ≤ later → later < comment.span.start →
    (utf8 source)[later]? ≠ some '\n'.toUInt8
  outside : ∀ earlier ∈ allComments source, earlier.span.start < comment.span.start →
    ¬ (earlier.span.start ≤ index ∧ index < earlier.span.stop)

section Places

variable {before bytes : List UInt8} {front behind : List Segment} {segment : Segment}

/-- A segment starts where the segments before it end. -/
theorem start_of_segmentsFrom (cut : segmentsFrom before bytes = front ++ segment :: behind) :
    segment.start = before.length + (front.flatMap (·.bytes)).length := by
  fun_induction segmentsFrom before bytes generalizing front with
  | case1 => exact absurd cut.symm (by simp)
  | case2 before b rest kind more _ ih =>
      cases front with
      | nil =>
          obtain ⟨rfl, _⟩ := List.cons.inj cut
          rfl
      | cons first front =>
          obtain ⟨rfl, later⟩ := List.cons.inj cut
          rw [ih later, List.flatMap_cons, List.length_append, List.length_append,
            List.length_reverse, List.length_cons, List.length_cons]
          omega

/-- Segments do not overlap. -/
theorem eq_of_within {first second : Segment} (member : first ∈ segmentsFrom before bytes)
    (member' : second ∈ segmentsFrom before bytes) {index : Nat}
    (inside : first.start ≤ index ∧ index < first.start + first.bytes.length)
    (inside' : second.start ≤ index ∧ index < second.start + second.bytes.length) :
    first = second := by
  -- A segment ends in front of all that stand behind it.
  have apart {front behind : List Segment} {segment later : Segment}
      (cut : segmentsFrom before bytes = front ++ segment :: behind) (after : later ∈ behind) :
      segment.start + segment.bytes.length ≤ later.start := by
    obtain ⟨between, last, rfl⟩ := List.append_of_mem after
    have place := start_of_segmentsFrom cut
    rw [← List.cons_append, ← List.append_assoc] at cut
    rw [start_of_segmentsFrom cut, place, List.flatMap_append, List.flatMap_cons,
      List.length_append, List.length_append]
    omega
  obtain ⟨front, behind, cut⟩ := List.append_of_mem member
  rw [cut, List.mem_append, List.mem_cons] at member'
  rcases member' with early | rfl | late
  · obtain ⟨start, between, rfl⟩ := List.append_of_mem early
    rw [List.append_assoc, List.cons_append] at cut
    have order := apart cut (List.mem_append_right between List.mem_cons_self)
    omega
  · rfl
  · have order := apart cut late
    omega

/-- Every byte belongs to a segment. -/
theorem exists_segment_at (segments : List Segment) {index : Nat}
    (inside : index < (segments.flatMap (·.bytes)).length) :
    ∃ front segment behind more, segments = front ++ segment :: behind ∧
      index = (front.flatMap (·.bytes)).length + more ∧ more < segment.bytes.length := by
  induction segments generalizing index with
  | nil => exact absurd inside (Nat.not_lt_zero index)
  | cons first rest ih =>
      rw [List.flatMap_cons, List.length_append] at inside
      by_cases own : index < first.bytes.length
      · exact ⟨[], first, rest, index, rfl, (Nat.zero_add index).symm, own⟩
      · have left : index - first.bytes.length < (rest.flatMap (·.bytes)).length := by omega
        obtain ⟨front, segment, behind, more, rfl, place, within⟩ := ih left
        refine ⟨first :: front, segment, behind, more, rfl, ?_, within⟩
        rw [List.flatMap_cons, List.length_append]
        omega

end Places

namespace Segment

variable {segment : Segment} {more : Nat}

theorem map_fst_code (segment : Segment) : segment.code.map Prod.fst = segment.bytes := by
  rw [code]
  split
  · rw [List.map_map]
    exact List.map_id _
  · rw [codeOf, List.map_zipWith]
    exact (List.map_zip_eq_zipWith (f := Prod.fst)).symm.trans
      (List.map_fst_zip (Nat.le_of_eq segment.length_overlooked.symm))

theorem length_code (segment : Segment) : segment.code.length = segment.bytes.length := by
  rw [← segment.map_fst_code, List.length_map]

/-- In front of the line break that closes a line comment, a carriage return may be left out; it is
white space. -/
theorem isSpaceByte_of_commentLength_le {b : UInt8} (left : segment.commentLength ≤ more)
    (read : segment.bytes[more]? = some b) : isSpaceByte b = true := by
  rw [commentLength] at left
  have inside := (List.getElem?_eq_some_iff.1 read).1
  split at left
  · rename_i line
    have last : more = segment.bytes.length - 1 := by omega
    rw [last, ← List.getLast?_eq_getElem?, line.2] at read
    obtain rfl := Option.some.inj read
    rfl
  · omega

theorem span_of_comment? {found : CommentKind × Span}
    (spoken : segment.comment? true = some found) :
    found.2.start = segment.start ∧ found.2.stop = segment.start + segment.commentLength := by
  obtain ⟨kind, start, bytes⟩ := segment
  cases kind with
  | lineComment closed =>
      obtain rfl := Option.some.inj spoken
      exact ⟨rfl, rfl⟩
  | blockComment closed =>
      cases closed with
      | false => exact absurd spoken.symm (Option.some_ne_none found)
      | true =>
          obtain rfl := Option.some.inj spoken
          exact ⟨rfl, rfl⟩
  | _ => exact absurd spoken.symm (Option.some_ne_none found)

theorem commentLength_le (segment : Segment) : segment.commentLength ≤ segment.bytes.length := by
  rw [commentLength]
  split <;> omega

/-- A byte of a segment counts as code if it is no white space, not overlooked and not part of a
comment that is handed out. -/
theorem code_eq_some_iff {b : UInt8} :
    segment.code[more]? = some (b, true) ↔
      segment.bytes[more]? = some b ∧ isSpaceByte b = false ∧
        segment.overlooked[more]? ≠ some true ∧
        (segment.comment? true ≠ none → segment.commentLength ≤ more) := by
  rw [code]
  cases silent : segment.comment? true with
  | some found =>
      rw [Option.isSome_some, if_pos rfl, List.getElem?_map]
      constructor
      · intro counts
        obtain ⟨b', _, same⟩ := Option.map_eq_some_iff.1 counts
        exact Bool.noConfusion (Prod.mk.inj same).2
      · rintro ⟨read, dark, _, behind⟩
        rw [isSpaceByte_of_commentLength_le (behind (Option.some_ne_none found)) read] at dark
        exact Bool.noConfusion dark
  | none =>
      rw [Option.isSome_none, if_neg Bool.false_ne_true, codeOf, List.getElem?_zipWith]
      cases read : segment.bytes[more]? with
      | none => simp
      | some b' =>
          have inside : more < segment.overlooked.length := by
            rw [segment.length_overlooked]
            exact (List.getElem?_eq_some_iff.1 read).1
          rw [List.getElem?_eq_getElem inside]
          cases segment.overlooked[more] with
          | true => simp
          | false =>
              simp only [Bool.not_false, Bool.and_true, Option.some.injEq, Prod.mk.injEq,
                Bool.not_eq_true', ne_eq, Bool.false_eq_true, not_false_eq_true, not_true,
                false_implies, and_true]
              constructor
              · rintro ⟨rfl, dark⟩
                exact ⟨rfl, dark⟩
              · rintro ⟨rfl, dark⟩
                exact ⟨rfl, dark⟩

end Segment

/-- A comment among segments is one of the segments, and those in front of it tell what was seen on
its line. -/
theorem exists_of_mem_commentsAmong {blocks seen : Bool} {segments : List Segment}
    {found : (CommentKind × Span) × Bool} (member : found ∈ commentsAmong blocks seen segments) :
    ∃ front segment behind, segments = front ++ segment :: behind ∧
      segment.comment? blocks = some found.1 ∧
      found.2 = (front.flatMap Segment.code).foldl seenAfter seen := by
  induction segments generalizing seen with
  | nil => exact absurd member List.not_mem_nil
  | cons first rest ih =>
      rw [commentsAmong, List.mem_append] at member
      rcases member with here | later
      · obtain ⟨place, spoken, rfl⟩ := List.mem_map.1 here
        exact ⟨[], first, rest, rfl, Option.mem_toList.1 spoken, rfl⟩
      · obtain ⟨front, segment, behind, rfl, spoken, shown⟩ := ih later
        refine ⟨first :: front, segment, behind, rfl, spoken, ?_⟩
        rw [shown, List.flatMap_cons, List.foldl_append]

section Exactness

variable {source : Text} {comment : Comment} {segment : Segment} {index more : Nat}

/-- The bytes of a source, each with whether it counts as code. -/
def codeBytes (source : Text) : List (UInt8 × Bool) :=
  (segments (utf8 source)).flatMap Segment.code

theorem map_fst_flatMap_code (segments : List Segment) :
    (segments.flatMap Segment.code).map Prod.fst = segments.flatMap (·.bytes) := by
  rw [List.map_flatMap]
  exact congrArg (segments.flatMap ·) (funext Segment.map_fst_code)

theorem length_flatMap_code (segments : List Segment) :
    (segments.flatMap Segment.code).length = (segments.flatMap (·.bytes)).length := by
  rw [← map_fst_flatMap_code, List.length_map]

theorem map_fst_codeBytes (source : Text) : (codeBytes source).map Prod.fst = utf8 source := by
  rw [codeBytes, map_fst_flatMap_code, flatMap_bytes_segments]

/-- The records of a scan are the comments among the segments. -/
theorem mem_places_iff {found : CommentKind × Span} :
    (∃ comment ∈ allComments source, place comment = found) ↔
      ∃ segment ∈ segments (utf8 source), segment.comment? true = some found := by
  rw [← List.mem_map, ← List.mem_filterMap]
  exact iff_of_eq (congrArg (found ∈ ·) (toList_eq_segments true source).1)

theorem codeBytes_at (member : segment ∈ segments (utf8 source))
    (within : more < segment.bytes.length) :
    (codeBytes source)[segment.start + more]? = segment.code[more]? := by
  obtain ⟨front, behind, cut⟩ := List.append_of_mem member
  have start : segment.start = (front.flatMap Segment.code).length := by
    rw [length_flatMap_code, start_of_segmentsFrom cut, List.length_nil, Nat.zero_add]
  rw [codeBytes, cut, List.flatMap_append, List.flatMap_cons,
    List.getElem?_append_right (by omega), start, Nat.add_sub_cancel_left,
    List.getElem?_append_left (by rwa [segment.length_code])]

theorem isOverlooked_at (member : segment ∈ segments (utf8 source))
    (within : more < segment.bytes.length) :
    IsOverlooked (utf8 source) (segment.start + more) ↔ segment.overlooked[more]? = some true := by
  constructor
  · rintro ⟨other, member', starts, passed⟩
    have within' := (List.getElem?_eq_some_iff.1 passed).1
    rw [other.length_overlooked] at within'
    obtain rfl := eq_of_within member member' ⟨Nat.le_add_right .., by omega⟩ ⟨starts, by omega⟩
    rwa [Nat.add_sub_cancel_left] at passed
  · intro passed
    refine ⟨segment, member, Nat.le_add_right .., ?_⟩
    rwa [Nat.add_sub_cancel_left]

/-- The comment that a segment is covers a byte of it, and no other comment does. -/
theorem uncovered_at (member : segment ∈ segments (utf8 source))
    (within : more < segment.bytes.length) :
    (∀ comment ∈ allComments source,
        ¬ (comment.span.start ≤ segment.start + more ∧ segment.start + more < comment.span.stop)) ↔
      (segment.comment? true ≠ none → segment.commentLength ≤ more) := by
  constructor
  · intro uncovered spoken
    obtain ⟨found, same⟩ := Option.ne_none_iff_exists'.1 spoken
    obtain ⟨comment, recorded, rfl⟩ := mem_places_iff.2 ⟨segment, member, same⟩
    obtain ⟨start, stop⟩ := segment.span_of_comment? same
    have clear := uncovered comment recorded
    change comment.span.start = _ at start
    change comment.span.stop = _ at stop
    omega
  · intro behindComment comment recorded covered
    obtain ⟨other, member', spoken⟩ := mem_places_iff.1 ⟨comment, recorded, rfl⟩
    obtain ⟨start, stop⟩ := other.span_of_comment? spoken
    change comment.span.start = _ at start
    change comment.span.stop = _ at stop
    have short := other.commentLength_le
    obtain rfl := eq_of_within member member' ⟨Nat.le_add_right .., by omega⟩
      ⟨start ▸ covered.1, by omega⟩
    have behind := behindComment (spoken ▸ Option.some_ne_none _)
    omega

/-- A byte counts as code if it is no white space, not overlooked and outside all comments. -/
theorem codeBytes_eq_some_iff {b : UInt8} :
    (codeBytes source)[index]? = some (b, true) ↔
      (utf8 source)[index]? = some b ∧ isSpaceByte b = false ∧
        ¬ IsOverlooked (utf8 source) index ∧
        ∀ comment ∈ allComments source,
          ¬ (comment.span.start ≤ index ∧ index < comment.span.stop) := by
  have spelled := map_fst_codeBytes source
  by_cases inside : index < (utf8 source).length
  · rw [← flatMap_bytes_segments (utf8 source)] at inside
    obtain ⟨front, segment, behind, more, cut, rfl, within⟩ := exists_segment_at _ inside
    have member : segment ∈ segments (utf8 source) :=
      cut ▸ List.mem_append_right front List.mem_cons_self
    have start : (front.flatMap (·.bytes)).length = segment.start :=
      ((start_of_segmentsFrom cut).trans (Nat.zero_add _)).symm
    rw [start, codeBytes_at member within, Segment.code_eq_some_iff, isOverlooked_at member within,
      uncovered_at member within, ← spelled, List.getElem?_map, codeBytes_at member within,
      ← List.getElem?_map, segment.map_fst_code]
  · have short : (codeBytes source).length ≤ index := by
      rw [← List.length_map (f := Prod.fst), spelled]
      exact Nat.le_of_not_lt inside
    rw [List.getElem?_eq_none short, List.getElem?_eq_none (Nat.le_of_not_lt inside)]
    simp

/-- **A comment is reported as standing behind code if and only if it does so for what is not
overlooked**: its line holds a byte in front of it that is no white space and no part of an earlier
comment, and that the scanner does not overlook. -/
theorem inlineBefore_iff (found : comment ∈ allComments source) :
    comment.inlineBefore = true ↔
      ∃ index, IsCodeBefore source comment index ∧ ¬ IsOverlooked (utf8 source) index := by
  have noted : note comment ∈ commentsFrom true false [] (utf8 source) := by
    have same := @Scanner.notes_eq_commentsFrom true source [] false
    exact same ▸ List.mem_map_of_mem found
  obtain ⟨front, segment, behind, cut, spoken, shown⟩ := exists_of_mem_commentsAmong noted
  have start : comment.span.start = (front.flatMap Segment.code).length := by
    rw [length_flatMap_code, show comment.span.start = _ from (segment.span_of_comment? spoken).1]
    exact (start_of_segmentsFrom cut).trans (Nat.zero_add _)
  have read {index : Nat} (before : index < comment.span.start) :
      (front.flatMap Segment.code)[index]? = (codeBytes source)[index]? := by
    rw [codeBytes, segments, cut, List.flatMap_append, List.getElem?_append_left (start ▸ before)]
  rw [show comment.inlineBefore = _ from shown, foldl_seenAfter_iff]
  constructor
  · rintro (⟨already, _⟩ | ⟨index, b, counts, whole⟩)
    · exact Bool.noConfusion already
    · have before : index < comment.span.start := start ▸ (List.getElem?_eq_some_iff.1 counts).1
      rw [read before, codeBytes_eq_some_iff] at counts
      obtain ⟨spelled, dark, noticed, outside⟩ := counts
      refine ⟨index, ⟨before, ⟨b, spelled, dark⟩, ?_, fun earlier recorded _ =>
        outside earlier recorded⟩, noticed⟩
      intro later from' upTo
      rw [← map_fst_codeBytes, List.getElem?_map, ← read upTo]
      intro breaks
      obtain ⟨byte, member, same⟩ := Option.map_eq_some_iff.1 breaks
      have left : byte ∈ (front.flatMap Segment.code).drop index :=
        List.mem_iff_getElem?.2 ⟨later - index, by
          rwa [List.getElem?_drop, Nat.add_sub_cancel' from']⟩
      exact whole byte left same
  · rintro ⟨index, ⟨before, ⟨b, spelled, dark⟩, sameLine, outside⟩, noticed⟩
    refine .inr ⟨index, b, ?_, ?_⟩
    · rw [read before, codeBytes_eq_some_iff]
      refine ⟨spelled, dark, noticed, fun earlier recorded covered => ?_⟩
      exact outside earlier recorded (Nat.lt_of_le_of_lt covered.1 before) covered
    · intro byte member breaks
      obtain ⟨more, place⟩ := List.mem_iff_getElem?.1 member
      rw [List.getElem?_drop] at place
      have upTo : index + more < comment.span.start := start ▸ (List.getElem?_eq_some_iff.1 place).1
      refine sameLine _ (Nat.le_add_right index more) upTo ?_
      rw [← map_fst_codeBytes, List.getElem?_map, ← read upTo, place, ← breaks]
      rfl

/-- A string over two lines, and three comments: the last one stands behind its second line. -/
def strung : Text := "/* a */ b: 'c\\\nd'; /* e */ // f".toList

theorem inlineBefore_strung :
    ⟨.doubleSlash, ⟨27, 31⟩, ['f'], true, false⟩ ∈ allComments strung ∧
      ∃ index, IsCodeBefore strung ⟨.doubleSlash, ⟨27, 31⟩, ['f'], true, false⟩ index ∧
        ¬ IsOverlooked (utf8 strung) index := by
  have found : ⟨.doubleSlash, ⟨27, 31⟩, ['f'], true, false⟩ ∈ allComments strung := by
    decide +kernel
  exact ⟨found, (inlineBefore_iff found).1 rfl⟩

/-- A quote that closes a string at the start of a line is code that the scanner overlooks. -/
theorem inlineBefore_ne_codeBefore :
    ¬ ∀ (source : Text), ∀ comment ∈ allComments source,
      (comment.inlineBefore = true ↔ ∃ index, IsCodeBefore source comment index) := by
  intro claimed
  have found : (⟨.doubleSlash, ⟨4, 8⟩, ['c'], false, false⟩ : Comment) ∈
      allComments "'x\n'// c".toList := by
    decide +kernel
  have code : IsCodeBefore "'x\n'// c".toList ⟨.doubleSlash, ⟨4, 8⟩, ['c'], false, false⟩ 3 := {
    before := by decide
    dark := ⟨39, by decide +kernel⟩
    sameLine := by
      intro later from' upTo
      obtain rfl : later = 3 := Nat.le_antisymm (Nat.le_of_lt_succ upTo) from'
      decide +kernel
    outside := by decide +kernel }
  exact Bool.false_ne_true ((claimed _ _ found).2 ⟨3, code⟩)

end Exactness

end Comment

end ScssLint
