import ScssLint.Proofs.Comment.Found

/-! # Well-formed records

Every comment that a scanner hands out stands in the text as it is reported: a line comment reaches
to the end of its line, a block comment to its first closing marker (`Comment.IsHeld`). A scanner
proceeds from comment to comment (`Comment.Scanner.induct_comments`), so the comments follow one
another without overlap (`Comment.Scanner.areHeld_toList`), and every slice that is taken for them,
or between them when line comments are blanked, lies between characters of the text
(`Comment.areWellFormed_toList`).
-/

namespace ScssLint

namespace Text

/-- A text cut behind its first `count` bytes, unless the cut is inside a character or behind the
end. -/
def splitAt? : Nat → Text → Option (Text × Text)
  | 0, text => some ([], text)
  | _ + 1, [] => none
  | count + 1, c :: rest =>
      if c.utf8Size ≤ count + 1 then
        (splitAt? (count + 1 - c.utf8Size) rest).map fun cut => (c :: cut.1, cut.2)
      else
        none

/-- The slice of a text between two byte offsets, if they are in order and lie between characters. -/
def slice? (text : Text) (start stop : Nat) : Option Text :=
  (splitAt? stop text).bind fun cut => (splitAt? start cut.1).map (·.2)

theorem splitAt?_append (front behind : Text) :
    splitAt? (bytes front) (front ++ behind) = some (front, behind) := by
  induction front with
  | nil =>
      rw [bytes_nil, List.nil_append, splitAt?]
  | cons c front ih =>
      obtain ⟨count, length⟩ := Nat.exists_eq_add_one.2 (bytes_pos (List.cons_ne_nil c front))
      have left : count + 1 - c.utf8Size = bytes front := by
        rw [← length, bytes_cons, Nat.add_sub_cancel_left]
      have fits : c.utf8Size ≤ count + 1 := by
        rw [← length, bytes_cons]
        exact Nat.le_add_right _ _
      rw [length, List.cons_append, splitAt?, if_pos fits, left, ih, Option.map_some]

/-- What stands between two parts of a text is the slice from the end of the first one to the start
of the second one. -/
theorem slice?_append (before inside behind : Text) :
    slice? (before ++ (inside ++ behind)) (bytes before) (bytes before + bytes inside) =
      some inside := by
  rw [slice?, ← bytes_append, ← List.append_assoc, splitAt?_append, Option.bind_some,
    splitAt?_append, Option.map_some]

/-- A later cut of a text is a cut of what is behind an earlier one. -/
theorem IsBoundary.exists_between {before rest : Text} {offset : Nat}
    (boundary : IsBoundary (before ++ rest) offset) (later : bytes before ≤ offset) :
    ∃ between behind, rest = between ++ behind ∧ bytes before + bytes between = offset := by
  obtain ⟨front, behind, whole, rfl⟩ := boundary
  rcases List.append_eq_append_iff.1 whole with ⟨between, rfl, same⟩ | ⟨between, rfl, same⟩
  · exact ⟨between, behind, same, (bytes_append before between).symm⟩
  · cases between with
    | nil =>
        refine ⟨[], rest, rfl, ?_⟩
        rw [List.append_nil, bytes_nil, Nat.add_zero]
    | cons c between =>
        have longer := bytes_pos (List.cons_ne_nil c between)
        rw [bytes_append] at later
        omega

end Text

namespace Comment

open Text

/-- Spans overwritten as in `blankSpans`, the text between them being sliced out of the whole text;
there is no result if a slice is out of range or splits a character. -/
def blankSlices? (source : Text) : Nat → List Span → Option Text
  | last, [] => slice? source last (bytes source)
  | last, span :: spans =>
      (slice? source last span.start).bind fun kept =>
        (blankSlices? source span.stop spans).map fun blanked =>
          kept ++ List.replicate span.length ' ' ++ blanked

/-- **Spans that do not overlap and end between characters can be sliced out.** -/
theorem blankSlices?_eq {spans : List Span} {before rest : Text}
    (apart : spans.Pairwise fun first second => first.stop ≤ second.start)
    (bounded : ∀ span ∈ spans, bytes before ≤ span.start ∧ span.start ≤ span.stop ∧
      IsBoundary (before ++ rest) span.start ∧ IsBoundary (before ++ rest) span.stop) :
    blankSlices? (before ++ rest) (bytes before) spans =
      some (blankSpans (bytes before) rest spans) := by
  induction spans generalizing before rest with
  | nil =>
      have whole := slice?_append before rest []
      rwa [List.append_nil, ← bytes_append] at whole
  | cons span spans ih =>
      obtain ⟨behind, later⟩ := List.pairwise_cons.1 apart
      obtain ⟨starts, ordered, cutStart, cutStop⟩ := bounded span List.mem_cons_self
      obtain ⟨kept, tail, rfl, start⟩ := cutStart.exists_between starts
      rw [← List.append_assoc] at cutStop
      obtain ⟨covered, tail, rfl, stop⟩ := cutStop.exists_between (by
        rw [bytes_append, start]
        exact ordered)
      have order : before ++ (kept ++ (covered ++ tail)) = before ++ kept ++ covered ++ tail := by
        simp only [List.append_assoc]
      have size : bytes (before ++ kept ++ covered) = span.stop := by
        rw [bytes_append, stop]
      have last : span.stop - bytes before = bytes (kept ++ covered) := by
        rw [← size, List.append_assoc, bytes_append, Nat.add_sub_cancel_left]
      have overwritten := @ih (before ++ kept ++ covered) tail later fun other member => by
        obtain ⟨_, ordered', cutStart', cutStop'⟩ :=
          bounded other (List.mem_cons_of_mem span member)
        rw [← order, size]
        exact ⟨behind other member, ordered', cutStart', cutStop'⟩
      rw [size, ← order] at overwritten
      rw [blankSlices?, ← start, slice?_append, Option.bind_some, overwritten, Option.map_some,
        blankSpans, last, ← start, Nat.add_sub_cancel_left, takeBytes_append (Nat.le_refl _),
        Nat.sub_self, takeBytes_zero, List.append_nil, ← List.append_assoc kept,
        dropBytes_append (Nat.le_refl _), Nat.sub_self, dropBytes_zero]

/-- Whether a line ends in front of `behind`. -/
def EndsLine (behind : Text) : Prop :=
  behind = [] ∨ ['\n'] <+: behind ∨ ['\r', '\n'] <+: behind

/-- A comment as it stands in the text `rest` behind `before`. -/
inductive IsHeld (blocks : Bool) (before rest : Text) : Comment → Prop where
  | line {front body behind : Text} (inlineBefore : Bool)
      (whole : rest = front ++ (marked body ++ behind)) (inLine : '\n' ∉ body)
      (ends : EndsLine behind) :
      IsHeld blocks before rest (ofLine (bytes before + bytes front) inlineBefore body)
  | block {front body behind : Text} (inlineBefore : Bool) (requested : blocks = true)
      (whole : rest = front ++ (blockText body ++ behind)) (noCloser : ¬ ['*', '/'] <:+: body) :
      IsHeld blocks before rest (ofBlock (bytes before + bytes front) inlineBefore body behind)

namespace IsHeld

variable {blocks : Bool} {before rest : Text} {comment : Comment}

theorem start_le (held : IsHeld blocks before rest comment) :
    bytes before ≤ comment.span.start := by
  cases held with
  | line => exact Nat.le_add_right _ _
  | block => exact Nat.le_add_right _ _

theorem behind {start : Text} (held : IsHeld blocks (start.reverse ++ before) rest comment) :
    IsHeld blocks before (start ++ rest) comment := by
  have moved (front : Text) : bytes (start.reverse ++ before) + bytes front =
      bytes before + bytes (start ++ front) := by
    rw [bytes_append, bytes_reverse, bytes_append]
    omega
  cases held with
  | line inlineBefore whole inLine ends =>
      rw [moved]
      refine .line inlineBefore ?_ inLine ends
      rw [whole, List.append_assoc]
  | block inlineBefore requested whole noCloser =>
      rw [moved]
      refine .block inlineBefore requested ?_ noCloser
      rw [whole, List.append_assoc]

end IsHeld

/-- Whether comments stand in the text `rest` behind `before`, one behind the other. -/
def AreHeld (blocks : Bool) (before rest : Text) (comments : List Comment) : Prop :=
  (∀ comment ∈ comments, IsHeld blocks before rest comment) ∧
    comments.Pairwise fun first second => first.span.stop ≤ second.span.start

namespace AreHeld

variable {blocks : Bool} {before start rest : Text} {comment : Comment} {comments : List Comment}

theorem nil : AreHeld blocks before rest [] :=
  ⟨List.forall_mem_nil _, .nil⟩

theorem behind (held : AreHeld blocks (start.reverse ++ before) rest comments) :
    AreHeld blocks before (start ++ rest) comments :=
  ⟨fun comment member => (held.1 comment member).behind, held.2⟩

theorem cons (first : IsHeld blocks before (start ++ rest) comment)
    (stop : comment.span.stop ≤ bytes before + bytes start)
    (held : AreHeld blocks (start.reverse ++ before) rest comments) :
    AreHeld blocks before (start ++ rest) (comment :: comments) := by
  refine ⟨List.forall_mem_cons.2 ⟨first, held.behind.1⟩, List.pairwise_cons.2 ⟨?_, held.2⟩⟩
  intro later member
  have place := (held.1 later member).start_le
  rw [bytes_append, bytes_reverse] at place
  omega

end AreHeld

theorem endsLine_lineEnd (line rest : Text) : EndsLine (lineEnd line ++ rest) := by
  unfold lineEnd
  split
  · exact .inr (.inr (List.prefix_append ['\r', '\n'] rest))
  · exact .inr (.inl (List.prefix_append ['\n'] rest))

theorem notMem_withoutReturn {line : Text} (inLine : '\n' ∉ line) : '\n' ∉ withoutReturn line := by
  unfold withoutReturn
  split
  · exact fun member => inLine (List.dropLast_subset line member)
  · exact inLine

namespace Scanner

/-- **The comments of a scanner stand in its text one behind the other.** -/
theorem areHeld_toList (scanner : Scanner) (isOpen : scanner.mode.isOpen = true) :
    AreHeld scanner.blocks scanner.before scanner.rest scanner.toList := by
  induction scanner, isOpen using induct_comments with
  | ended scanner isOpen ended =>
      rw [toList_nil (Mode.isLine_of_isOpen isOpen) ended]
      exact .nil
  | step scanner c rest isOpen ahead _ silent stays ih =>
      have whole : scanner.rest = c :: rest.take (scanner.react c rest).more ++
          rest.drop (scanner.react c rest).more := by
        rw [ahead, List.cons_append, List.take_append_drop]
      rw [toList_step ahead, silent, whole]
      refine AreHeld.behind ?_
      rw [List.reverse_cons, List.append_assoc]
      exact ih
  | line blocks before line rest flag inLine ih =>
      have whole := marked_append_lineEnd line rest
      have read : (marked (withoutReturn line) ++ lineEnd line).reverse ++ before =
          '\n' :: (line.reverse ++ '/' :: '/' :: before) := by
        have single := marked_append_lineEnd line []
        rw [List.append_nil] at single
        rw [single]
        simp only [List.reverse_cons, List.reverse_append, List.reverse_nil, List.nil_append,
          List.append_assoc, List.cons_append]
      rw [toList_line inLine]
      simp only
      rw [← whole, ← List.append_assoc]
      refine AreHeld.cons ?_ ?_ (read ▸ ih)
      · rw [List.append_assoc]
        exact @IsHeld.line _ _ _ [] _ _ flag rfl (notMem_withoutReturn inLine)
          (endsLine_lineEnd line rest)
      · rw [span_ofLine, bytes_append]
        exact Nat.add_le_add_left (Nat.le_add_right _ _) _
  | lastLine blocks before line flag inLine =>
      rw [toList_lastLine inLine]
      have whole : '/' :: '/' :: line = marked line ++ [] := (List.append_nil _).symm
      simp only
      rw [whole]
      refine AreHeld.cons ?_ (Nat.le_of_eq ?_) .nil
      · exact @IsHeld.line _ _ _ [] _ _ flag rfl inLine (.inl rfl)
      · rw [span_ofLine]
  | block blocks before body rest flag later noCloser reads ih =>
      rw [reads]
      cases blocks with
      | false => exact ih.behind
      | true =>
          refine AreHeld.cons ?_ ?_ ih
          · exact @IsHeld.block _ _ _ [] _ _ flag rfl rfl noCloser
          · rw [bytes_blockText]
            exact Nat.le_of_eq (by simp only [ofBlock]; omega)
  | openBlock blocks before rest flag noCloser =>
      rw [toList_opensBlock, toList_unclosed noCloser]
      exact .nil

end Scanner

/-- A comment that can be sliced out of the source by its span, with the text between its markers. -/
structure IsWellFormed (source : Text) (comment : Comment) : Prop where
  inside : comment.span.start + 2 ≤ comment.span.stop ∧ comment.span.stop ≤ bytes source
  starts : IsBoundary source comment.span.start
  stops : IsBoundary source comment.span.stop
  line : comment.kind = .doubleSlash → ∃ body behind,
    slice? source comment.span.start comment.span.stop = some (marked body) ∧ '\n' ∉ body ∧
      slice? source comment.span.stop (bytes source) = some behind ∧ EndsLine behind ∧
      slice? source (comment.span.start + 2) comment.span.stop = some body ∧
      comment.text = trim body
  block : comment.kind = .block → ∃ body behind,
    slice? source comment.span.start comment.span.stop = some (blockText body) ∧
      4 ≤ comment.span.length ∧ ¬ ['*', '/'] <:+: body ++ ['*'] ∧
      slice? source comment.span.stop (bytes source) = some behind ∧
      slice? source (comment.span.start + 2) (comment.span.stop - 2) = some body ∧
      comment.text = trim body

/-- A closing marker that is in front of another one does not overlap it. -/
theorem noCloser_append_star {body : Text} (noCloser : ¬ ['*', '/'] <:+: body) :
    ¬ ['*', '/'] <:+: body ++ ['*'] := by
  intro found
  rcases List.infix_concat_iff.1 found with ends | inside
  · obtain ⟨front, same⟩ := ends
    have last := congrArg List.getLast? same
    rw [List.getLast?_append, List.getLast?_concat] at last
    exact absurd (Option.some.inj last) (by decide)
  · exact noCloser inside

/-- The slices of a text that is cut in three. -/
theorem slices_of_cut (before inside behind : Text) :
    let source := before ++ (inside ++ behind)
    let stop := bytes before + bytes inside
    stop ≤ bytes source ∧ IsBoundary source (bytes before) ∧ IsBoundary source stop ∧
      slice? source (bytes before) stop = some inside ∧
      slice? source stop (bytes source) = some behind := by
  refine ⟨?_, isBoundary_append _ _, ?_, slice?_append _ _ _, ?_⟩
  · simp only [bytes_append]
    omega
  · rw [← bytes_append, ← List.append_assoc]
    exact isBoundary_append _ _
  · have last := slice?_append (before ++ inside) behind []
    rwa [List.append_nil, List.append_assoc, bytes_append, Nat.add_assoc, ← bytes_append inside,
      ← bytes_append before (inside ++ behind)] at last

theorem IsHeld.isWellFormed {blocks : Bool} {source : Text} {comment : Comment}
    (held : IsHeld blocks [] source comment) : IsWellFormed source comment := by
  cases held with
  | @line front body behind inlineBefore whole inLine ends =>
      subst whole
      rw [bytes_nil, Nat.zero_add]
      obtain ⟨fits, starts, stops, own, rest⟩ := slices_of_cut front (marked body) behind
      rw [bytes_marked, ← Nat.add_assoc] at fits stops own rest
      have inside := slice?_append (front ++ ['/', '/']) body behind
      rw [bytes_append, List.append_assoc] at inside
      exact {
        inside := ⟨Nat.le_add_right _ _, fits⟩
        starts := starts
        stops := stops
        line := fun _ => ⟨body, behind, own, inLine, rest, ends, inside, rfl⟩
        block := fun kind => CommentKind.noConfusion kind }
  | @block front body behind inlineBefore requested whole noCloser =>
      subst whole
      rw [bytes_nil, Nat.zero_add]
      obtain ⟨fits, starts, stops, own, rest⟩ := slices_of_cut front (blockText body) behind
      rw [bytes_blockText, ← Nat.add_assoc, ← Nat.add_assoc] at fits stops own rest
      have order : front ++ (blockText body ++ behind) =
          front ++ ['/', '*'] ++ (body ++ ('*' :: '/' :: behind)) := by
        simp only [blockText, List.append_assoc, List.cons_append, List.nil_append]
      have inside := slice?_append (front ++ ['/', '*']) body ('*' :: '/' :: behind)
      rw [bytes_append, ← order] at inside
      have length : 4 ≤ (ofBlock (bytes front) inlineBefore body behind).span.length := by
        simp only [Span.length, ofBlock]
        omega
      exact {
        inside := ⟨by simp only [ofBlock]; omega, fits⟩
        starts := starts
        stops := stops
        line := fun kind => CommentKind.noConfusion kind
        block := fun _ =>
          ⟨body, behind, own, length, noCloser_append_star noCloser, rest, inside, rfl⟩ }

theorem IsHeld.kind_eq {blocks : Bool} {before rest : Text} {comment : Comment}
    (held : IsHeld blocks before rest comment) (block : comment.kind = .block) : blocks = true := by
  cases held with
  | line => exact CommentKind.noConfusion block
  | block _ requested => exact requested

/-- **The records of a scan are well-formed.** They follow one another without overlap, each of them
can be sliced out of the source and looks as its kind says, and so can all that is kept between
them when line comments are blanked. -/
theorem areWellFormed_toList (blocks : Bool) (source : Text) :
    ((Scanner.ofText blocks source).toList.Pairwise fun first second =>
        first.span.start < second.span.start ∧ first.span.stop ≤ second.span.start) ∧
      (∀ comment ∈ (Scanner.ofText blocks source).toList,
        IsWellFormed source comment ∧ (comment.kind = .block → blocks = true)) ∧
      blankSlices? source 0 ((lineComments source).map (·.span)) =
        some (blankLineComments source) := by
  have held (blocks : Bool) := Scanner.areHeld_toList (Scanner.ofText blocks source) rfl
  have wellFormed (blocks : Bool) : ∀ comment ∈ (Scanner.ofText blocks source).toList,
      IsWellFormed source comment := fun comment member =>
    ((held blocks).1 comment member).isWellFormed
  refine ⟨?_, fun comment member => ⟨wellFormed blocks comment member,
    ((held blocks).1 comment member).kind_eq⟩, ?_⟩
  · refine (held blocks).2.imp_of_mem fun {first second} member _ apart => ⟨?_, apart⟩
    have long := (wellFormed blocks first member).inside.1
    omega
  · refine @blankSlices?_eq _ [] source (List.pairwise_map.2 (held false).2) fun span member => ?_
    obtain ⟨comment, found, rfl⟩ := List.mem_map.1 member
    have formed := wellFormed false comment found
    exact ⟨Nat.zero_le _, Nat.le_of_add_right_le formed.inside.1, formed.starts, formed.stops⟩

/-- Comments that touch one another, one of them around a wide character, and one that is cut off. -/
def crowded : Text := "/**//*β*/ c //d\r\n//".toList

theorem areWellFormed_crowded :
    ⟨.block, ⟨4, 10⟩, ['β'], false, true⟩ ∈ (Scanner.ofText true crowded).toList ∧
      IsWellFormed crowded ⟨.block, ⟨4, 10⟩, ['β'], false, true⟩ := by
  have found : ⟨.block, ⟨4, 10⟩, ['β'], false, true⟩ ∈
      (Scanner.ofText true crowded).toList := by
    decide +kernel
  exact ⟨found, ((areWellFormed_toList true crowded).2.1 _ found).1⟩

end Comment

end ScssLint
