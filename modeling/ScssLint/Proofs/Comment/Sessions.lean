import ScssLint.Proofs.Comment.Concatenation
import ScssLint.Proofs.Comment.Records

/-! # Scanning in sessions

A scanner is asked for its next comment again and again, and copies of it are drained in between.
Whatever it is asked, it answers like the list of the comments of its text
(`Comment.Scanner.answers_eq`). In every step it reads on (`Comment.Scanner.advances`) and keeps
track of the comment that it is in the middle of (`Comment.Scanner.keepsTrack_step`). So a line
comment that is still open at the end of the text is handed out then, behind all others, and of a
block comment nothing is handed out (`Comment.Scanner.runsInSessions`).
-/

namespace ScssLint

namespace Comment

open Text

/-- Where the comment starts that a scanner is in the middle of. -/
def Mode.start? : Mode → Option Nat
  | .line start _ _ | .block start _ _ => some start
  | _ => none

namespace Scanner

/-! ### Requests -/

/-- What a scanner is asked for. -/
inductive Request where
  /-- The next comment. -/
  | next
  /-- All comments that a copy of the scanner still hands out. -/
  | drain
deriving DecidableEq, Repr

/-- What a scanner answers. -/
inductive Answer where
  | comment (comment? : Option Comment)
  | comments (comments : List Comment)
deriving DecidableEq, Repr

/-- The answers of a scanner that is asked for one thing after the other. -/
def answers : Scanner → List Request → List Answer
  | _, [] => []
  | scanner, .next :: requests => .comment scanner.next.1 :: scanner.next.2.answers requests
  | scanner, .drain :: requests => .comments scanner.toList :: scanner.answers requests

/-- What a list of comments answers once `count` of them have been asked for. -/
def answerOf (comments : List Comment) (count : Nat) : Request → Answer
  | .next => .comment comments[count]?
  | .drain => .comments (comments.drop count)

theorem toList_drained (scanner : Scanner) : scanner.drained.toList = [] := by
  fun_induction drained scanner with
  | case1 scanner ended =>
      obtain ⟨blocks, before, rest, mode, flag⟩ := scanner
      subst ended
      cases mode <;> exact toList_nil rfl rfl
  | case2 scanner c rest ahead ih => exact ih

/-- The next comment is the first of those that are still to come; the others are left. -/
theorem next_eq (scanner : Scanner) :
    scanner.next.1 = scanner.toList.head? ∧ scanner.next.2.toList = scanner.toList.tail := by
  rcases next_cases scanner with ⟨ended, none⟩ | ⟨comment, later, found, split, _⟩
  · rw [ended, none]
    exact ⟨rfl, toList_drained scanner⟩
  · rw [found, split]
    exact ⟨rfl, rfl⟩

/-- **A scanner answers like the list of its comments.** -/
theorem answers_eq (scanner : Scanner) (before : List Request) (request : Request)
    (behind : List Request) :
    (scanner.answers (before ++ request :: behind))[before.length]? =
      some (answerOf scanner.toList (before.count .next) request) := by
  induction before generalizing scanner with
  | nil =>
      cases request with
      | next => simp [answers, answerOf, (next_eq scanner).1, List.head?_eq_getElem?]
      | drain => simp [answers, answerOf]
  | cons first before ih =>
      cases first with
      | next =>
          rw [List.cons_append, answers, List.length_cons, List.getElem?_cons_succ, ih,
            (next_eq scanner).2, List.count_cons_self]
          cases request with
          | next => rw [answerOf, answerOf, List.getElem?_tail]
          | drain => rw [answerOf, answerOf, List.drop_tail]
      | drain =>
          rw [List.cons_append, answers, List.length_cons, List.getElem?_cons_succ, ih,
            List.count_cons_of_ne (by decide)]

/-! ### Steps -/

section Steps

variable {scanner : Scanner} {c : Char} {rest : Text}

/-- A step reads its character and what its reaction takes along. -/
theorem source_after (ahead : scanner.rest = c :: rest) (reaction : Reaction) :
    (scanner.after c rest reaction).source = scanner.source := by
  simp only [source, after, ahead, List.reverse_append, List.reverse_reverse, List.reverse_cons,
    List.append_assoc, List.cons_append, List.nil_append, List.take_append_drop]

theorem offset_after (reaction : Reaction) :
    (scanner.after c rest reaction).offset =
      scanner.offset + c.utf8Size + bytes (rest.take reaction.more) := by
  simp only [offset, after, bytes_append, bytes_reverse, bytes_cons]
  omega

theorem offset_le_bytes_source (scanner : Scanner) : scanner.offset ≤ bytes scanner.source := by
  rw [offset, source, bytes_append, bytes_reverse]
  exact Nat.le_add_right _ _

/-- **A step leads forward and not past the end of the text.** -/
theorem advances (ahead : scanner.rest = c :: rest) (reaction : Reaction) :
    scanner.offset < (scanner.after c rest reaction).offset ∧
      (scanner.after c rest reaction).offset ≤ bytes scanner.source := by
  constructor
  · have positive := c.utf8Size_pos
    rw [offset_after]
    omega
  · rw [← source_after ahead reaction]
    exact offset_le_bytes_source _

end Steps

/-! ### The end of the text -/

/-- The scanner once it has read its text. -/
def atEnd (scanner : Scanner) : Scanner :=
  match _hrest : scanner.rest with
  | [] => scanner
  | c :: rest => (scanner.after c rest (scanner.react c rest)).atEnd
termination_by scanner.rest.length
decreasing_by
  rw [_hrest]
  exact length_rest_after_lt ..

/-- The comments that are found before the end of the text. -/
def closed (scanner : Scanner) : List Comment :=
  match _hrest : scanner.rest with
  | [] => []
  | c :: rest =>
      (scanner.react c rest).found.toList ++
        (scanner.after c rest (scanner.react c rest)).closed
termination_by scanner.rest.length
decreasing_by
  rw [_hrest]
  exact length_rest_after_lt ..

section Unfolding

variable {scanner : Scanner} {c : Char} {rest : Text}

theorem closed_nil (ended : scanner.rest = []) : scanner.closed = [] := by
  obtain ⟨blocks, before, rest, mode, flag⟩ := scanner
  subst ended
  rw [closed]

theorem closed_step (ahead : scanner.rest = c :: rest) :
    scanner.closed = (scanner.react c rest).found.toList ++
      (scanner.after c rest (scanner.react c rest)).closed := by
  obtain ⟨blocks, before, rest', mode, flag⟩ := scanner
  subst ahead
  rw [closed]

end Unfolding

/-- Behind the comments that are found before the end there is at most one more. -/
theorem toList_eq_closed_append (scanner : Scanner) :
    scanner.toList = scanner.closed ++ scanner.atEnd.finish.1.toList := by
  fun_induction atEnd scanner with
  | case1 scanner ended =>
      obtain ⟨blocks, before, rest, mode, flag⟩ := scanner
      subst ended
      rw [toList, closed, List.nil_append]
  | case2 scanner c rest ahead ih =>
      rw [toList_step ahead, closed_step ahead, ih, List.append_assoc]

/-- At the end of the text all of it is read. -/
theorem reverse_before_atEnd (scanner : Scanner) :
    scanner.atEnd.before.reverse = scanner.source := by
  fun_induction atEnd scanner with
  | case1 scanner ended => rw [source, ended, List.append_nil]
  | case2 scanner c rest ahead ih => rw [ih, source_after ahead]

/-- Whether the text in front of a scanner ends with what the scanner has read of a comment, if it
is in the middle of one. -/
inductive HasRead (before rest : Text) : Mode → Prop where
  | outside {mode : Mode} (isOpen : mode.isOpen = true) : HasRead before rest mode
  | line {start : Nat} {front body : Text} (inlineBefore : Bool) (starts : bytes front = start)
      (whole : before.reverse = front ++ marked body) (inLine : '\n' ∉ body)
      (atOnce : body = [] ∨ rest = []) :
      HasRead before rest (.line start inlineBefore body)
  | block {start : Nat} {front body : Text} (inlineBefore : Bool) (starts : bytes front = start)
      (whole : before.reverse = front ++ '/' :: '*' :: body.reverse)
      (noCloser : ¬ ['/', '*'] <:+: rest.head?.toList ++ body) :
      HasRead before rest (.block start inlineBefore body)

/-- Where the comment starts that a scanner is in the middle of, or else where the scanner is. -/
def limit (scanner : Scanner) : Nat :=
  scanner.mode.start?.getD scanner.offset

theorem limit_of_isOpen {scanner : Scanner} (isOpen : scanner.mode.isOpen = true) :
    scanner.limit = scanner.offset := by
  obtain ⟨blocks, before, rest, mode, flag⟩ := scanner
  cases mode <;> first | rfl | exact Bool.noConfusion isOpen

/-- How a scanner keeps track of comments when it goes on to another place and finds a comment. -/
structure KeepsTrack (scanner later : Scanner) (found : Option Comment) : Prop where
  read : HasRead later.before later.rest later.mode
  limit : scanner.limit ≤ later.limit
  found : ∀ comment ∈ found, comment.span.stop ≤ later.limit

section Tracking

variable {blocks flag inlineBefore : Bool} {before rest front body : Text} {c : Char} {start : Nat}

/-- A step that finds no comment. -/
theorem keepsTrack_none {scanner later : Scanner}
    (read : HasRead later.before later.rest later.mode) (limit : scanner.limit ≤ later.limit) :
    KeepsTrack scanner later none :=
  ⟨read, limit, fun comment found => absurd found (Option.not_mem_none comment)⟩

/-- A step that finds no comment and stays outside comments. -/
theorem keepsTrack_of_isOpen {scanner later : Scanner} (isOpen : scanner.mode.isOpen = true)
    (stays : later.mode.isOpen = true) (forward : scanner.offset < later.offset) :
    KeepsTrack scanner later none := by
  refine keepsTrack_none (.outside stays) ?_
  rw [limit_of_isOpen isOpen, limit_of_isOpen stays]
  exact Nat.le_of_lt forward

theorem keepsTrack_outside {scanner : Scanner} (isOpen : scanner.mode.isOpen = true)
    (ahead : scanner.rest = c :: rest) :
    KeepsTrack scanner (scanner.after c rest (scanner.react c rest))
      (scanner.react c rest).found := by
  have forward := (advances ahead (scanner.react c rest)).1
  obtain ⟨blocks, before, _, mode, flag⟩ := scanner
  subst ahead
  by_cases starts : mode = .code ∧ c = '/' ∧ (rest.head? = some '/' ∨ rest.head? = some '*')
  · obtain ⟨rfl, rfl, second⟩ := starts
    rcases second with slash | star
    · obtain ⟨tail, rfl⟩ := List.head?_eq_some_iff.1 slash
      rw [react_slashes]
      refine keepsTrack_none (.line flag (bytes_reverse before) ?_ List.not_mem_nil (.inl rfl))
        (Nat.le_refl _)
      simp [after, marked]
    · obtain ⟨tail, rfl⟩ := List.head?_eq_some_iff.1 star
      have reaction : (⟨blocks, before, '/' :: '*' :: tail, .code, flag⟩ : Scanner).react '/'
          ('*' :: tail) = ⟨1, .block (bytes before) flag [], flag, none⟩ := rfl
      rw [reaction]
      refine keepsTrack_none (.block flag (bytes_reverse before) ?_ ?_) (Nat.le_refl _)
      · simp [after]
      · intro found
        have length := found.length_le
        cases tail <;> simp [after] at length
  · obtain ⟨stays, none⟩ := @isOpen_react ⟨blocks, before, c :: rest, mode, flag⟩ c rest isOpen
      fun code slash => ⟨fun second => starts ⟨code, slash, .inl second⟩,
        fun second => starts ⟨code, slash, .inr second⟩⟩
    rw [none]
    exact keepsTrack_of_isOpen isOpen stays forward

/-- A line comment is read to the end of its line, all at once. -/
theorem keepsTrack_line (starts : bytes front = start)
    (whole : before.reverse = front ++ marked []) :
    let scanner : Scanner := ⟨blocks, before, c :: rest, .line start inlineBefore [], flag⟩
    KeepsTrack scanner (scanner.after c rest (scanner.react c rest))
      (scanner.react c rest).found := by
  intro scanner
  have place : bytes before = start + 2 := by
    have size := congrArg bytes whole
    rwa [bytes_reverse, bytes_append, starts, bytes_marked, bytes_nil] at size
  obtain ⟨line, inLine, same | ⟨tail, same⟩⟩ := exists_line (c :: rest)
  · rw [← same] at inLine
    rw [react_lastLine inLine]
    refine keepsTrack_none (.line inlineBefore starts ?_ inLine (.inr ?_)) (Nat.le_refl _)
    · simp [scanner, after, whole, marked]
    · simp [after]
  · rw [react_line inLine same]
    -- The line break is read together with the line, and the comment ends in front of it.
    have stop : start + bytes (marked (withoutReturn line)) ≤
        bytes before + c.utf8Size + bytes (rest.take line.length) := by
      have taken : c :: rest.take line.length = line ++ ['\n'] := by
        have cut := congrArg (List.take (line.length + 1)) same
        rwa [List.take_succ_cons, List.take_length_add_append, List.take_succ_cons,
          List.take_zero] at cut
      have size := congrArg bytes (marked_append_lineEnd line [])
      have size' := congrArg bytes taken
      have slash : '/'.utf8Size = 1 := rfl
      simp only [bytes_append, bytes_cons, bytes_nil, slash] at size size'
      omega
    refine ⟨.outside rfl, ?_, ?_⟩
    · rw [@limit_of_isOpen (scanner.after c rest _) rfl, offset_after]
      exact Nat.le_trans (Nat.le_add_right _ _) stop
    · rintro comment ⟨rfl⟩
      rw [span_ofLine, limit_of_isOpen rfl, offset_after]
      exact stop

/-- A block comment is read character by character, up to its closing marker. -/
theorem keepsTrack_block (starts : bytes front = start)
    (whole : before.reverse = front ++ '/' :: '*' :: body.reverse)
    (noCloser : ¬ ['/', '*'] <:+: c :: body) :
    let scanner : Scanner := ⟨blocks, before, c :: rest, .block start inlineBefore body, flag⟩
    KeepsTrack scanner (scanner.after c rest (scanner.react c rest))
      (scanner.react c rest).found := by
  intro scanner
  by_cases closes : c = '*' ∧ rest.head? = some '/'
  · obtain ⟨rfl, second⟩ := closes
    obtain ⟨tail, rfl⟩ := List.head?_eq_some_iff.1 second
    have slash : '/'.utf8Size = 1 := rfl
    have star : '*'.utf8Size = 1 := rfl
    have stop : start + 2 + bytes body.reverse + 2 = bytes ('/' :: '*' :: before) := by
      have size := congrArg bytes whole
      simp only [bytes_reverse, bytes_append, bytes_cons, starts, slash, star] at size ⊢
      omega
    refine ⟨.outside rfl, ?_, ?_⟩
    · change start ≤ bytes ('/' :: '*' :: before)
      omega
    · intro comment found
      change comment.span.stop ≤ bytes ('/' :: '*' :: before)
      cases blocks with
      | false => cases found
      | true =>
          cases found
          exact Nat.le_of_eq stop
  · have reaction : scanner.react c rest =
        ⟨0, .block start inlineBefore (c :: body), if c = '\n' then false else flag, none⟩ := by
      simp only [scanner, react, closes, ↓reduceIte]
    rw [reaction]
    refine keepsTrack_none (.block inlineBefore starts ?_ ?_) (Nat.le_refl _)
    · simp [scanner, after, whole]
    · intro found
      -- A closer that the new character completes would have been read as one.
      cases rest with
      | nil => exact noCloser found
      | cons d rest =>
          rcases List.infix_cons_iff.1 found with ahead | inside
          · obtain ⟨rfl, second⟩ := List.cons_prefix_cons.1 ahead
            exact closes ⟨(List.cons_prefix_cons.1 second).1.symm, rfl⟩
          · exact noCloser inside

/-- **A scanner keeps track of comments in every step.** -/
theorem keepsTrack_step {scanner : Scanner}
    (read : HasRead scanner.before scanner.rest scanner.mode) (ahead : scanner.rest = c :: rest) :
    KeepsTrack scanner (scanner.after c rest (scanner.react c rest))
      (scanner.react c rest).found := by
  obtain ⟨blocks, before, _, mode, flag⟩ := scanner
  subst ahead
  cases read with
  | outside isOpen => exact keepsTrack_outside isOpen rfl
  | line inlineBefore starts whole _ atOnce =>
      obtain rfl := atOnce.resolve_right (List.cons_ne_nil c rest)
      exact keepsTrack_line starts whole
  | block inlineBefore starts whole noCloser => exact keepsTrack_block starts whole noCloser

/-- **At the end of the text a scanner has kept track of all comments.** -/
theorem keepsTrack_atEnd (scanner : Scanner)
    (read : HasRead scanner.before scanner.rest scanner.mode) :
    HasRead scanner.atEnd.before [] scanner.atEnd.mode ∧ scanner.limit ≤ scanner.atEnd.limit ∧
      ∀ comment ∈ scanner.closed, comment.span.stop ≤ scanner.atEnd.limit := by
  fun_induction atEnd scanner with
  | case1 scanner ended =>
      rw [closed_nil ended]
      exact ⟨ended ▸ read, Nat.le_refl _, List.forall_mem_nil _⟩
  | case2 scanner c rest ahead ih =>
      have step := keepsTrack_step read ahead
      obtain ⟨reads, later, stops⟩ := ih step.read
      refine ⟨reads, Nat.le_trans step.limit later, ?_⟩
      rw [closed_step ahead, List.forall_mem_append]
      refine ⟨fun comment found => ?_, stops⟩
      exact Nat.le_trans (step.found comment (Option.mem_toList.1 found)) later

end Tracking

/-! ### Sessions -/

/-- How a scanner of a text behaves, whatever it is asked for. -/
structure RunsInSessions (blocks : Bool) (source : Text) : Prop where
  /-- The next comment is the one at the place that is asked for, and a copy that is drained hands
  out the comments behind it. -/
  answers : ∀ before request behind,
    ((ofText blocks source).answers (before ++ request :: behind))[before.length]? =
      some (answerOf (ofText blocks source).toList (before.count .next) request)
  /-- A line comment that is still open at the end of the text is handed out once, as the last
  one. -/
  line : ∀ start inlineBefore body,
    (ofText blocks source).atEnd.mode = .line start inlineBefore body →
      ∃ front earlier, source = front ++ marked body ∧ '\n' ∉ body ∧ bytes front = start ∧
        (ofText blocks source).toList = earlier ++ [ofLine start inlineBefore body] ∧
        (ofLine start inlineBefore body).span.stop = bytes source ∧
        ∀ comment ∈ earlier, comment.span.stop ≤ start
  /-- A block comment that is still open at the end of the text is not handed out. -/
  block : ∀ start inlineBefore body,
    (ofText blocks source).atEnd.mode = .block start inlineBefore body →
      ∃ front, source = front ++ '/' :: '*' :: body.reverse ∧ ¬ ['*', '/'] <:+: body.reverse ∧
        bytes front = start ∧ ∀ comment ∈ (ofText blocks source).toList, comment.span.stop ≤ start
  /-- A step leads forward and not past the end of the text. -/
  steps : ∀ (scanner : Scanner) (c : Char) (rest : Text), scanner.source = source →
    scanner.rest = c :: rest →
      let later := scanner.after c rest (scanner.react c rest)
      later.source = source ∧ scanner.offset < later.offset ∧ later.offset ≤ bytes source

/-- **A scanner runs in sessions.** -/
theorem runsInSessions (blocks : Bool) (source : Text) : RunsInSessions blocks source := by
  obtain ⟨read, _, stops⟩ := keepsTrack_atEnd (ofText blocks source) (.outside rfl)
  have all := toList_eq_closed_append (ofText blocks source)
  rw [limit] at stops
  refine ⟨answers_eq _, ?_, ?_, ?_⟩
  · intro start inlineBefore body mode
    rw [mode] at read stops
    rw [finish, mode] at all
    cases read with
    | outside isOpen => exact Bool.noConfusion isOpen
    | @line _ front _ _ starts whole inLine _ =>
        rw [reverse_before_atEnd] at whole
        have whole : source = front ++ marked body := whole
        refine ⟨front, _, whole, inLine, starts, all, ?_, stops⟩
        rw [span_ofLine, whole, bytes_append, starts]
  · intro start inlineBefore body mode
    rw [mode] at read stops
    rw [finish, mode] at all
    cases read with
    | outside isOpen => exact Bool.noConfusion isOpen
    | @block _ front _ _ starts whole noCloser =>
        rw [reverse_before_atEnd] at whole
        refine ⟨front, whole, ?_, starts, ?_⟩
        · rw [← List.reverse_infix, List.reverse_reverse]
          exact noCloser
        · rw [all, Option.toList_none, List.append_nil]
          exact stops
  · rintro scanner c rest rfl ahead
    exact ⟨source_after ahead _, advances ahead _⟩

example : (ofText false "a // b\n//".toList).answers [.next, .drain, .next, .next] =
    [.comment (some (ofLine 2 true [' ', 'b'])), .comments [ofLine 7 false []],
      .comment (some (ofLine 7 false [])), .comment none] := by
  decide +kernel

/-- Whether a comment that is still open at the end of a text is handed out exactly once. -/
def HandsOutOpenComment (blocks : Bool) (source : Text) : Prop :=
  ∀ start, (ofText blocks source).atEnd.mode.start? = some start →
    (ofText blocks source).toList.countP (·.span.start == start) = 1

theorem not_handsOutOpenComment : ¬ HandsOutOpenComment true "/* a".toList := by
  intro handsOut
  exact absurd (handsOut 0 (by decide +kernel)) (by decide +kernel)

end Scanner

end Comment

end ScssLint
