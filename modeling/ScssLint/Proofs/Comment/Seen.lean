import ScssLint.Comment.Scanner
import ScssLint.Proofs.Comment.Segment
import ScssLint.Proofs.Text.Utf8

/-! # Code on a line

Read byte by byte, a line has shown code once one of its bytes counts as code
(`Comment.foldl_seenAfter_iff`). White space does not count, and neither do comments; some bytes
of strings and of `url(` arguments are overlooked (`Comment.Segment.overlooked`): the closing quote,
the backslashes in a string with the bytes that they escape, and the closing parenthesis.
-/

namespace ScssLint

namespace Comment

open Text

/-- Whether code was seen on the line once one more byte is read, which counts as code or not. -/
def seenAfter (seen : Bool) (read : UInt8 × Bool) : Bool :=
  if read.1 = '\n'.toUInt8 then false else seen || read.2

/-- Bytes, each with whether it counts as code, when `overlooked` tells which of them do not
count. -/
def codeOf (bytes : List UInt8) (overlooked : List Bool) : List (UInt8 × Bool) :=
  List.zipWith (fun b hidden => (b, !isSpaceByte b && !hidden)) bytes overlooked

/-- Which bytes behind the opening quote of a string do not count as code: its closing quote, the
backslashes and what they escape. `escaped` says whether a backslash escapes the first byte. -/
def overlookedInString (quote : UInt8) (escaped : Bool) : List UInt8 → List Bool
  | [] => []
  | b :: rest =>
      let escapes := !escaped && b == '\\'.toUInt8
      (escaped || escapes || b == quote) :: overlookedInString quote escapes rest

namespace Segment

/-- Which bytes of a segment do not count as code even if they are no white space. -/
def overlooked (segment : Segment) : List Bool :=
  match segment.kind, segment.bytes with
  | .string, quote :: rest => false :: overlookedInString quote false rest
  | .urlArgument, bytes => bytes.map (· == ')'.toUInt8)
  | _, bytes => bytes.map fun _ => false

/-- The bytes of a segment, each with whether it counts as code. -/
def code (segment : Segment) : List (UInt8 × Bool) :=
  if (segment.comment? true).isSome then segment.bytes.map fun b => (b, false)
  else codeOf segment.bytes segment.overlooked

end Segment

theorem length_overlookedInString (quote : UInt8) (escaped : Bool) (bytes : List UInt8) :
    (overlookedInString quote escaped bytes).length = bytes.length := by
  induction bytes generalizing escaped with
  | nil => rfl
  | cons b bytes ih => rw [overlookedInString, List.length_cons, ih, List.length_cons]

theorem Segment.length_overlooked (segment : Segment) :
    segment.overlooked.length = segment.bytes.length := by
  obtain ⟨kind, start, bytes⟩ := segment
  cases kind with
  | string =>
      cases bytes with
      | nil => rfl
      | cons quote rest => exact congrArg (· + 1) (length_overlookedInString quote false rest)
  | _ => exact List.length_map _

theorem seenAfter_eq_true {seen : Bool} {read : UInt8 × Bool} :
    seenAfter seen read = true ↔ read.1 ≠ '\n'.toUInt8 ∧ (seen = true ∨ read.2 = true) := by
  rw [seenAfter]
  by_cases breaks : read.1 = '\n'.toUInt8
  · simp [breaks]
  · simp [breaks]

/-- **A line has shown code if a byte of it counts as code**, or if it had shown code before. -/
theorem foldl_seenAfter_iff (seen : Bool) (read : List (UInt8 × Bool)) :
    read.foldl seenAfter seen = true ↔
      (seen = true ∧ ∀ byte ∈ read, byte.1 ≠ '\n'.toUInt8) ∨
        ∃ i b, read[i]? = some (b, true) ∧ ∀ byte ∈ read.drop i, byte.1 ≠ '\n'.toUInt8 := by
  induction read generalizing seen with
  | nil => simp
  | cons first rest ih =>
      rw [List.foldl_cons, ih, seenAfter_eq_true]
      constructor
      · rintro (⟨⟨inLine, before | here⟩, whole⟩ | ⟨i, b, counts, whole⟩)
        · exact .inl ⟨before, List.forall_mem_cons.2 ⟨inLine, whole⟩⟩
        · exact .inr ⟨0, first.1, by rw [← here]; rfl, List.forall_mem_cons.2 ⟨inLine, whole⟩⟩
        · exact .inr ⟨i + 1, b, counts, whole⟩
      · rintro (⟨before, whole⟩ | ⟨_ | i, b, counts, whole⟩)
        · exact .inl ⟨⟨whole first List.mem_cons_self, .inl before⟩,
            fun byte member => whole byte (List.mem_cons_of_mem _ member)⟩
        · obtain rfl := Option.some.inj counts
          exact .inl ⟨⟨whole _ List.mem_cons_self, .inr rfl⟩,
            fun byte member => whole byte (List.mem_cons_of_mem _ member)⟩
        · exact .inr ⟨i, b, counts, whole⟩

section Passages

variable {c quote : Char} {seen : Bool}

theorem seenAfter_of_ne {b : UInt8} (inLine : b ≠ '\n'.toUInt8) (counts : Bool) :
    seenAfter seen (b, counts) = (seen || counts) :=
  if_neg inLine

theorem ne_newline_of_utf8EncodeChar (inLine : c ≠ '\n') {b : UInt8}
    (member : b ∈ String.utf8EncodeChar c) : b ≠ '\n'.toUInt8 := by
  rcases utf8EncodeChar_cases c with ⟨narrow, single⟩ | ⟨_, wide⟩
  · rw [single, List.mem_singleton] at member
    subst member
    exact fun same => inLine ((toUInt8_inj narrow rfl).1 same)
  · exact ne_toUInt8_of_wide (wide b member) rfl

theorem isSpaceByte_of_wide {b : UInt8} (wide : isWideByte b) : isSpaceByte b = false := by
  simp (disch := decide) only [isSpaceByte, beq_toUInt8_of_wide wide, Bool.or_self]

theorem isSpaceByte_toUInt8 (ascii : isAscii c = true) : isSpaceByte c.toUInt8 = isSpace c := by
  simp (disch := decide) only [isSpaceByte, isSpace, beq_toUInt8 ascii]

theorem isSpace_of_wide (wide : isAscii c = false) : isSpace c = false := by
  simp (disch := decide) only [isSpace, beq_of_wide wide, Bool.or_self]

/-- Bytes outside ASCII count as code. -/
theorem foldl_seenAfter_wide {bytes : List UInt8} (wide : ∀ b ∈ bytes, isWideByte b) :
    (codeOf bytes (bytes.map fun _ => false)).foldl seenAfter seen =
      (seen || !bytes.isEmpty) := by
  induction bytes generalizing seen with
  | nil => simp [codeOf]
  | cons b bytes ih =>
      have first := wide b List.mem_cons_self
      rw [codeOf, List.map_cons, List.zipWith_cons_cons, List.foldl_cons,
        seenAfter_of_ne (ne_toUInt8_of_wide first rfl), isSpaceByte_of_wide first, ← codeOf,
        ih fun d member => wide d (List.mem_cons_of_mem b member)]
      simp

/-- A character that is read as ordinary text. -/
theorem foldl_seenAfter_char (c : Char) (seen : Bool) :
    (codeOf (String.utf8EncodeChar c) ((String.utf8EncodeChar c).map fun _ => false)).foldl
      seenAfter seen = hasCodeAfter seen c := by
  rcases utf8EncodeChar_cases c with ⟨narrow, single⟩ | ⟨notAscii, wide⟩
  · have breaks : c.toUInt8 = '\n'.toUInt8 ↔ c = '\n' := toUInt8_inj narrow rfl
    simp only [single, codeOf, List.map_cons, List.map_nil, List.zipWith_cons_cons,
      List.zipWith_nil_left, List.foldl_cons, List.foldl_nil, seenAfter, hasCodeAfter, breaks,
      isSpaceByte_toUInt8 narrow, Bool.not_false, Bool.and_true]
  · have inLine : c ≠ '\n' := by
      rintro rfl
      exact Bool.noConfusion notAscii
    have written : (String.utf8EncodeChar c).isEmpty = false :=
      List.isEmpty_eq_false_iff.2 String.utf8EncodeChar_ne_nil
    rw [foldl_seenAfter_wide wide, written, hasCodeAfter, if_neg inLine, isSpace_of_wide notAscii]

theorem codeOf_append {bytes : List UInt8} {overlooked : List Bool}
    (same : bytes.length = overlooked.length) (bytes' : List UInt8) (overlooked' : List Bool) :
    codeOf (bytes ++ bytes') (overlooked ++ overlooked') =
      codeOf bytes overlooked ++ codeOf bytes' overlooked' :=
  List.zipWith_append same

theorem overlookedInString_wide (ascii : isAscii quote = true) {bytes : List UInt8}
    (wide : ∀ b ∈ bytes, isWideByte b) (rest : List UInt8) :
    overlookedInString quote.toUInt8 false (bytes ++ rest) =
      bytes.map (fun _ => false) ++ overlookedInString quote.toUInt8 false rest := by
  induction bytes with
  | nil => rfl
  | cons b bytes ih =>
      have first := wide b List.mem_cons_self
      rw [List.cons_append, overlookedInString, beq_toUInt8_of_wide first rfl,
        beq_toUInt8_of_wide first ascii]
      exact congrArg _ (ih fun d member => wide d (List.mem_cons_of_mem b member))

theorem overlookedInString_utf8_cons (ascii : isAscii quote = true) (other : c ≠ quote)
    (plain : c ≠ '\\') (rest : Text) :
    overlookedInString quote.toUInt8 false (utf8 (c :: rest)) =
      (String.utf8EncodeChar c).map (fun _ => false) ++
        overlookedInString quote.toUInt8 false (utf8 rest) := by
  rw [utf8_cons]
  rcases utf8EncodeChar_cases c with ⟨narrow, single⟩ | ⟨_, wide⟩
  · rw [single, List.singleton_append, overlookedInString, beq_toUInt8 narrow rfl,
      beq_toUInt8 narrow ascii, beq_false_of_ne other, beq_false_of_ne plain]
    rfl
  · exact overlookedInString_wide ascii wide (utf8 rest)

/-- The bytes of a passage of a string, each with whether it counts as code. -/
def codeInString (quote : Char) (passage : Text) : List (UInt8 × Bool) :=
  codeOf (utf8 passage) (overlookedInString quote.toUInt8 false (utf8 passage))

theorem codeInString_cons (ascii : isAscii quote = true) (other : c ≠ quote) (plain : c ≠ '\\')
    (rest : Text) :
    (codeInString quote (c :: rest)).foldl seenAfter seen =
      (codeInString quote rest).foldl seenAfter (hasCodeAfter seen c) := by
  rw [codeInString, overlookedInString_utf8_cons ascii other plain, utf8_cons,
    codeOf_append (List.length_map _).symm, List.foldl_append, foldl_seenAfter_char]
  rfl

/-- A byte of which nothing is said but whether it ends the line. -/
theorem seenAfter_overlooked (seen : Bool) (b : UInt8) :
    seenAfter seen (b, false) = if b = '\n'.toUInt8 then false else seen := by
  rw [seenAfter, Bool.or_false]

/-- Of an escaped character outside ASCII only the first byte is overlooked. -/
theorem codeInString_escape (ascii : isAscii quote = true) (rest : Text) :
    (codeInString quote ('\\' :: c :: rest)).foldl seenAfter seen =
      (codeInString quote rest).foldl seenAfter
        (if c = '\n' then false else seen || decide (1 < c.utf8Size)) := by
  obtain ⟨b, bytes, encoded, wide⟩ := exists_utf8EncodeChar c
  have size : c.utf8Size = bytes.length + 1 := by
    rw [← String.length_utf8EncodeChar, encoded, List.length_cons]
  have several : decide (1 < c.utf8Size) = !bytes.isEmpty := by
    rw [size]
    cases bytes <;> simp
  have breaks : b = '\n'.toUInt8 ↔ c = '\n' := by
    rcases utf8EncodeChar_cases c with ⟨narrow, single⟩ | ⟨notAscii, allWide⟩
    · rw [(List.cons.inj (encoded.symm.trans single)).1, toUInt8_inj narrow rfl]
    · have first : isWideByte b := allWide b (encoded ▸ List.mem_cons_self)
      refine iff_of_false (ne_toUInt8_of_wide first rfl) ?_
      rintro rfl
      exact Bool.noConfusion notAscii
  have hidden : overlookedInString quote.toUInt8 true (b :: (bytes ++ utf8 rest)) =
      true :: (bytes.map (fun _ => false) ++ overlookedInString quote.toUInt8 false (utf8 rest)) :=
    congrArg (true :: ·) (overlookedInString_wide ascii wide (utf8 rest))
  have shown : (codeInString quote ('\\' :: c :: rest)) =
      ('\\'.toUInt8, false) :: (b, false) ::
        (codeOf bytes (bytes.map fun _ => false) ++ codeInString quote rest) := by
    rw [codeInString, utf8_cons_of_ascii rfl, utf8_cons, encoded, List.cons_append,
      overlookedInString, Bool.not_false, beq_self_eq_true, Bool.and_true, hidden, codeInString,
      ← codeOf_append (List.length_map _).symm]
    simp [codeOf]
  rw [shown, List.foldl_cons, List.foldl_cons, List.foldl_append, foldl_seenAfter_wide wide,
    seenAfter_overlooked, seenAfter_overlooked, several]
  by_cases isBreak : c = '\n'
  · subst isBreak
    obtain rfl : bytes = [] := List.length_eq_zero_iff.1 (Nat.succ.inj size.symm)
    rw [if_pos (breaks.2 rfl), if_pos rfl]
    rfl
  · rw [if_neg fun same => isBreak (breaks.1 same), if_neg isBreak, if_neg (by decide)]

theorem codeInString_close (ascii : isAscii quote = true) (inLine : quote ≠ '\n') :
    (codeInString quote [quote]).foldl seenAfter seen = seen := by
  have different : quote.toUInt8 ≠ '\n'.toUInt8 := fun same =>
    inLine ((toUInt8_inj ascii rfl).1 same)
  rw [codeInString, utf8_cons_of_ascii ascii, utf8_nil, overlookedInString, beq_self_eq_true,
    Bool.or_true]
  simp only [codeOf, overlookedInString, List.zipWith_cons_cons, List.zipWith_nil_left,
    List.foldl_cons, List.foldl_nil, Bool.not_true, Bool.and_false]
  rw [seenAfter_overlooked, if_neg different]

/-- The bytes of a passage of a `url(` argument, each with whether it counts as code. -/
def codeInUrl (passage : Text) : List (UInt8 × Bool) :=
  codeOf (utf8 passage) ((utf8 passage).map (· == ')'.toUInt8))

theorem codeInUrl_cons (other : c ≠ ')') (rest : Text) :
    (codeInUrl (c :: rest)).foldl seenAfter seen =
      (codeInUrl rest).foldl seenAfter (hasCodeAfter seen c) := by
  have shown : (String.utf8EncodeChar c).map (· == ')'.toUInt8) =
      (String.utf8EncodeChar c).map fun _ => false := by
    rcases utf8EncodeChar_cases c with ⟨narrow, single⟩ | ⟨_, wide⟩
    · rw [single, List.map_singleton, List.map_singleton, beq_toUInt8 narrow rfl,
        beq_false_of_ne other]
    · exact List.map_congr_left fun b member => beq_toUInt8_of_wide (wide b member) rfl
  rw [codeInUrl, utf8_cons, List.map_append, codeOf_append (List.length_map _).symm,
    List.foldl_append, shown, foldl_seenAfter_char]
  rfl

theorem codeInUrl_close : (codeInUrl [')']).foldl seenAfter seen = seen :=
  seenAfter_overlooked seen ')'.toUInt8

/-- The bytes of a passage of a comment, none of which counts as code. -/
def codeInComment (passage : Text) : List (UInt8 × Bool) :=
  (utf8 passage).map fun b => (b, false)

theorem codeInComment_cons (c : Char) (rest : Text) :
    (codeInComment (c :: rest)).foldl seenAfter seen =
      (codeInComment rest).foldl seenAfter (if c = '\n' then false else seen) := by
  have shown : ((String.utf8EncodeChar c).map fun b => (b, false)).foldl seenAfter seen =
      if c = '\n' then false else seen := by
    rcases utf8EncodeChar_cases c with ⟨narrow, single⟩ | ⟨notAscii, wide⟩
    · simp only [single, List.map_cons, List.map_nil, List.foldl_cons, List.foldl_nil,
        seenAfter_overlooked, toUInt8_inj narrow (d := '\n') rfl]
    · have inLine : c ≠ '\n' := by
        rintro rfl
        exact Bool.noConfusion notAscii
      rw [if_neg inLine]
      clear notAscii
      generalize String.utf8EncodeChar c = bytes at wide
      induction bytes with
      | nil => rfl
      | cons b bytes ih =>
          rw [List.map_cons, List.foldl_cons, seenAfter_overlooked,
            if_neg (ne_toUInt8_of_wide (wide b List.mem_cons_self) rfl),
            ih fun d member => wide d (List.mem_cons_of_mem b member)]
  rw [codeInComment, utf8_cons, List.map_append, List.foldl_append, shown]
  rfl

theorem foldl_code_string (opens : quote = '"' ∨ quote = '\'') (start : Nat) (inside : Text)
    (seen : Bool) :
    (Segment.code ⟨.string, start, utf8 (quote :: inside)⟩).foldl seenAfter seen =
      (codeInString quote inside).foldl seenAfter true := by
  have ascii : isAscii quote = true := by rcases opens with rfl | rfl <;> rfl
  have first : seenAfter seen (quote.toUInt8, !isSpaceByte quote.toUInt8 && !false) = true := by
    rcases opens with rfl | rfl <;> exact Bool.or_true seen
  rw [utf8_cons_of_ascii ascii]
  exact congrArg (List.foldl seenAfter · (codeInString quote inside)) first

theorem foldl_code_url (start : Nat) (inside : Text) (seen : Bool) :
    (Segment.code ⟨.urlArgument, start, utf8 ('(' :: inside)⟩).foldl seenAfter seen =
      (codeInUrl inside).foldl seenAfter true := by
  have first : seenAfter seen ('('.toUInt8, true) = true := Bool.or_true seen
  rw [utf8_cons_of_ascii (c := '(') rfl]
  exact congrArg (List.foldl seenAfter · (codeInUrl inside)) first

theorem foldl_code_plain (ascii : isAscii c = true) (start : Nat) (seen : Bool) :
    (Segment.code ⟨.plain, start, utf8 [c]⟩).foldl seenAfter seen = hasCodeAfter seen c := by
  rw [← foldl_seenAfter_char, utf8EncodeChar_of_ascii ascii, utf8_cons_of_ascii ascii]
  rfl

end Passages

end Comment

end ScssLint
