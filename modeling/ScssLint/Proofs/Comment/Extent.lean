import ScssLint.Proofs.Comment.Ahead
import ScssLint.Proofs.Comment.Seen
import ScssLint.Proofs.Comment.Steps

/-! # How far a scanner goes

A scanner goes through a string, an unquoted `url(` argument or a block comment character by
character. Each of these runs ends where the segment ends that starts there
(`Comment.Scanner.toList_quoted`, `Comment.Scanner.toList_url`, `Comment.Scanner.toList_block`), and
what the scanner then knows of the line is what the bytes of the run tell.
What a scanner looks at around a parenthesis is told by the bytes there
(`Comment.namesUrl_utf8Before`, `Comment.quoteAhead_utf8`).
-/

namespace ScssLint

namespace Comment

open Text

section Extents

variable {sign quote : Char} {c : Char}

theorem through_wide (ascii : isAscii sign = true) {bytes : List UInt8}
    (wide : ∀ b ∈ bytes, isWideByte b) (rest : List UInt8) :
    through sign.toUInt8 (bytes ++ rest) = bytes.length + through sign.toUInt8 rest := by
  induction bytes with
  | nil => simp
  | cons b bytes ih =>
      have other := ne_toUInt8_of_wide (wide b List.mem_cons_self) ascii
      rw [List.cons_append, through, if_neg other,
        ih fun d member => wide d (List.mem_cons_of_mem b member), List.length_cons]
      omega

theorem through_utf8_self (ascii : isAscii sign = true) (rest : Text) :
    through sign.toUInt8 (utf8 (sign :: rest)) = 1 := by
  rw [utf8_cons_of_ascii ascii, through, if_pos rfl]

theorem through_utf8_cons (ascii : isAscii sign = true) (other : c ≠ sign) (rest : Text) :
    through sign.toUInt8 (utf8 (c :: rest)) = c.utf8Size + through sign.toUInt8 (utf8 rest) := by
  rcases utf8EncodeChar_cases c with ⟨narrow, _⟩ | ⟨_, wide⟩
  · have different : c.toUInt8 ≠ sign.toUInt8 := fun same =>
      other ((toUInt8_inj narrow ascii).1 same)
    rw [utf8_cons_of_ascii narrow, through, if_neg different, utf8Size_of_ascii narrow]
  · rw [utf8_cons, through_wide ascii wide, String.length_utf8EncodeChar]

theorem throughString_wide (ascii : isAscii quote = true) {bytes : List UInt8}
    (wide : ∀ b ∈ bytes, isWideByte b) (rest : List UInt8) :
    throughString quote.toUInt8 false (bytes ++ rest) =
      bytes.length + throughString quote.toUInt8 false rest := by
  induction bytes with
  | nil => simp
  | cons b bytes ih =>
      have first := wide b List.mem_cons_self
      have unescaped : (b == '\\'.toUInt8) = false :=
        beq_eq_false_iff_ne.2 (ne_toUInt8_of_wide first rfl)
      rw [List.cons_append, throughString,
        if_neg fun found => ne_toUInt8_of_wide first ascii found.1,
        unescaped, Bool.and_false, ih fun d member => wide d (List.mem_cons_of_mem b member),
        List.length_cons]
      omega

theorem throughString_utf8_cons (ascii : isAscii quote = true) (other : c ≠ quote)
    (plain : c ≠ '\\') (rest : Text) :
    throughString quote.toUInt8 false (utf8 (c :: rest)) =
      c.utf8Size + throughString quote.toUInt8 false (utf8 rest) := by
  rcases utf8EncodeChar_cases c with ⟨narrow, _⟩ | ⟨_, wide⟩
  · have different : c.toUInt8 ≠ quote.toUInt8 := fun same =>
      other ((toUInt8_inj narrow ascii).1 same)
    have unescaped : (c.toUInt8 == '\\'.toUInt8) = false :=
      beq_eq_false_iff_ne.2 fun same => plain ((toUInt8_inj narrow rfl).1 same)
    rw [utf8_cons_of_ascii narrow, throughString, if_neg fun found => different found.1, unescaped,
      Bool.and_false, utf8Size_of_ascii narrow]
  · rw [utf8_cons, throughString_wide ascii wide, String.length_utf8EncodeChar]

/-- A backslash escapes the first byte behind it; the other bytes of a wide character are no quotes
anyhow. -/
theorem throughString_utf8_escape (ascii : isAscii quote = true) (other : '\\' ≠ quote)
    (rest : Text) :
    throughString quote.toUInt8 false (utf8 ('\\' :: c :: rest)) =
      1 + (c.utf8Size + throughString quote.toUInt8 false (utf8 rest)) := by
  have different : '\\'.toUInt8 ≠ quote.toUInt8 := fun same =>
    other ((toUInt8_inj rfl ascii).1 same)
  obtain ⟨b, bytes, encoded, wide⟩ := exists_utf8EncodeChar c
  have size : c.utf8Size = 1 + bytes.length := by
    rw [← String.length_utf8EncodeChar, encoded, List.length_cons, Nat.add_comm]
  have hidden : throughString quote.toUInt8 true (b :: (bytes ++ utf8 rest)) =
      1 + throughString quote.toUInt8 false (bytes ++ utf8 rest) := by
    rw [throughString, if_neg fun found => Bool.noConfusion found.2, Bool.not_true, Bool.false_and]
  rw [utf8_cons_of_ascii rfl, throughString, if_neg fun found => different found.1, utf8_cons,
    encoded, List.cons_append, Bool.not_false, beq_self_eq_true, Bool.and_true, hidden,
    throughString_wide ascii wide, size, Nat.add_assoc]

theorem throughCloser_wide {bytes : List UInt8} (wide : ∀ b ∈ bytes, isWideByte b)
    (rest : List UInt8) :
    throughCloser? (bytes ++ rest) = (throughCloser? rest).map (bytes.length + ·) := by
  induction bytes with
  | nil => simp
  | cons b bytes ih =>
      have other : b ≠ '*'.toUInt8 := ne_toUInt8_of_wide (wide b List.mem_cons_self) rfl
      rw [List.cons_append, throughCloser?, if_neg fun found => other found.1,
        ih fun d member => wide d (List.mem_cons_of_mem b member), Option.map_map]
      congr 1
      funext count
      simp only [Function.comp, List.length_cons]
      omega

theorem throughCloser_utf8_closer (rest : Text) :
    throughCloser? (utf8 ('*' :: '/' :: rest)) = some 2 := by
  rw [utf8_cons_of_ascii rfl, utf8_cons_of_ascii rfl, throughCloser?, if_pos ⟨rfl, rfl⟩]

theorem throughCloser_utf8_cons {rest : Text} (other : ¬ (c = '*' ∧ rest.head? = some '/')) :
    throughCloser? (utf8 (c :: rest)) = (throughCloser? (utf8 rest)).map (c.utf8Size + ·) := by
  rcases utf8EncodeChar_cases c with ⟨narrow, _⟩ | ⟨_, wide⟩
  · have different : ¬ (c.toUInt8 = '*'.toUInt8 ∧ (utf8 rest).head? = some '/'.toUInt8) := by
      rwa [toUInt8_inj narrow rfl, head?_utf8 rfl]
    rw [utf8_cons_of_ascii narrow, throughCloser?, if_neg different, utf8Size_of_ascii narrow]
  · rw [utf8_cons, throughCloser_wide wide, String.length_utf8EncodeChar]

end Extents

section Looks

theorem isNameByte_wide {b : UInt8} (wide : isWideByte b) : isNameByte b = false := by
  have code : (Char.ofUInt8 b).toNat = b.toNat := UInt8.toNat_toUInt32 b
  have noName : (Char.ofUInt8 b).isAlphanum = false := by
    apply Bool.eq_false_iff.2
    intro alphanum
    have large : 128 ≤ b.toNat := wide
    have ascii := isAscii_of_isAlphanum alphanum
    rw [isAscii, decide_eq_true_eq, code] at ascii
    omega
  simp (disch := decide) only [isNameByte, noName, beq_toUInt8_of_wide wide, Bool.or_self]

theorem isNameByte_toUInt8 {c : Char} (ascii : isAscii c = true) :
    isNameByte c.toUInt8 = (c.isAlphanum || c == '-' || c == '_') := by
  rw [isNameByte, ofUInt8_toUInt8 ascii, beq_toUInt8 ascii rfl, beq_toUInt8 ascii rfl]

theorem isAscii_of_isName {c : Char} (name : (c.isAlphanum || c == '-' || c == '_') = true) :
    isAscii c = true := by
  simp only [Bool.or_eq_true, beq_iff_eq] at name
  rcases name with (letter | rfl) | rfl
  · exact isAscii_of_isAlphanum letter
  · rfl
  · rfl

/-- A function name consists of ASCII characters, so its bytes are its characters. -/
theorem takeWhile_isNameByte (before : Text) :
    (utf8Before before).takeWhile isNameByte =
      (before.takeWhile fun c => c.isAlphanum || c == '-' || c == '_').map Char.toUInt8 := by
  induction before with
  | nil => rfl
  | cons c before ih =>
      rw [utf8Before_cons]
      rcases utf8EncodeChar_cases c with ⟨narrow, single⟩ | ⟨notAscii, wide⟩
      · rw [single, List.reverse_singleton, List.singleton_append, List.takeWhile_cons,
          List.takeWhile_cons, isNameByte_toUInt8 narrow, ih]
        split <;> rfl
      · obtain ⟨b, rest, encoded⟩ := List.exists_cons_of_ne_nil
          (List.reverse_ne_nil_iff.2 (String.utf8EncodeChar_ne_nil (c := c)))
        have last : isWideByte b := by
          apply wide b
          rw [← List.mem_reverse, encoded]
          exact List.mem_cons_self
        rw [encoded, List.cons_append, List.takeWhile_cons_of_neg (by simp [isNameByte_wide last]),
          List.takeWhile_cons_of_neg]
        · rfl
        · intro name
          rw [isAscii_of_isName name] at notAscii
          exact Bool.noConfusion notAscii

theorem namesUrl_utf8Before (before : Text) : namesUrl (utf8Before before) = endsInUrl before := by
  have lowered : (before.takeWhile fun c => c.isAlphanum || c == '-' || c == '_').map
      ((fun b => (Char.ofUInt8 b).toLower) ∘ Char.toUInt8) =
      (before.takeWhile fun c => c.isAlphanum || c == '-' || c == '_').map Char.toLower := by
    apply List.map_congr_left
    intro c member
    have name := List.all_eq_true.1 List.all_takeWhile c member
    rw [Function.comp, ofUInt8_toUInt8 (isAscii_of_isName name)]
  have turned (letters : Text) :
      (letters == ['l', 'r', 'u']) = (letters.reverse == ['u', 'r', 'l']) := by
    rw [Bool.eq_iff_iff, beq_iff_eq, beq_iff_eq, List.reverse_eq_iff]
    rfl
  rw [namesUrl, takeWhile_isNameByte, List.map_map, lowered, turned, ← List.map_reverse]
  rfl

theorem quoteAhead_utf8 (rest : Text) : quoteAhead (utf8 rest) = opensQuoted rest := by
  induction rest with
  | nil => rfl
  | cons c rest ih =>
      rcases utf8EncodeChar_cases c with ⟨narrow, _⟩ | ⟨notAscii, wide⟩
      · have space : isSpaceByte c.toUInt8 = isSpace c := isSpaceByte_toUInt8 narrow
        rw [utf8_cons_of_ascii narrow, quoteAhead]
        cases white : isSpace c with
        | true =>
            rw [List.find?_cons_of_neg (by simp [space, white]), ← quoteAhead, ih]
            have blank : ∀ d ∈ [c], isSpace d = true := by simpa using white
            exact (opensQuoted_append blank rest).symm
        | false =>
            rw [List.find?_cons_of_pos (by simp [space, white]), opensQuoted_cons white,
              Option.any_some, beq_toUInt8 narrow rfl, beq_toUInt8 narrow rfl]
      · obtain ⟨b, bytes, encoded, _⟩ := exists_utf8EncodeChar c
        have first := wide b (encoded ▸ List.mem_cons_self)
        have darkByte : isSpaceByte b = false := isSpaceByte_of_wide first
        have dark : isSpace c = false := isSpace_of_wide notAscii
        rw [utf8_cons, encoded, List.cons_append, quoteAhead,
          List.find?_cons_of_pos (by simp [darkByte]), opensQuoted_cons dark, Option.any_some,
          beq_toUInt8_of_wide first rfl, beq_toUInt8_of_wide first rfl, beq_of_wide notAscii rfl,
          beq_of_wide notAscii rfl]

/-- A line ends at the same place in its bytes. -/
theorem takeWhile_utf8 {line : Text} (whole : '\n' ∉ line) (rest : List UInt8) :
    (utf8 line ++ rest).takeWhile (· ≠ '\n'.toUInt8) =
      utf8 line ++ rest.takeWhile (· ≠ '\n'.toUInt8) := by
  refine List.takeWhile_append_of_pos fun b member => decide_eq_true ?_
  obtain ⟨c, inLine, encodes⟩ := List.mem_flatMap.1 member
  exact ne_newline_of_utf8EncodeChar (fun same => whole (same ▸ inLine)) encodes

end Looks

namespace Scanner

variable {blocks : Bool}

theorem isPlain_of_wide {c : Char} (wide : isAscii c = false) : isPlain c = true := by
  have other {sign : Char} (ascii : isAscii sign = true) : (c != sign) = true := by
    rw [bne, beq_of_wide wide ascii, Bool.not_false]
  rw [isPlain, other rfl, other rfl, other rfl, other rfl, other rfl]
  rfl

/-- **A string is read to its first unescaped quote.** -/
theorem toList_quoted {quote : Char} (mark : quote = '"' ∨ quote = '\'') (rest before : Text)
    (flag : Bool) :
    ∃ inside behind, rest = inside ++ behind ∧
      throughString quote.toUInt8 false (utf8 rest) = bytes inside ∧
      (⟨blocks, before, rest, .quoted quote, flag⟩ : Scanner).toList =
        (⟨blocks, inside.reverse ++ before, behind, .code,
          (codeInString quote inside).foldl seenAfter flag⟩ : Scanner).toList := by
  have ascii : isAscii quote = true := by rcases mark with rfl | rfl <;> rfl
  have escapes : '\\' ≠ quote := by rcases mark with rfl | rfl <;> decide
  have inLine : '\n' ≠ quote := by rcases mark with rfl | rfl <;> decide
  induction left : rest.length using Nat.strongRecOn generalizing rest before flag with
  | _ count ih =>
      subst left
      cases rest with
      | nil =>
          refine ⟨[], [], rfl, rfl, ?_⟩
          rw [toList_nil rfl rfl]
          exact (toList_nil rfl rfl).symm
      | cons c rest =>
          -- A step over `taken` goes on inside the string, where the induction hypothesis applies.
          have onwards (taken behind : Text) (flag' : Bool) (cut : c :: rest = taken ++ behind)
              (read : (⟨blocks, before, c :: rest, .quoted quote, flag⟩ : Scanner).toList =
                (⟨blocks, taken.reverse ++ before, behind, .quoted quote, flag'⟩ : Scanner).toList)
              (seen : ∀ inside, (codeInString quote (taken ++ inside)).foldl seenAfter flag =
                (codeInString quote inside).foldl seenAfter flag')
              (shorter : behind.length < (c :: rest).length)
              (length : throughString quote.toUInt8 false (utf8 (c :: rest)) =
                bytes taken + throughString quote.toUInt8 false (utf8 behind)) :
              ∃ inside behind, c :: rest = inside ++ behind ∧
                throughString quote.toUInt8 false (utf8 (c :: rest)) = bytes inside ∧
                (⟨blocks, before, c :: rest, .quoted quote, flag⟩ : Scanner).toList =
                  (⟨blocks, inside.reverse ++ before, behind, .code,
                    (codeInString quote inside).foldl seenAfter flag⟩ : Scanner).toList := by
            obtain ⟨inside, last, same, extent, reads⟩ :=
              ih _ shorter behind (taken.reverse ++ before) flag' rfl
            refine ⟨taken ++ inside, last, ?_, ?_, ?_⟩
            · rw [cut, same, List.append_assoc]
            · rw [length, extent, bytes_append]
            · rw [read, reads, List.reverse_append, List.append_assoc, seen]
          by_cases isQuote : c = quote
          · subst isQuote
            refine ⟨[c], rest, rfl, ?_, ?_⟩
            · rw [utf8_cons_of_ascii ascii, throughString, if_pos ⟨rfl, rfl⟩, bytes_cons,
                utf8Size_of_ascii ascii]
              rfl
            · rw [codeInString_close ascii inLine.symm]
              exact toList_closesString (Ne.symm escapes)
          by_cases isEscape : c = '\\'
          · subst isEscape
            cases rest with
            | nil =>
                refine ⟨['\\'], [], rfl, ?_, ?_⟩
                · have different : '\\'.toUInt8 ≠ quote.toUInt8 := fun same =>
                    escapes ((toUInt8_inj rfl ascii).1 same)
                  rw [utf8_cons_of_ascii rfl, throughString, if_neg fun found => different found.1]
                  rfl
                · exact toList_backslashInString.trans (toList_nil rfl rfl).symm
            | cons d rest =>
                have length := throughString_utf8_escape (c := d) ascii escapes rest
                have shorter : rest.length < ('\\' :: d :: rest).length := by
                  simp only [List.length_cons]
                  omega
                have size : bytes ['\\', d] = 1 + d.utf8Size := by
                  rw [bytes_cons, bytes_cons, bytes_nil, Nat.add_zero]
                  rfl
                rw [← Nat.add_assoc, ← size] at length
                exact onwards ['\\', d] rest _ rfl (toList_escapeInString inLine)
                  (codeInString_escape ascii) shorter length
          · refine onwards [c] rest (hasCodeAfter flag c) rfl (toList_inString isQuote isEscape)
              (codeInString_cons ascii isQuote isEscape) (Nat.lt_succ_self _) ?_
            rw [throughString_utf8_cons ascii isQuote isEscape, bytes_cons, bytes_nil, Nat.add_zero]

/-- **An unquoted `url(` argument is read to its first closing parenthesis.** -/
theorem toList_url (rest before : Text) (flag : Bool) :
    ∃ inside behind, rest = inside ++ behind ∧
      through ')'.toUInt8 (utf8 rest) = bytes inside ∧
      (⟨blocks, before, rest, .url, flag⟩ : Scanner).toList =
        (⟨blocks, inside.reverse ++ before, behind, .code,
          (codeInUrl inside).foldl seenAfter flag⟩ : Scanner).toList := by
  induction rest generalizing before flag with
  | nil =>
      refine ⟨[], [], rfl, rfl, ?_⟩
      rw [toList_nil rfl rfl]
      exact (toList_nil rfl rfl).symm
  | cons c rest ih =>
      by_cases closes : c = ')'
      · subst closes
        refine ⟨[')'], rest, rfl, through_utf8_self rfl rest, toList_closesUrl.trans ?_⟩
        rw [codeInUrl_close]
        rfl
      · obtain ⟨inside, behind, rfl, extent, read⟩ := ih (c :: before) (hasCodeAfter flag c)
        refine ⟨c :: inside, behind, rfl, ?_, ?_⟩
        · rw [through_utf8_cons rfl closes, extent, bytes_cons]
        · rw [toList_inUrl closes, read, List.reverse_cons, List.append_assoc,
            codeInUrl_cons closes]
          rfl

/-- A block comment without a closing marker swallows the rest of the text. -/
theorem toList_openBlock {rest : Text} (unclosed : throughCloser? (utf8 rest) = none)
    (start : Nat) (inlineBefore : Bool) (body before : Text) (flag : Bool) :
    (⟨blocks, before, rest, .block start inlineBefore body, flag⟩ : Scanner).toList = [] := by
  induction rest generalizing body before flag with
  | nil => exact toList_nil rfl rfl
  | cons c rest ih =>
      have other : ¬ (c = '*' ∧ rest.head? = some '/') := by
        rintro ⟨rfl, second⟩
        obtain ⟨tail, rfl⟩ := List.head?_eq_some_iff.1 second
        rw [throughCloser_utf8_closer] at unclosed
        exact absurd unclosed (Option.some_ne_none 2)
      rw [throughCloser_utf8_cons other, Option.map_eq_none_iff] at unclosed
      rw [toList_step rfl]
      simp only [react, other, ↓reduceIte]
      exact ih unclosed (c :: body) (c :: before) _

/-- **A block comment is read to the first closing marker.** -/
theorem toList_block {rest : Text} {length : Nat}
    (closed : throughCloser? (utf8 rest) = some length) (start : Nat) (inlineBefore : Bool)
    (body before : Text) (flag : Bool) :
    ∃ inside behind whole, rest = inside ++ behind ∧ bytes inside = length ∧
      bytes whole + 2 = bytes body + length ∧
      (⟨blocks, before, rest, .block start inlineBefore body, flag⟩ : Scanner).toList =
        (if blocks then [ofBlock start inlineBefore whole behind] else []) ++
          (⟨blocks, inside.reverse ++ before, behind, .code,
            (codeInComment inside).foldl seenAfter flag⟩ : Scanner).toList := by
  induction rest generalizing body before flag length with
  | nil => exact absurd closed.symm (Option.some_ne_none length)
  | cons c rest ih =>
      by_cases closes : c = '*' ∧ rest.head? = some '/'
      · obtain ⟨rfl, second⟩ := closes
        obtain ⟨behind, rfl⟩ := List.head?_eq_some_iff.1 second
        rw [throughCloser_utf8_closer] at closed
        obtain rfl := Option.some.inj closed
        refine ⟨['*', '/'], behind, body.reverse, rfl, rfl, by rw [bytes_reverse], ?_⟩
        rw [toList_step rfl, codeInComment_cons, codeInComment_cons]
        cases blocks <;> rfl
      · rw [throughCloser_utf8_cons closes] at closed
        obtain ⟨count, found, rfl⟩ := Option.map_eq_some_iff.1 closed
        obtain ⟨inside, behind, whole, rfl, extent, total, read⟩ :=
          ih found (c :: body) (c :: before) (if c = '\n' then false else flag)
        refine ⟨c :: inside, behind, whole, rfl, ?_, ?_, ?_⟩
        · rw [bytes_cons, extent]
        · rw [total, bytes_cons]
          omega
        · rw [toList_step rfl, List.reverse_cons, List.append_assoc, codeInComment_cons]
          simp only [react, closes, ↓reduceIte]
          exact read

end Scanner

end Comment

end ScssLint
