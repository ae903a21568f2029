import Mathlib.Tactic.SplitIfs
import ScssLint.Text.Basic

/-! # The bytes of a text

Offsets count the bytes of a text's UTF-8 form. This module gives that form (`Text.utf8`) and says
which of its bytes are characters of their own: an ASCII character is one byte below 128
(`Text.utf8_cons_of_ascii`), and all bytes of any other character are 128 or more
(`Text.le_toNat_of_mem_utf8EncodeChar`). A cut at an offset behind a whole beginning of the text
keeps that beginning (`Text.takeBytes_append`, `Text.dropBytes_append`). A text that comes before
another one character by character also does byte by byte (`Text.utf8_lt_utf8`).
-/

namespace ScssLint

/-- Whether a character is one of the 128 that take a single byte. -/
def isAscii (c : Char) : Bool :=
  c.toNat < 128

section Letters

variable {c : Char}

theorem toNat_of_isLower (lower : c.isLower = true) : 97 ≤ c.toNat ∧ c.toNat ≤ 122 := by
  have bounds : (decide ('a'.val ≤ c.val) && decide (c.val ≤ 'z'.val)) = true := lower
  rw [Bool.and_eq_true, decide_eq_true_eq, decide_eq_true_eq] at bounds
  exact bounds

theorem toNat_of_isUpper (upper : c.isUpper = true) : 65 ≤ c.toNat ∧ c.toNat ≤ 90 := by
  have bounds : 'A'.val ≤ c.val ∧ c.val ≤ 'Z'.val := of_decide_eq_true upper
  exact bounds

theorem toNat_of_isDigit (digit : c.isDigit = true) : 48 ≤ c.toNat ∧ c.toNat ≤ 57 := by
  have bounds : (decide ('0'.val ≤ c.val) && decide (c.val ≤ '9'.val)) = true := digit
  rw [Bool.and_eq_true, decide_eq_true_eq, decide_eq_true_eq] at bounds
  exact bounds

theorem isAlpha_of_isLower (lower : c.isLower = true) : c.isAlpha = true := by
  change (c.isUpper || c.isLower) = true
  rw [lower, Bool.or_true]

theorem isAscii_of_isAlphanum (alphanum : c.isAlphanum = true) : isAscii c = true := by
  have either : ((c.isUpper || c.isLower) || c.isDigit) = true := alphanum
  rw [Bool.or_eq_true, Bool.or_eq_true] at either
  rw [isAscii, decide_eq_true_eq]
  rcases either with (upper | lower) | digit
  · have bounds := toNat_of_isUpper upper
    omega
  · have bounds := toNat_of_isLower lower
    omega
  · have bounds := toNat_of_isDigit digit
    omega

end Letters

namespace Text

/-- The bytes of a text. -/
def utf8 (text : Text) : List UInt8 :=
  text.flatMap String.utf8EncodeChar

@[simp] theorem utf8_nil : utf8 [] = [] := rfl

theorem utf8_cons (c : Char) (rest : Text) :
    utf8 (c :: rest) = String.utf8EncodeChar c ++ utf8 rest := by
  simp only [utf8, List.flatMap_cons]

@[simp] theorem utf8_append (left right : Text) :
    utf8 (left ++ right) = utf8 left ++ utf8 right := by
  simp only [utf8, List.flatMap_append]

@[simp] theorem length_utf8 (text : Text) : (utf8 text).length = bytes text := by
  induction text with
  | nil => rfl
  | cons c rest ih =>
      rw [utf8_cons, List.length_append, String.length_utf8EncodeChar, ih, bytes_cons]

theorem utf8EncodeChar_of_ascii {c : Char} (ascii : isAscii c = true) :
    String.utf8EncodeChar c = [c.toUInt8] := by
  have small : c.val.toNat ≤ 0x7f := by
    simp only [isAscii, Char.toNat, decide_eq_true_eq] at ascii
    omega
  have encoded : String.utf8EncodeChar c = [UInt8.ofNat c.val.toNat] := by
    simp only [String.utf8EncodeChar, small, ↓reduceIte]
  rw [encoded]
  rfl

theorem utf8_cons_of_ascii {c : Char} (ascii : isAscii c = true) (rest : Text) :
    utf8 (c :: rest) = c.toUInt8 :: utf8 rest := by
  rw [utf8_cons, utf8EncodeChar_of_ascii ascii, List.singleton_append]

theorem utf8Size_of_ascii {c : Char} (ascii : isAscii c = true) : c.utf8Size = 1 := by
  rw [← String.length_utf8EncodeChar, utf8EncodeChar_of_ascii ascii, List.length_singleton]

/-- No byte of a character outside ASCII can be taken for an ASCII character. -/
theorem le_toNat_of_mem_utf8EncodeChar {c : Char} (wide : isAscii c = false) {b : UInt8}
    (member : b ∈ String.utf8EncodeChar c) : 128 ≤ b.toNat := by
  have large : ¬ c.val.toNat ≤ 0x7f := by
    simp only [isAscii, Char.toNat, decide_eq_false_iff_not] at wide
    omega
  simp only [String.utf8EncodeChar, large, ↓reduceIte] at member
  split at member
  · simp only [List.mem_cons, List.not_mem_nil, or_false] at member
    rcases member with rfl | rfl <;> simp only [UInt8.toNat_ofNat'] <;> omega
  · split at member
    · simp only [List.mem_cons, List.not_mem_nil, or_false] at member
      rcases member with rfl | rfl | rfl <;> simp only [UInt8.toNat_ofNat'] <;> omega
    · simp only [List.mem_cons, List.not_mem_nil, or_false] at member
      rcases member with rfl | rfl | rfl | rfl <;> simp only [UInt8.toNat_ofNat'] <;> omega

/-- A byte that is no ASCII character. -/
def isWideByte (b : UInt8) : Prop :=
  128 ≤ b.toNat

theorem toNat_toUInt8_of_ascii {c : Char} (ascii : isAscii c = true) :
    c.toUInt8.toNat = c.toNat := by
  simp only [isAscii, decide_eq_true_eq] at ascii
  change c.toNat % 256 = c.toNat
  omega

/-- ASCII characters are told apart by their bytes. -/
theorem toUInt8_inj {c d : Char} (ascii : isAscii c = true) (ascii' : isAscii d = true) :
    c.toUInt8 = d.toUInt8 ↔ c = d := by
  constructor
  · intro same
    have codes : c.toNat = d.toNat := by
      rw [← toNat_toUInt8_of_ascii ascii, ← toNat_toUInt8_of_ascii ascii', same]
    exact Char.ext (UInt32.toNat_inj.1 codes)
  · rintro rfl
    rfl

theorem ne_toUInt8_of_wide {b : UInt8} {c : Char} (wide : isWideByte b) (ascii : isAscii c = true) :
    b ≠ c.toUInt8 := by
  rintro rfl
  rw [isWideByte, toNat_toUInt8_of_ascii ascii] at wide
  simp only [isAscii, decide_eq_true_eq] at ascii
  omega

theorem beq_toUInt8 {c sign : Char} (ascii : isAscii c = true) (ascii' : isAscii sign = true) :
    (c.toUInt8 == sign.toUInt8) = (c == sign) := by
  rw [Bool.eq_iff_iff, beq_iff_eq, beq_iff_eq, toUInt8_inj ascii ascii']

theorem beq_toUInt8_of_wide {b : UInt8} {sign : Char} (wide : isWideByte b)
    (ascii : isAscii sign = true) : (b == sign.toUInt8) = false :=
  beq_eq_false_iff_ne.2 (ne_toUInt8_of_wide wide ascii)

theorem beq_of_wide {c sign : Char} (wide : isAscii c = false) (ascii : isAscii sign = true) :
    (c == sign) = false := by
  apply beq_eq_false_iff_ne.2
  rintro rfl
  rw [ascii] at wide
  exact Bool.noConfusion wide

theorem ofUInt8_toUInt8 {c : Char} (ascii : isAscii c = true) : Char.ofUInt8 c.toUInt8 = c := by
  refine Char.ext (UInt32.toNat_inj.1 ?_)
  have same := toNat_toUInt8_of_ascii ascii
  change c.toUInt8.toUInt32.toNat = c.toNat
  rw [UInt8.toNat_toUInt32, same]

/-- The bytes of a character: one byte for an ASCII character, otherwise wide bytes only. -/
theorem utf8EncodeChar_cases (c : Char) :
    (isAscii c = true ∧ String.utf8EncodeChar c = [c.toUInt8]) ∨
      (isAscii c = false ∧ ∀ b ∈ String.utf8EncodeChar c, isWideByte b) := by
  cases ascii : isAscii c with
  | true => exact .inl ⟨rfl, utf8EncodeChar_of_ascii ascii⟩
  | false => exact .inr ⟨rfl, fun b => le_toNat_of_mem_utf8EncodeChar ascii⟩

/-- Behind the first byte of a character there are wide bytes only. -/
theorem exists_utf8EncodeChar (c : Char) :
    ∃ b bytes, String.utf8EncodeChar c = b :: bytes ∧ ∀ d ∈ bytes, isWideByte d := by
  obtain ⟨b, bytes, encoded⟩ :=
    List.exists_cons_of_ne_nil (String.utf8EncodeChar_ne_nil (c := c))
  refine ⟨b, bytes, encoded, fun d member => ?_⟩
  rcases utf8EncodeChar_cases c with ⟨_, single⟩ | ⟨_, wide⟩
  · rw [encoded] at single
    rw [(List.cons.inj single).2] at member
    exact absurd member List.not_mem_nil
  · exact wide d (encoded ▸ List.mem_cons_of_mem b member)

/-- An ASCII character is first among the characters if it is first among the bytes. -/
theorem head?_utf8 {sign : Char} (ascii : isAscii sign = true) (text : Text) :
    (utf8 text).head? = some sign.toUInt8 ↔ text.head? = some sign := by
  cases text with
  | nil => simp
  | cons c rest =>
      rw [utf8_cons, List.head?_cons, Option.some.injEq]
      rcases utf8EncodeChar_cases c with ⟨narrow, bytes⟩ | ⟨notAscii, wide⟩
      · rw [bytes, List.singleton_append, List.head?_cons, Option.some.injEq,
          toUInt8_inj narrow ascii]
      · obtain ⟨b, bytes, encoded, _⟩ := exists_utf8EncodeChar c
        have first := wide b (encoded ▸ List.mem_cons_self)
        rw [encoded, List.cons_append, List.head?_cons, Option.some.injEq]
        constructor
        · exact fun same => absurd same (ne_toUInt8_of_wide first ascii)
        · rintro rfl
          rw [ascii] at notAscii
          exact Bool.noConfusion notAscii

/-- The bytes in front of a place, last one first, for the characters there, last one first. -/
def utf8Before (before : Text) : List UInt8 :=
  (utf8 before.reverse).reverse

theorem utf8Before_append (read before : Text) :
    utf8Before (read.reverse ++ before) = (utf8 read).reverse ++ utf8Before before := by
  simp only [utf8Before, List.reverse_append, List.reverse_reverse, utf8_append]

theorem utf8Before_cons (c : Char) (before : Text) :
    utf8Before (c :: before) = (String.utf8EncodeChar c).reverse ++ utf8Before before := by
  have read := utf8Before_append [c] before
  rwa [utf8_cons, utf8_nil, List.append_nil] at read

@[simp] theorem length_utf8Before (before : Text) :
    (utf8Before before).length = bytes before := by
  rw [utf8Before, List.length_reverse, length_utf8, bytes_reverse]

theorem bytes_pos {text : Text} (written : text ≠ []) : 0 < bytes text := by
  obtain ⟨c, rest, rfl⟩ := List.exists_cons_of_ne_nil written
  exact Nat.lt_of_lt_of_le c.utf8Size_pos (Nat.le_add_right _ _)

@[simp] theorem takeBytes_zero (text : Text) : takeBytes 0 text = [] := by
  cases text with
  | nil => rfl
  | cons c rest =>
      have positive : ¬ c.utf8Size ≤ 0 := Nat.not_le.2 c.utf8Size_pos
      simp only [takeBytes, positive, ↓reduceIte]

@[simp] theorem dropBytes_zero (text : Text) : dropBytes 0 text = text := by
  cases text with
  | nil => rfl
  | cons c rest =>
      have positive : ¬ c.utf8Size ≤ 0 := Nat.not_le.2 c.utf8Size_pos
      simp only [dropBytes, positive, ↓reduceIte]

theorem takeBytes_append {count : Nat} {start : Text} (whole : bytes start ≤ count) (rest : Text) :
    takeBytes count (start ++ rest) = start ++ takeBytes (count - bytes start) rest := by
  induction start generalizing count with
  | nil => simp
  | cons c start ih =>
      rw [bytes_cons] at whole ⊢
      have fits : c.utf8Size ≤ count := by omega
      have cut := ih (show bytes start ≤ count - c.utf8Size by omega)
      rw [Nat.sub_sub] at cut
      simp only [List.cons_append, takeBytes, fits, ↓reduceIte, cut]

theorem dropBytes_append {count : Nat} {start : Text} (whole : bytes start ≤ count) (rest : Text) :
    dropBytes count (start ++ rest) = dropBytes (count - bytes start) rest := by
  induction start generalizing count with
  | nil => simp
  | cons c start ih =>
      rw [bytes_cons] at whole ⊢
      have fits : c.utf8Size ≤ count := by omega
      have cut := ih (show bytes start ≤ count - c.utf8Size by omega)
      rw [Nat.sub_sub] at cut
      simp only [List.cons_append, dropBytes, fits, ↓reduceIte, cut]

/-- Two cuts behind as many bytes are the same. -/
theorem append_inj_of_bytes {start start' rest rest' : Text}
    (same : start ++ rest = start' ++ rest') (length : bytes start = bytes start') :
    start = start' ∧ rest = rest' := by
  have front := congrArg (takeBytes (bytes start)) same
  rw [takeBytes_append (Nat.le_refl _), length, takeBytes_append (Nat.le_refl _)] at front
  simp only [Nat.sub_self, takeBytes_zero, List.append_nil] at front
  subst front
  exact ⟨rfl, List.append_cancel_left same⟩

/-- Whether an offset lies between two characters of a text or at one of its ends. -/
def IsBoundary (text : Text) (offset : Nat) : Prop :=
  ∃ before behind, text = before ++ behind ∧ bytes before = offset

theorem isBoundary_append (before behind : Text) : IsBoundary (before ++ behind) (bytes before) :=
  ⟨before, behind, rfl, rfl⟩

theorem IsBoundary.behind {text : Text} {offset : Nat} (boundary : IsBoundary text offset)
    (start : Text) : IsBoundary (start ++ text) (bytes start + offset) := by
  obtain ⟨before, behind, rfl, rfl⟩ := boundary
  exact ⟨start ++ before, behind, (List.append_assoc start before behind).symm,
    bytes_append start before⟩

/-! ### The order of bytes -/

theorem utf8EncodeChar_append_lt {c d : Char} (less : c < d) (rest rest' : List UInt8) :
    String.utf8EncodeChar c ++ rest < String.utf8EncodeChar d ++ rest' := by
  have codes : c.val.toNat < d.val.toNat := less
  have bound : d.val.toNat < 0x110000 := by
    have valid := d.valid
    unfold UInt32.isValidChar Nat.isValidChar at valid
    omega
  simp only [String.utf8EncodeChar]
  split_ifs
  -- the smaller code never takes more bytes
  all_goals try omega
  all_goals
    simp only [List.cons_append, List.nil_append, List.cons_lt_cons_iff, UInt8.lt_iff_toNat_lt,
      ← UInt8.toNat_inj, UInt8.toNat_ofNat']
    simp (disch := omega) only [Nat.mod_eq_of_lt]
    omega

/-- Texts are in the order of their bytes. -/
theorem utf8_lt_utf8 {text other : Text} (less : text < other) : utf8 text < utf8 other := by
  induction text generalizing other with
  | nil =>
      cases other with
      | nil => exact absurd less (List.not_lt_nil _)
      | cons d other =>
          obtain ⟨b, bytes, encoded, _⟩ := exists_utf8EncodeChar d
          rw [utf8_nil, utf8_cons, encoded]
          exact List.nil_lt_cons b _
  | cons c text ih =>
      cases other with
      | nil => exact absurd less (List.not_lt_nil _)
      | cons d other =>
          rw [utf8_cons, utf8_cons]
          rcases List.cons_lt_cons_iff.1 less with first | ⟨rfl, behind⟩
          · exact utf8EncodeChar_append_lt first _ _
          · exact List.append_left_lt (ih behind)

end Text

end ScssLint
