/-!
# Texts

A text is the list of its characters.  Positions in a text are byte offsets into its UTF-8 form, so
this module measures texts in bytes (`Text.bytes`), cuts them at byte offsets (`Text.takeBytes`,
`Text.dropBytes`) and says which characters count as white space.
-/

namespace ScssLint

/-- Source material: the characters of a text in order. -/
abbrev Text := List Char

/-- Unicode white space (the property `White_Space`). -/
def isBlank (c : Char) : Bool :=
  let n := c.toNat
  (9 ≤ n && n ≤ 13) || n == 0x20 || n == 0x85 || n == 0xA0 || n == 0x1680 ||
    (0x2000 ≤ n && n ≤ 0x200A) || n == 0x2028 || n == 0x2029 || n == 0x202F || n == 0x205F ||
    n == 0x3000

/-- The white space of stylesheets and markup: space, tab, line feed, form feed, carriage return. -/
def isSpace (c : Char) : Bool :=
  c == ' ' || c == '\t' || c == '\n' || c == '\x0C' || c == '\r'

/-- Stylesheet white space is a part of the Unicode property. -/
theorem isBlank_of_isSpace {c : Char} (hspace : isSpace c = true) : isBlank c = true := by
  simp only [isSpace, Bool.or_eq_true, beq_iff_eq] at hspace
  rcases hspace with (((rfl | rfl) | rfl) | rfl) | rfl <;> rfl

namespace Text

/-- The length of a text in bytes. -/
def bytes : Text → Nat
  | [] => 0
  | c :: rest => c.utf8Size + bytes rest

@[simp] theorem bytes_nil : bytes [] = 0 := rfl

@[simp] theorem bytes_cons (c : Char) (rest : Text) :
    bytes (c :: rest) = c.utf8Size + bytes rest := rfl

@[simp] theorem bytes_append (left right : Text) :
    bytes (left ++ right) = bytes left + bytes right := by
  induction left with
  | nil => simp
  | cons c rest ih => simp [ih, Nat.add_assoc]

@[simp] theorem bytes_reverse (text : Text) : bytes text.reverse = bytes text := by
  induction text with
  | nil => rfl
  | cons c rest ih => simp [ih, Nat.add_comm]

/-- The whole characters among the first `count` bytes. -/
def takeBytes : Nat → Text → Text
  | _, [] => []
  | count, c :: rest =>
      if c.utf8Size ≤ count then c :: takeBytes (count - c.utf8Size) rest else []

/-- What `takeBytes` leaves. -/
def dropBytes : Nat → Text → Text
  | _, [] => []
  | count, c :: rest =>
      if c.utf8Size ≤ count then dropBytes (count - c.utf8Size) rest else c :: rest

/-- The number of characters in the first `count` bytes, if these end between two characters. -/
def charsWithin? : Nat → Text → Option Nat
  | 0, _ => some 0
  | _ + 1, [] => none
  | count + 1, c :: rest =>
      if c.utf8Size ≤ count + 1 then
        (charsWithin? (count + 1 - c.utf8Size) rest).map (· + 1)
      else
        none

/-- The text without the white space at its end. -/
def trimEnd (text : Text) : Text :=
  (text.reverse.dropWhile isBlank).reverse

/-- The text without the white space around it. -/
def trim (text : Text) : Text :=
  trimEnd (text.dropWhile isBlank)

/-- Whether the text begins with `start`. -/
def startsWith (start text : Text) : Bool :=
  start.isPrefixOf text

/-- Whether the text begins with `start` when the case of ASCII letters is ignored. -/
def startsWithAnyCase (start text : Text) : Bool :=
  startsWith (start.map Char.toLower) ((text.take start.length).map Char.toLower)

/-- Whether two texts are equal when the case of ASCII letters is ignored. -/
def equalAnyCase (left right : Text) : Bool :=
  left.map Char.toLower == right.map Char.toLower

/-- The text in front of the first position at which `found` holds of what follows, and what
follows there. -/
def splitWhere (found : Text → Bool) : Text → Option (Text × Text)
  | [] => if found [] then some ([], []) else none
  | c :: rest =>
      if found (c :: rest) then
        some ([], c :: rest)
      else
        (splitWhere found rest).map fun (before, after) => (c :: before, after)

theorem splitWhere_eq {found : Text → Bool} {text before after : Text}
    (hsplit : splitWhere found text = some (before, after)) :
    text = before ++ after ∧ found after = true := by
  induction text generalizing before after with
  | nil =>
      simp only [splitWhere] at hsplit
      split at hsplit <;> simp_all
  | cons c rest ih =>
      simp only [splitWhere] at hsplit
      split at hsplit
      · simp only [Option.some.injEq, Prod.mk.injEq] at hsplit
        obtain ⟨rfl, rfl⟩ := hsplit
        simp_all
      · rename_i hnot
        obtain ⟨⟨before', after'⟩, hrest, hpair⟩ := Option.map_eq_some_iff.1 hsplit
        simp only [Prod.mk.injEq] at hpair
        obtain ⟨rfl, rfl⟩ := hpair
        obtain ⟨htext, hfound⟩ := ih hrest
        exact ⟨by simp [htext], hfound⟩

/-- Whether `part` stands somewhere in the text. -/
def contains (part text : Text) : Bool :=
  (splitWhere (startsWith part) text).isSome

end Text

end ScssLint
