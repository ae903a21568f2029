import ScssLint.Text.Basic

/-!
# Control sequences

Some characters steer a terminal instead of being shown: most control characters, and what follows an
escape character up to the end of its sequence.  `Text.withoutControls` keeps the characters that
are shown.
-/

namespace ScssLint

namespace ControlSequence

/-- What stands in front of a character. -/
inductive Mode where
  /-- No open sequence. -/
  | plain
  /-- An escape character. -/
  | escape
  /-- An escape character and further signs of a short sequence. -/
  | escapeSigns
  /-- The start of a command, with or without parameters. -/
  | command
  /-- The start of a message to a device. -/
  | device
  /-- The start of a message to a device with parameters. -/
  | deviceParameters
  /-- The start of a message to a device with signs behind its parameters. -/
  | deviceSigns
  /-- A message to a device. -/
  | deviceText
  /-- A message to the system, such as a title. -/
  | systemText
deriving DecidableEq, Repr

/-- The characters that no control sequence takes for a control. -/
def isShowable (c : Char) : Bool :=
  isSpace c || (0x20 ≤ c.toNat && c != '\x7F')

/-- Whether a character belongs to a range of code points. -/
def isWithin (low high : Nat) (c : Char) : Bool :=
  low ≤ c.toNat && c.toNat ≤ high

namespace Mode

/-- Whether a control character has its usual effect inside the sequence. -/
def obeysControls : Mode → Bool
  | plain | escape | escapeSigns | command => true
  | _ => false

/-- The mode behind a character that opens, continues or ends a sequence. -/
def after (c : Char) (mode : Mode) : Mode :=
  if c = '\x1B' then
    escape
  else if c = '\x18' ∨ c = '\x1A' then
    plain
  else
    match mode with
    | plain => plain
    | escape =>
        if isWithin 0x20 0x2F c then escapeSigns
        else if c = '[' then command
        else if c = ']' then systemText
        else if c = 'P' then device
        else if c = 'X' ∨ c = '^' ∨ c = '_' then deviceText
        else if isWithin 0x30 0x7E c then plain
        else escape
    | escapeSigns => if isWithin 0x30 0x7E c then plain else escapeSigns
    | command => if isWithin 0x40 0x7E c then plain else command
    | device =>
        if isWithin 0x20 0x2F c then deviceSigns
        else if isWithin 0x30 0x3F c then deviceParameters
        else if isWithin 0x40 0x7E c then deviceText
        else device
    | deviceParameters =>
        if isWithin 0x20 0x2F c then deviceSigns
        else if isWithin 0x3C 0x7E c then deviceText
        else deviceParameters
    | deviceSigns => if isWithin 0x30 0x7E c then deviceText else deviceSigns
    | deviceText => if 0x9C ∈ String.utf8EncodeChar c then plain else deviceText
    | systemText => if c = '\x07' then plain else systemText

/-- Whether a character is shown.  White space other than the space itself is shown inside short
sequences and commands, too, and `isBroken` says that it was the character in front. -/
def shows (isBroken : Bool) (c : Char) (mode : Mode) : Bool :=
  if mode = plain ∨ isBroken then
    isShowable c
  else
    mode.obeysControls && isSpace c && c != ' '

end Mode

/-- The characters of a text that are shown behind a given mode.

White space breaks an open sequence.  What follows it is shown up to the next control character,
behind which the sequence goes on; a character outside ASCII closes a broken sequence. -/
def shown (isBroken : Bool) (mode : Mode) : Text → Text
  | [] => []
  | c :: rest =>
      if mode.shows isBroken c then
        c :: shown true (if c.toNat < 0x80 then mode else .plain) rest
      else
        shown false (mode.after c) rest

theorem isShowable_of_mem_shown {isBroken : Bool} {mode : Mode} {text : Text} {c : Char}
    (hmem : c ∈ shown isBroken mode text) : isShowable c = true := by
  induction text generalizing isBroken mode with
  | nil => simp [shown] at hmem
  | cons first rest ih =>
      unfold shown at hmem
      split at hmem
      · rename_i hshows
        rcases List.mem_cons.1 hmem with rfl | hrest
        · unfold Mode.shows at hshows
          split at hshows
          · exact hshows
          · simp_all [isShowable]
        · exact ih hrest
      · exact ih hmem

end ControlSequence

/-- The text without what steers a terminal. -/
def Text.withoutControls (text : Text) : Text :=
  ControlSequence.shown false .plain text

end ScssLint
