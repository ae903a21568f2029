import ScssLint.Proofs.Comment.Extent
import ScssLint.Proofs.Comment.Overwriting

/-! # Passing over text

A piece of text leads a scanner from one mode to another if no line comment is found in it
(`Comment.Leads`). Pieces that are read one after another lead on from each other
(`Comment.Leads.append`). What leads from ordinary text to ordinary text is passed over
(`Comment.Passes`), and blanking leaves it alone (`Comment.Passes.overwritten`).
-/

namespace ScssLint

namespace Comment

open Scanner (isPlain isPlain_of_isSpace)

/-- Whether a scanner that stands in `mode` between `before` and `text ++ rest` finds in all what it
finds in `mode'` behind `text`, whatever it knows of the line. -/
def Leads (mode mode' : Mode) (before text rest : Text) : Prop :=
  ∀ flag, ∃ later,
    (⟨false, before, text ++ rest, mode, flag⟩ : Scanner).toList =
      (⟨false, text.reverse ++ before, rest, mode', later⟩ : Scanner).toList

/-- Whether a text is ordinary text as a whole, perhaps with strings, `url(` arguments and block
comments in it. -/
abbrev Passes (before text rest : Text) : Prop :=
  Leads .code .code before text rest

namespace Leads

variable {mode mode' mode'' : Mode} {before text rest : Text} {c quote : Char}

theorem nil (mode : Mode) (before rest : Text) : Leads mode mode before [] rest :=
  fun flag => ⟨flag, rfl⟩

theorem append {start : Text} (first : Leads mode mode' before start (text ++ rest))
    (second : Leads mode' mode'' (start.reverse ++ before) text rest) :
    Leads mode mode'' before (start ++ text) rest := by
  intro flag
  obtain ⟨between, reads⟩ := first flag
  obtain ⟨later, goesOn⟩ := second between
  refine ⟨later, ?_⟩
  rw [List.append_assoc, reads, goesOn, List.reverse_append, List.append_assoc]

/-- The text behind the first piece may be given as a whole. -/
theorem trans {start whole : Text} (first : Leads mode mode' before start whole)
    (cut : whole = text ++ rest)
    (second : Leads mode' mode'' (start.reverse ++ before) text rest) :
    Leads mode mode'' before (start ++ text) rest := by
  subst cut
  exact append first second

theorem of_plainChar (plain : isPlain c = true) (before rest : Text) :
    Leads .code .code before [c] rest :=
  fun _ => ⟨_, Scanner.toList_plainChar plain⟩

theorem cons (first : Leads mode mode' before [c] (text ++ rest))
    (second : Leads mode' mode'' (c :: before) text rest) :
    Leads mode mode'' before (c :: text) rest :=
  append first second

/-- A step that finds nothing. -/
theorem step (taken : Text) (flag' : Bool → Bool)
    (react : ∀ flag, (⟨false, before, c :: (taken ++ rest), mode, flag⟩ : Scanner).react c
      (taken ++ rest) = ⟨taken.length, mode', flag' flag, none⟩) :
    Leads mode mode' before (c :: taken) rest := by
  intro flag
  refine ⟨flag' flag, ?_⟩
  rw [List.cons_append, Scanner.toList_step rfl, react flag, List.reverse_cons, List.append_assoc]
  simp only [Scanner.after, List.take_left, List.drop_left]
  rfl

theorem of_plain (plain : ∀ c ∈ text, isPlain c = true) (before rest : Text) :
    Passes before text rest :=
  fun _ => ⟨_, Scanner.toList_plain plain before _⟩

theorem slash (alone : rest.head? ≠ some '/') (noBlock : rest.head? ≠ some '*') (before : Text) :
    Passes before ['/'] rest :=
  fun _ => ⟨true, Scanner.toList_slash alone noBlock⟩

theorem paren (ordinary : (endsInUrl before && !opensQuoted rest) = false) :
    Passes before ['('] rest :=
  fun _ => ⟨true, Scanner.toList_paren ordinary⟩

/-- A backslash in front of a character of its line is read along with it. -/
theorem escape (inLine : c ≠ '\n') (before rest : Text) : Passes before ['\\', c] rest :=
  fun _ => ⟨true, Scanner.toList_escape inLine⟩

/-- A backslash at a line break is passed over by itself, also if it is read along with the
line break. -/
theorem backslash (ended : ∀ c ∈ rest.head?, isSpace c = true) (before : Text) :
    Passes before ['\\'] rest := by
  intro flag
  refine ⟨true, ?_⟩
  by_cases alone : ∀ c ∈ rest.head?, c = '\n'
  · exact Scanner.toList_backslash alone
  · cases rest with
    | nil => exact absurd (fun _ member => absurd member (by simp)) alone
    | cons c rest =>
        have inLine : c ≠ '\n' := fun same => alone fun d member => by
          rw [← Option.some.inj member, same]
        have known : hasCodeAfter true c = true := by simp [hasCodeAfter, inLine]
        change (⟨false, before, '\\' :: c :: rest, .code, flag⟩ : Scanner).toList =
          (⟨false, '\\' :: before, c :: rest, .code, true⟩ : Scanner).toList
        rw [Scanner.toList_escape inLine,
          Scanner.toList_plainChar (isPlain_of_isSpace (ended c rfl)), known]

theorem opensString (mark : quote = '"' ∨ quote = '\'') (before rest : Text) :
    Leads .code (.quoted quote) before [quote] rest :=
  fun _ => ⟨true, Scanner.toList_opensString mark⟩

theorem quoted (other : c ≠ quote) (plain : c ≠ '\\') (before rest : Text) :
    Leads (.quoted quote) (.quoted quote) before [c] rest :=
  fun _ => ⟨_, Scanner.toList_inString other plain⟩

theorem quotedEscape (inLine : '\n' ≠ quote) (before rest : Text) :
    Leads (.quoted quote) (.quoted quote) before ['\\', c] rest :=
  fun _ => ⟨_, Scanner.toList_escapeInString inLine⟩

theorem quotedBackslash (before : Text) :
    Leads (.quoted quote) (.quoted quote) before ['\\'] [] :=
  fun flag => ⟨flag, Scanner.toList_backslashInString.trans (Scanner.toList_nil rfl rfl).symm⟩

theorem closesString (mark : quote = '"' ∨ quote = '\'') (before rest : Text) :
    Leads (.quoted quote) .code before [quote] rest := by
  have noEscape : quote ≠ '\\' := by rcases mark with rfl | rfl <;> decide
  exact fun flag => ⟨flag, Scanner.toList_closesString noEscape⟩

theorem opensUrl (named : endsInUrl before = true) (unquoted : opensQuoted rest = false) :
    Leads .code .url before ['('] rest :=
  fun _ => ⟨true, Scanner.toList_opensUrl named unquoted⟩

theorem inUrl (unclosed : ')' ∉ text) (before rest : Text) : Leads .url .url before text rest := by
  induction text generalizing before with
  | nil => exact nil .url before rest
  | cons c text ih =>
      have other : c ≠ ')' := fun same => unclosed (same ▸ List.mem_cons_self)
      exact cons (fun _ => ⟨_, Scanner.toList_inUrl other⟩)
        (ih (fun member => unclosed (List.mem_cons_of_mem c member)) (c :: before))

theorem closesUrl (before rest : Text) : Leads .url .code before [')'] rest :=
  fun flag => ⟨flag, Scanner.toList_closesUrl⟩

/-- At the end of the text the mode does not matter. -/
theorem atEnd (outside : mode.isLine = false) (outside' : mode'.isLine = false) (before : Text) :
    Leads mode mode' before [] [] := by
  intro flag
  refine ⟨flag, ?_⟩
  rw [Scanner.toList_nil outside rfl]
  exact (Scanner.toList_nil outside' rfl).symm

end Leads

/-- Blanking leaves alone what is passed over. -/
theorem Passes.overwritten {before text rest : Text} (passes : Passes before text rest)
    (flag : Bool) :
    ∃ later, (⟨false, before, text ++ rest, .code, flag⟩ : Scanner).overwritten =
      text ++ (⟨false, text.reverse ++ before, rest, .code, later⟩ : Scanner).overwritten := by
  obtain ⟨later, reads⟩ := passes flag
  refine ⟨later, Scanner.overwritten_append rfl rfl rfl ?_⟩
  rw [Scanner.lines, reads, Scanner.lines]

end Comment

end ScssLint
