import ScssLint.Proofs.Comment.Found
import ScssLint.Proofs.Stylesheet.Statements

/-! # Blanking documents

Blanking a document writes its gaps with spaces in place of the line comments and leaves everything
else alone (`Document.blankLineComments_text`).
-/

namespace ScssLint

open Comment

/-- Whether blanking makes `blanked` of `text` wherever it stands in ordinary text. -/
def BlanksTo (text blanked : Text) : Prop :=
  ∀ before rest flag, ∃ later,
    (⟨false, before, text ++ rest, .code, flag⟩ : Scanner).overwritten =
      blanked ++ (⟨false, text.reverse ++ before, rest, .code, later⟩ : Scanner).overwritten

namespace BlanksTo

variable {text blanked : Text}

theorem nil : BlanksTo [] [] :=
  fun _ _ flag => ⟨flag, rfl⟩

theorem append {behind blankedBehind : Text} (first : BlanksTo text blanked)
    (second : BlanksTo behind blankedBehind) :
    BlanksTo (text ++ behind) (blanked ++ blankedBehind) := by
  intro before rest flag
  obtain ⟨between, reads⟩ := first before (behind ++ rest) flag
  obtain ⟨later, goesOn⟩ := second (text.reverse ++ before) rest between
  refine ⟨later, ?_⟩
  rw [List.append_assoc, reads, goesOn, List.reverse_append, List.append_assoc, List.append_assoc]

theorem of_passes (passes : ∀ before rest, Passes before text rest) : BlanksTo text text :=
  fun before rest => (passes before rest).overwritten

theorem of_plain (plain : ∀ c ∈ text, Scanner.isPlain c = true) : BlanksTo text text :=
  of_passes (Leads.of_plain plain)

theorem block {body : Text} (noCloser : ¬ ['*', '/'] <:+: body) :
    BlanksTo ('/' :: '*' :: (body ++ ['*', '/'])) ('/' :: '*' :: (body ++ ['*', '/'])) :=
  of_passes (passes_blockText noCloser)

theorem line {body : Text} (inLine : '\n' ∉ body) :
    BlanksTo (GapPart.line body inLine).text (GapPart.line body inLine).blanked := by
  intro before rest flag
  have overwritten := @Scanner.overwritten_line false flag before rest body inLine
  have order : (GapPart.line body inLine).text ++ rest =
      '/' :: '/' :: (body ++ '\n' :: rest) := by
    simp [GapPart.text]
  have behind : (GapPart.line body inLine).text.reverse ++ before =
      '\n' :: (body.reverse ++ '/' :: '/' :: before) := by
    simp [GapPart.text]
  refine ⟨false, ?_⟩
  rw [order, overwritten, behind, ← List.append_assoc]
  rfl

theorem gapPart (part : GapPart) : BlanksTo part.text part.blanked := by
  cases part with
  | space c blank => exact of_plain (List.forall_mem_singleton.2 (Scanner.isPlain_of_isSpace blank))
  | block body noCloser => exact block noCloser
  | line body inLine => exact line inLine

theorem gap (parts : Gap) :
    BlanksTo (parts.flatMap GapPart.text) (parts.flatMap GapPart.blanked) := by
  induction parts with
  | nil => exact nil
  | cons part parts ih => exact (gapPart part).append ih

end BlanksTo

section Plain

open Scanner (isPlain)

theorem Identifier.forall_plain (name : Identifier) : ∀ c ∈ name.text, isPlain c = true := by
  intro c member
  have inside := name.isIdentifierChar_of_mem c member
  have other {d : Char} (outside : Css.isIdentifierChar d = false) : c ≠ d := by
    rintro rfl
    rw [inside] at outside
    exact Bool.noConfusion outside
  simp only [isPlain, Bool.and_eq_true, bne_iff_ne]
  exact ⟨⟨⟨⟨other rfl, other rfl⟩, other rfl⟩, other rfl⟩, other rfl⟩

theorem plain_slot (slot? : Option Identifier) :
    ∀ c ∈ slot?.elim [] slotText, isPlain c = true := by
  cases slot? with
  | none => exact fun c member => absurd member List.not_mem_nil
  | some name =>
      have opening : ∀ c ∈ ['#', '\x7B', '$'], isPlain c = true := List.all_eq_true.1 rfl
      have closing : ∀ c ∈ ['\x7D'], isPlain c = true := List.all_eq_true.1 rfl
      have inside := List.forall_mem_append.2 ⟨opening, name.forall_plain⟩
      exact List.forall_mem_append.2 ⟨inside, closing⟩

theorem Word.forall_plain (word : Word) : ∀ c ∈ word.text, isPlain c = true :=
  List.forall_mem_append.2 ⟨word.name.forall_plain, plain_slot word.slot?⟩

theorem Words.forall_plain (words : Words) : ∀ c ∈ words.text, isPlain c = true := by
  refine List.forall_mem_append.2 ⟨words.first.forall_plain, ?_⟩
  intro c member
  obtain ⟨word, _, inside⟩ := List.mem_flatMap.1 member
  rcases List.mem_cons.1 inside with rfl | inside
  · rfl
  · exact word.forall_plain c inside

theorem Property.forall_plain (property : Property) : ∀ c ∈ property.text, isPlain c = true := by
  cases property with
  | plain name => exact name.forall_plain
  | «variable» name => exact List.forall_mem_cons.2 ⟨rfl, name.forall_plain⟩
  | custom name =>
      exact List.forall_mem_cons.2 ⟨rfl, List.forall_mem_cons.2 ⟨rfl, name.forall_plain⟩⟩

theorem Compound.forall_plain (compound : Compound) : ∀ c ∈ compound.text, isPlain c = true := by
  cases compound with
  | «class» name => exact List.forall_mem_cons.2 ⟨rfl, name.forall_plain⟩
  | suffix name =>
      exact List.forall_mem_cons.2 ⟨rfl, List.forall_mem_cons.2 ⟨rfl, name.forall_plain⟩⟩
  | pseudo name state =>
      refine List.forall_mem_cons.2 ⟨rfl, List.forall_mem_append.2 ⟨name.forall_plain, ?_⟩⟩
      exact List.forall_mem_cons.2 ⟨rfl, state.forall_plain⟩

theorem AtRule.forall_plain (rule : AtRule) : ∀ c ∈ rule.text, isPlain c = true := by
  refine List.forall_mem_cons.2 ⟨rfl, List.forall_mem_append.2 ⟨rule.name.forall_plain, ?_⟩⟩
  cases rule.params? with
  | none => exact fun c member => absurd member List.not_mem_nil
  | some params => exact List.forall_mem_cons.2 ⟨rfl, params.forall_plain⟩

theorem Line.forall_plain (line : Line) : ∀ c ∈ line.text, isPlain c = true := by
  cases line with
  | declaration property value =>
      refine List.forall_mem_append.2 ⟨property.forall_plain, ?_⟩
      exact List.forall_mem_cons.2 ⟨rfl, List.forall_mem_cons.2 ⟨rfl, value.forall_plain⟩⟩
  | «at» rule => exact rule.forall_plain

theorem Header.forall_plain (header : Header) : ∀ c ∈ header.text, isPlain c = true := by
  cases header with
  | rule compound slot? => exact List.forall_mem_append.2 ⟨compound.forall_plain, plain_slot slot?⟩
  | «at» rule => exact rule.forall_plain

end Plain

namespace Document

theorem blanksTo (document : Document) :
    BlanksTo document.text (document.write GapPart.blanked) := by
  have sign {c : Char} {text blanked : Text} (plain : Scanner.isPlain c = true)
      (behind : BlanksTo text blanked) : BlanksTo (c :: text) (c :: blanked) :=
    (BlanksTo.of_plain (List.forall_mem_singleton.2 plain)).append behind
  induction document with
  | done gap => exact .gap gap
  | last gap line behind =>
      exact (BlanksTo.gap gap).append ((BlanksTo.of_plain line.forall_plain).append (.gap behind))
  | item gap line behind rest later =>
      refine (BlanksTo.gap gap).append ((BlanksTo.of_plain line.forall_plain).append ?_)
      exact (BlanksTo.gap behind).append (sign rfl later)
  | block gap header behind inside rest inner later =>
      refine (BlanksTo.gap gap).append ((BlanksTo.of_plain header.forall_plain).append ?_)
      exact (BlanksTo.gap behind).append (sign rfl (inner.append (sign rfl later)))

/-- **Blanking a document blanks its gaps.** -/
theorem blankLineComments_text (document : Document) :
    blankLineComments document.text = document.write GapPart.blanked := by
  obtain ⟨later, overwritten⟩ := document.blanksTo [] [] false
  have start : blankLineComments document.text =
      (⟨false, [], document.text, .code, false⟩ : Scanner).overwritten := by
    rw [blankLineComments_eq_overwritten, Scanner.overwritten, Scanner.overwritten,
      ← Scanner.lines_withBlocks false (Scanner.ofText true document.text) rfl]
    rfl
  rw [start, ← List.append_nil document.text, overwritten, Scanner.overwritten_nil rfl rfl,
    List.append_nil]

end Document

end ScssLint
