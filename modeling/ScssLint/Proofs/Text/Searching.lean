import Mathlib.Data.List.Infix
import ScssLint.Proofs.Text.Infixes

/-! # Searching a text

A search passes over what is found nowhere (`Text.splitWhere_append`) and stops at the first place
at which something is found (`Text.splitWhere_eq_some_iff`). A word is looked for in any case; if no
character of a text can be a later one of the word, the word does not begin in front of that text
and end in it (`Text.startsWithAnyCase_append`).
-/

namespace ScssLint

namespace Text

section Search

variable {found : Text → Bool} {text before after : Text}

theorem splitWhere_of_found (here : found text = true) :
    splitWhere found text = some ([], text) := by
  cases text with
  | nil => rw [splitWhere, if_pos here]
  | cons c rest => rw [splitWhere, if_pos here]

/-- A search passes over a part in which nothing is found. -/
theorem splitWhere_append
    (misses : ∀ tail, tail ≠ [] → tail <:+ before → found (tail ++ after) = false) :
    splitWhere found (before ++ after) =
      (splitWhere found after).map fun split => (before ++ split.1, split.2) := by
  induction before with
  | nil => exact Option.map_id'.symm
  | cons c before ih =>
      have here := misses (c :: before) (List.cons_ne_nil c before) List.suffix_rfl
      rw [List.cons_append] at here
      have later := ih fun tail written ends =>
        misses tail written (List.suffix_cons_iff.2 (.inr ends))
      rw [List.cons_append, splitWhere, if_neg (Bool.not_eq_true _ ▸ here), later]
      cases splitWhere found after <;> rfl

/-- What is found is found at none of the places in front of it. -/
theorem not_found_of_splitWhere (split : splitWhere found text = some (before, after)) :
    ∀ tail, tail ≠ [] → tail <:+ before → found (tail ++ after) = false := by
  induction text generalizing before with
  | nil =>
      rw [splitWhere] at split
      split at split
      · obtain ⟨rfl, rfl⟩ := Prod.mk.inj (Option.some.inj split)
        intro tail written ends
        exact absurd (List.suffix_nil.1 ends) written
      · exact absurd split.symm (Option.some_ne_none _)
  | cons c rest ih =>
      rw [splitWhere] at split
      split at split
      · obtain ⟨rfl, rfl⟩ := Prod.mk.inj (Option.some.inj split)
        intro tail written ends
        exact absurd (List.suffix_nil.1 ends) written
      · rename_i notHere
        obtain ⟨⟨before', after'⟩, later, same⟩ := Option.map_eq_some_iff.1 split
        obtain ⟨rfl, rfl⟩ := Prod.mk.inj same
        intro tail written ends
        rcases List.suffix_cons_iff.1 ends with rfl | ends
        · rw [List.cons_append, ← (splitWhere_eq later).1]
          exact Bool.eq_false_iff.2 notHere
        · exact ih later tail written ends

/-- **A search stops at the first place at which something is found.** -/
theorem splitWhere_eq_some_iff :
    splitWhere found text = some (before, after) ↔
      text = before ++ after ∧ found after = true ∧
        ∀ tail, tail ≠ [] → tail <:+ before → found (tail ++ after) = false := by
  constructor
  · intro split
    obtain ⟨whole, here⟩ := splitWhere_eq split
    exact ⟨whole, here, not_found_of_splitWhere split⟩
  · rintro ⟨rfl, here, misses⟩
    rw [splitWhere_append misses, splitWhere_of_found here, Option.map_some, List.append_nil]

theorem splitWhere_eq_none_iff :
    splitWhere found text = none ↔ ∀ tail, tail <:+ text → found tail = false := by
  induction text with
  | nil =>
      rw [splitWhere]
      simp only [List.suffix_nil, forall_eq]
      split <;> simp_all
  | cons c rest ih =>
      simp only [splitWhere, List.suffix_cons_iff, forall_eq_or_imp, ← ih]
      split
      · rename_i here
        exact iff_of_false (Option.some_ne_none _) fun misses => absurd here (by simp [misses.1])
      · rename_i notHere
        rw [Option.map_eq_none_iff]
        exact (and_iff_right (Bool.eq_false_iff.2 notHere)).symm

end Search

section Characters

variable {c : Char} {text : Text}

theorem startsWith_char (c : Char) (text : Text) :
    startsWith [c] text = true ↔ text.head? = some c := by
  cases text with
  | nil => exact iff_of_false Bool.false_ne_true (Option.some_ne_none c).symm
  | cons d rest =>
      rw [startsWith, List.isPrefixOf_iff_prefix, List.cons_prefix_cons, List.head?_cons,
        Option.some_inj]
      exact (and_iff_left List.nil_prefix).trans eq_comm

/-- A character is found where it stands for the first time. -/
theorem splitWhere_char (absent : c ∉ text) (behind : Text) :
    splitWhere (startsWith [c]) (text ++ c :: behind) = some (text, c :: behind) := by
  refine splitWhere_eq_some_iff.2 ⟨rfl, (startsWith_char _ _).2 rfl, ?_⟩
  intro tail written ends
  refine Bool.eq_false_iff.2 fun starts => absent (ends.subset ?_)
  obtain ⟨d, rest, rfl⟩ := List.exists_cons_of_ne_nil written
  obtain rfl := Option.some.inj ((startsWith_char _ _).1 starts)
  exact List.mem_cons_self

/-- In front of a character that is found stands no other one of its kind. -/
theorem exists_of_splitWhere_char {before after : Text}
    (split : splitWhere (startsWith [c]) text = some (before, after)) :
    ∃ behind, after = c :: behind ∧ text = before ++ c :: behind ∧ c ∉ before := by
  obtain ⟨rfl, here, misses⟩ := splitWhere_eq_some_iff.1 split
  obtain ⟨behind, rfl⟩ := List.head?_eq_some_iff.1 ((startsWith_char c after).1 here)
  refine ⟨behind, rfl, rfl, fun member => ?_⟩
  obtain ⟨front, rest, rfl⟩ := List.append_of_mem member
  have notHere := misses (c :: rest) (List.cons_ne_nil c rest) (List.suffix_append front _)
  rw [(startsWith_char c _).2 rfl] at notHere
  exact Bool.noConfusion notHere

theorem splitWhere_noChar (absent : c ∉ text) : splitWhere (startsWith [c]) text = none := by
  refine splitWhere_eq_none_iff.2 fun tail ends => Bool.eq_false_iff.2 fun starts => ?_
  exact absent (ends.subset (List.mem_of_head? ((startsWith_char c tail).1 starts)))

end Characters

section Words

variable {word text behind : Text} {c : Char}

theorem startsWithAnyCase_iff :
    startsWithAnyCase word text = true ↔ word.map Char.toLower <+: text.map Char.toLower := by
  rw [startsWithAnyCase, startsWith, List.isPrefixOf_iff_prefix, List.map_take]
  constructor
  · intro ahead
    exact ahead.trans (List.take_prefix _ _)
  · intro ahead
    have short := ahead.length_le
    rw [List.prefix_take_iff]
    exact ⟨ahead, by rw [List.length_map]⟩

theorem startsWithAnyCase_of_equal (same : equalAnyCase word text = true) (behind : Text) :
    startsWithAnyCase word (text ++ behind) = true := by
  rw [startsWithAnyCase_iff, List.map_append, beq_iff_eq.1 same]
  exact List.prefix_append _ _

/-- A word that is found in any case is a part of the text as it is written. -/
theorem exists_of_startsWithAnyCase (starts : startsWithAnyCase word text = true) :
    ∃ mark behind, text = mark ++ behind ∧ equalAnyCase word mark = true ∧
      behind = text.drop word.length := by
  refine ⟨text.take word.length, text.drop word.length, (List.take_append_drop _ _).symm, ?_, rfl⟩
  obtain ⟨rest, same⟩ := startsWithAnyCase_iff.1 starts
  rw [equalAnyCase, beq_iff_eq, List.map_take, ← same, List.take_append_of_le_length (by simp)]
  simp

theorem length_of_equalAnyCase (same : equalAnyCase word text = true) :
    text.length = word.length := by
  have lengths := congrArg List.length (beq_iff_eq.1 same)
  rw [List.length_map, List.length_map] at lengths
  exact lengths.symm

/-- **A word does not end behind a character that it has only at its start.** -/
theorem startsWithAnyCase_append (written : text ≠ [])
    (other : ∀ d ∈ behind.head?, d.toLower ∉ word.map Char.toLower)
    (starts : startsWithAnyCase (c :: word) (text ++ behind) = true) :
    startsWithAnyCase (c :: word) text = true := by
  rw [startsWithAnyCase_iff] at starts ⊢
  obtain ⟨e, text, rfl⟩ := List.exists_cons_of_ne_nil written
  rw [List.cons_append] at starts
  obtain ⟨same, ahead⟩ := List.cons_prefix_cons.1 starts
  refine List.cons_prefix_cons.2 ⟨same, ?_⟩
  cases behind with
  | nil => rwa [List.append_nil] at ahead
  | cons d behind =>
      rw [List.map_append, List.map_cons] at ahead
      exact prefix_append_cons (other d rfl) ahead

end Words

end Text

end ScssLint
