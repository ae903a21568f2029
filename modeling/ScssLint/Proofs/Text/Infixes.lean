import Mathlib.Data.List.Basic
import ScssLint.Text.Basic

/-! # Parts of a text

A part without white space at its ends stays in a text that is trimmed (`Text.infix_trim`), and what
holds no `c` stands in front of it or behind it (`Text.infix_append_cons`).
-/

namespace ScssLint

namespace Text

theorem contains_iff (part text : Text) : contains part text = true ↔ part <:+: text := by
  induction text with
  | nil =>
      rw [contains, splitWhere, List.infix_nil, startsWith]
      cases part <;> simp [List.isPrefixOf]
  | cons c rest ih =>
      rw [contains, splitWhere, List.infix_cons_iff, startsWith]
      by_cases starts : part.isPrefixOf (c :: rest) = true
      · simp only [starts, ↓reduceIte, Option.isSome_some, true_iff]
        exact .inl (List.isPrefixOf_iff_prefix.1 starts)
      · rw [← List.isPrefixOf_iff_prefix, ← ih, if_neg starts, Option.isSome_map, contains]
        exact ⟨.inr, fun found => found.resolve_left starts⟩

section Infixes

variable {part text before behind : Text} {c : Char}

theorem prefix_append_cons (other : c ∉ part) (ahead : part <+: before ++ c :: behind) :
    part <+: before := by
  induction before generalizing part with
  | nil =>
      cases part with
      | nil => exact List.nil_prefix
      | cons d part =>
          obtain rfl := (List.cons_prefix_cons.1 ahead).1
          exact absurd List.mem_cons_self other
  | cons d before ih =>
      cases part with
      | nil => exact List.nil_prefix
      | cons e part =>
          obtain ⟨rfl, more⟩ := List.cons_prefix_cons.1 ahead
          exact List.cons_prefix_cons.2
            ⟨rfl, ih (fun member => other (List.mem_cons_of_mem e member)) more⟩

/-- **What holds no `c` stands in front of it or behind it.** -/
theorem infix_append_cons (other : c ∉ part) :
    part <:+: before ++ c :: behind ↔ part <:+: before ∨ part <:+: behind := by
  constructor
  · intro inside
    induction before with
    | nil =>
        rcases List.infix_cons_iff.1 inside with ahead | inside
        · exact .inl (@prefix_append_cons _ [] _ _ other ahead).isInfix
        · exact .inr inside
    | cons d before ih =>
        rcases List.infix_cons_iff.1 inside with ahead | inside
        · exact .inl (@prefix_append_cons _ (d :: before) _ _ other ahead).isInfix
        · exact (ih inside).imp_left List.infix_cons
  · rintro (inside | inside)
    · exact inside.trans (List.prefix_append before _).isInfix
    · exact inside.trans ((List.suffix_cons c behind).trans (List.suffix_append before _)).isInfix

/-- A part that does not start with what is dropped is kept. -/
theorem infix_dropWhile {test : Char → Bool} (written : part ≠ [])
    (first : ∀ c ∈ part.head?, test c = false) (inside : part <:+: text) :
    part <:+: text.dropWhile test := by
  induction text with
  | nil => exact inside
  | cons c text ih =>
      by_cases dropped : test c = true
      · rw [List.dropWhile_cons_of_pos dropped]
        rcases List.infix_cons_iff.1 inside with ahead | inside
        · obtain ⟨d, part, rfl⟩ := List.exists_cons_of_ne_nil written
          obtain rfl := (List.cons_prefix_cons.1 ahead).1
          rw [first d rfl] at dropped
          exact Bool.noConfusion dropped
        · exact ih inside
      · rwa [List.dropWhile_cons_of_neg dropped]

/-- **A part without white space at its ends stays in the trimmed text.** -/
theorem infix_trim (written : part ≠ []) (first : ∀ c ∈ part.head?, isBlank c = false)
    (last : ∀ c ∈ part.getLast?, isBlank c = false) (inside : part <:+: text) :
    part <:+: trim text := by
  have kept := List.reverse_infix.2 (infix_dropWhile written first inside)
  have first' : ∀ c ∈ part.reverse.head?, isBlank c = false := by
    rwa [List.head?_reverse]
  have kept := infix_dropWhile (List.reverse_ne_nil_iff.2 written) first' kept
  rwa [← List.reverse_infix, List.reverse_reverse] at kept

theorem infix_of_infix_trim (inside : part <:+: trim text) : part <:+: text := by
  have cut : trim text <:+: text := by
    rw [trim, trimEnd, ← List.reverse_infix, List.reverse_reverse]
    exact (List.dropWhile_suffix _).isInfix.trans
      (List.reverse_infix.2 (List.dropWhile_suffix _).isInfix)
  exact inside.trans cut

end Infixes

end Text

end ScssLint
