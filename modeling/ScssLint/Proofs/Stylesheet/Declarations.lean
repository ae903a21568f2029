import ScssLint.Proofs.Comment.Found
import ScssLint.Proofs.Stylesheet.Statements
import ScssLint.Proofs.Text.Infixes

/-! # Comments in declarations

A comment behind the colon of a declaration is a part of its value
(`exists_splitDeclaration?_blockText`). A comment in front of the colon is a part of its property
(`infix_property`), so with spaces in the comment there is no declaration
(`splitDeclaration?_spaces`).
-/

namespace ScssLint

open Comment (blockText)

theorem exists_of_splitDeclaration? {text property value : Text}
    (split : splitDeclaration? text = some (property, value)) :
    ∃ before after, text = before ++ ':' :: after ∧ property = Text.trim before ∧
      value = Text.trim after ∧ ∀ c ∈ property, isBlank c = false := by
  unfold splitDeclaration? at split
  split at split
  · exact absurd split.symm (Option.some_ne_none _)
  · rename_i before behind found
    obtain ⟨rfl, starts⟩ := Text.splitWhere_eq found
    obtain ⟨after, rfl⟩ := List.isPrefixOf_iff_prefix.1 starts
    dsimp only at split
    split at split
    · exact absurd split.symm (Option.some_ne_none _)
    · rename_i single
      obtain ⟨rfl, rfl⟩ := Prod.mk.inj (Option.some.inj split)
      rw [Bool.or_eq_true, List.any_eq_true, not_or] at single
      refine ⟨before, after, rfl, rfl, rfl, fun c member => Bool.eq_false_iff.2 fun blank => ?_⟩
      exact single.2 ⟨c, member, blank⟩

section Blocks

variable {front body behind property value : Text}

/-- **A comment behind the colon is a part of the value.** -/
theorem exists_splitDeclaration?_blockText (colon : ':' ∈ front) (behind : Text) :
    ∃ (property? : Option Text) (middle : Text), ∀ body,
      splitDeclaration? (front ++ (blockText body ++ behind)) =
        property?.map fun property =>
          (property, Text.trim (middle ++ (blockText body ++ behind))) := by
  obtain ⟨before, middle, rfl, noColon⟩ := List.eq_append_cons_of_mem colon
  refine ⟨if (Text.trim before).isEmpty || (Text.trim before).any isBlank then none
    else some (Text.trim before), middle, fun body => ?_⟩
  rw [List.append_assoc, List.cons_append, splitDeclaration?_append_colon noColon]
  split <;> rfl

/-- What has no colon in it is a part of the property in front of the colon. -/
theorem infix_property {part : Text} (noColon : ':' ∉ front ++ part) (written : part ≠ [])
    (first : ∀ c ∈ part.head?, isBlank c = false) (last : ∀ c ∈ part.getLast?, isBlank c = false)
    (split : splitDeclaration? (front ++ (part ++ behind)) = some (property, value)) :
    part <:+: property := by
  obtain ⟨before, after, whole, rfl, _, _⟩ := exists_of_splitDeclaration? split
  have ahead : front ++ part <+: before ++ ':' :: after := by
    rw [← whole, ← List.append_assoc]
    exact List.prefix_append _ behind
  exact Text.infix_trim written first last
    ((List.suffix_append front part).isInfix.trans (Text.prefix_append_cons noColon ahead).isInfix)

theorem notMem_spaces {c : Char} (other : c ≠ ' ') (count : Nat) :
    c ∉ List.replicate count ' ' :=
  fun member => other (List.eq_of_mem_replicate member)

/-- **With spaces in a comment in front of the colon there is no declaration.** -/
theorem splitDeclaration?_spaces (noColon : ':' ∉ front) (count : Nat) (behind : Text) :
    splitDeclaration? (front ++ (blockText (List.replicate (count + 1) ' ') ++ behind)) = none := by
  cases split : splitDeclaration? (front ++ (blockText (List.replicate (count + 1) ' ') ++ behind))
    with
  | none => rfl
  | some found =>
      have noColon' : ':' ∉ front ++ blockText (List.replicate (count + 1) ' ') := by
        have inside := @notMem_spaces ':' (by decide) (count + 1)
        simp [blockText, noColon, inside]
      have last : ∀ c ∈ (blockText (List.replicate (count + 1) ' ')).getLast?,
          isBlank c = false := by
        have marked : blockText (List.replicate (count + 1) ' ') =
            '/' :: '*' :: (List.replicate (count + 1) ' ' ++ ['*']) ++ ['/'] := by
          simp [blockText]
        rw [marked, List.getLast?_concat]
        exact fun c last => Option.some.inj last ▸ rfl
      have inside := infix_property noColon' (List.cons_ne_nil _ _)
        (fun c first => Option.some.inj first ▸ rfl) last split
      obtain ⟨_, _, _, _, _, dark⟩ := exists_of_splitDeclaration? split
      have space : ' ' ∈ blockText (List.replicate (count + 1) ' ') := by
        simp [blockText]
      have blank := dark ' ' (inside.subset space)
      exact absurd blank (by decide)

theorem trim_blockText_ne_nil (front body behind : Text) :
    Text.trim (front ++ (blockText body ++ behind)) ≠ [] := by
  have slash : ['/'] <:+: front ++ (blockText body ++ behind) :=
    (List.prefix_append ['/'] _).isInfix.trans (List.suffix_append front _).isInfix
  have kept := Text.infix_trim (List.cons_ne_nil _ _) (fun c first => Option.some.inj first ▸ rfl)
    (fun c last => Option.some.inj last ▸ rfl) slash
  intro empty
  rw [empty] at kept
  exact List.cons_ne_nil _ _ (List.infix_nil.1 kept)

end Blocks

end ScssLint
