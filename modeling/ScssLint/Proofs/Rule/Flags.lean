import ScssLint.Proofs.Comment.Found
import ScssLint.Proofs.Text.Infixes
import ScssLint.Rule.DollarVariableDefault

/-! # The flag in a value

The flag `!default` is found in what stands in front of a sign that it does not hold or behind it
(`DollarVariableDefault.hasFlag_append_cons`), so it is found inside of a comment or beside it
(`DollarVariableDefault.hasFlag_blockText`), and white space around a value does not matter
(`DollarVariableDefault.hasFlag_trim`).
-/

namespace ScssLint

open Comment (blockText)

namespace DollarVariableDefault

section Flags

variable {c : Char} {before behind body value : Text}

theorem hasFlag_iff (value : Text) :
    hasFlag value = true ↔ ∃ part, part.map Char.toLower = flag ∧ part <:+: value := by
  rw [hasFlag, Text.contains_iff]
  constructor
  · rintro ⟨before, behind, whole⟩
    rw [List.append_assoc] at whole
    obtain ⟨front, rest, rfl, _, same⟩ := List.map_eq_append_iff.1 whole.symm
    obtain ⟨part, back, rfl, same, _⟩ := List.map_eq_append_iff.1 same
    exact ⟨part, same, (List.prefix_append part back).isInfix.trans
      (List.suffix_append front _).isInfix⟩
  · rintro ⟨part, same, inside⟩
    rw [← same]
    exact inside.map Char.toLower

theorem notMem_of_flag {part : Text} (same : part.map Char.toLower = flag)
    (other : c.toLower ∉ flag) : c ∉ part :=
  fun member => other (same ▸ List.mem_map_of_mem member)

/-- No flag goes across a character that is in none. -/
theorem hasFlag_append_cons (other : c.toLower ∉ flag) (before behind : Text) :
    hasFlag (before ++ c :: behind) = (hasFlag before || hasFlag behind) := by
  rw [Bool.eq_iff_iff, Bool.or_eq_true, hasFlag_iff, hasFlag_iff, hasFlag_iff]
  constructor
  · rintro ⟨part, same, inside⟩
    exact ((Text.infix_append_cons (notMem_of_flag same other)).1 inside).imp
      (⟨part, same, ·⟩) (⟨part, same, ·⟩)
  · rintro (⟨part, same, inside⟩ | ⟨part, same, inside⟩)
    · exact ⟨part, same, (Text.infix_append_cons (notMem_of_flag same other)).2 (.inl inside)⟩
    · exact ⟨part, same, (Text.infix_append_cons (notMem_of_flag same other)).2 (.inr inside)⟩

theorem toLower_notMem_flag (blank : isBlank c = true) : c.toLower ∉ flag := by
  intro member
  have dark : ∀ d ∈ flag, (!isBlank d) = true := List.all_eq_true.1 rfl
  unfold Char.toLower at member
  split at member
  · rename_i upper
    have low : 65 ≤ c.toNat := upper.1
    have high : c.toNat ≤ 90 := upper.2
    simp only [isBlank, Bool.or_eq_true, Bool.and_eq_true, decide_eq_true_eq, beq_iff_eq] at blank
    omega
  · have dark := dark c member
    rw [blank] at dark
    exact Bool.noConfusion dark

theorem hasFlag_spaces (count : Nat) : hasFlag (List.replicate count ' ') = false := by
  induction count with
  | zero => rfl
  | succ count ih =>
      rw [List.replicate_succ]
      exact (hasFlag_append_cons (toLower_notMem_flag rfl) [] _).trans ih

/-- White space around a value is no part of a flag. -/
theorem hasFlag_trim (value : Text) : hasFlag (Text.trim value) = hasFlag value := by
  rw [Bool.eq_iff_iff, hasFlag_iff, hasFlag_iff]
  refine exists_congr fun part => and_congr_right fun same => ⟨Text.infix_of_infix_trim, ?_⟩
  have dark : ∀ c ∈ part, isBlank c = false := fun c member =>
    Bool.eq_false_iff.2 fun blank => notMem_of_flag same (toLower_notMem_flag blank) member
  refine Text.infix_trim ?_ (fun c first => dark c (List.mem_of_mem_head? first))
    fun c last => dark c (List.mem_of_getLast? last)
  rintro rfl
  exact List.cons_ne_nil _ _ same.symm

/-- A comment holds a flag, or the flag stands beside it. -/
theorem hasFlag_blockText (before body behind : Text) :
    hasFlag (before ++ (blockText body ++ behind)) =
      (hasFlag before || (hasFlag body || hasFlag behind)) := by
  have order : before ++ (blockText body ++ behind) =
      before ++ '/' :: ([] ++ '*' :: (body ++ '*' :: ([] ++ '/' :: behind))) := by
    simp [blockText]
  rw [order, hasFlag_append_cons (by decide), hasFlag_append_cons (by decide),
    hasFlag_append_cons (by decide), hasFlag_append_cons (by decide)]
  rfl

end Flags

end DollarVariableDefault

end ScssLint
