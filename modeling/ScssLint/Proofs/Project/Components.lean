import Mathlib.Data.List.TakeWhile
import ScssLint.Project.Collection
import ScssLint.Proofs.Project.Joining

/-! # The steps of joined paths

Paths are equal for their order if they have the same steps (`Path.compare_eq_iff`). Joining a name
to a path adds the step for which the name stands (`Path.components_foldl_join`), so the names that
were joined can be read off the steps (`Path.eq_of_components_foldl_join`), and the last one decides
which extension the path has (`Path.extension?_foldl_join`).
-/

namespace ScssLint

namespace Path

/-! ### Equal paths -/

namespace Component

theorem eq_of_compare {left right : Component} (same : compare left right = .eq) :
    left = right := by
  obtain ⟨ranks, spellings⟩ := compareLex_eq_eq.1 same
  have ranks : left.rank = right.rank := Std.LawfulEqCmp.eq_of_compare ranks
  have spellings : left.spelling = right.spelling := Std.LawfulEqCmp.eq_of_compare spellings
  cases left <;> cases right <;> first
    | rfl
    | exact congrArg name spellings
    | exact absurd ranks (by simp only [rank]; decide)

instance : Std.LawfulEqCmp compare where
  eq_of_compare := eq_of_compare

end Component

/-- Paths are equal for their order if and only if they have the same steps. -/
theorem compare_eq_iff {left right : Path} :
    left.compare right = .eq ↔ left.components = right.components := by
  rw [compare, Std.LawfulEqCmp.compare_eq_iff_eq]

/-! ### Joined paths -/

/-- A name that stands for a step. -/
structure IsStep (name : String) : Prop where
  written : name.toList ≠ []
  noSlash : '/' ∉ name.toList
  notCurrent : name.toList ≠ ['.']

end Path

theorem IsEntryName.isStep {name : String} (isName : IsEntryName name) : Path.IsStep name :=
  ⟨isName.written, isName.noSlash, isName.notCurrent⟩

namespace Path

variable {path : Path} {name : String} {names : List String}

/-- The step for which a name stands. -/
def stepOf (name : String) : Component :=
  if name.toList = ['.', '.'] then .parent else .name name

theorem componentOf?_toList (isStep : IsStep name) :
    componentOf? name.toList = some (stepOf name) := by
  have noDot : ¬ (name.toList = [] ∨ name.toList = ['.']) :=
    not_or.2 ⟨isStep.written, isStep.notCurrent⟩
  rw [componentOf?, if_neg noDot, stepOf, String.ofList_toList]
  split <;> rfl

theorem stepOf_injective : Function.Injective stepOf := by
  intro name other same
  unfold stepOf at same
  split at same <;> rename_i parent <;> split at same <;> rename_i parent'
  · exact String.toList_inj.1 (parent.trans parent'.symm)
  · cases same
  · cases same
  · exact Component.name.inj same

theorem stepOf_entry (isName : IsEntryName name) : stepOf name = .name name :=
  if_neg isName.notParent

/-- The step that a path begins with because of its spelling alone. -/
def leadingStep : List Text → List Component
  | [] :: _ :: _ => [.root]
  | ['.'] :: _ => [.current]
  | _ => []

theorem components_eq (path : Path) :
    path.components = leadingStep (segments path.spelling.toList) ++
      (segments path.spelling.toList).filterMap componentOf? :=
  rfl

theorem leadingStep_cons {first : Text} (written : first ≠ []) (others : List Text) :
    leadingStep (first :: others) = if first = ['.'] then [.current] else [] := by
  unfold leadingStep
  split
  · rename_i same
    exact absurd (List.cons.inj same).1 written
  · rename_i same
    rw [if_pos (List.cons.inj same).1]
  · rename_i other
    exact (if_neg fun dot => other others (congrArg (· :: others) dot)).symm

/-- Behind the first segment only the next one matters, and that only by being there. -/
theorem leadingStep_append {segments : List Text} (some : segments ≠ [])
    (notEmpty : segments ≠ [[]]) (more : List Text) :
    leadingStep (segments ++ more) = leadingStep segments := by
  match segments with
  | [[]] => exact absurd rfl notEmpty
  | [] :: _ :: _ => rfl
  | (c :: text) :: others =>
      rw [List.cons_append, leadingStep_cons (List.cons_ne_nil c text),
        leadingStep_cons (List.cons_ne_nil c text)]

theorem segments_eq_singleton_nil {text : Text} (cut : segments text = [[]]) : text = [] := by
  cases text with
  | nil => rfl
  | cons c text =>
      unfold segments at cut
      split at cut
      · exact absurd (List.cons.inj cut).2 (segments_ne_nil text)
      · split at cut <;> cases cut

/-- **Joining a name adds its step.** -/
theorem components_join (written : path.spelling.toList ≠ []) (isStep : IsStep name) :
    (path.join name).components = path.components ++ [stepOf name] := by
  obtain ⟨front, split, joined⟩ := exists_join written name
  have some := segments_ne_nil front
  rw [components_eq, components_eq, joined, segments_append, segments_of_noSlash isStep.noSlash,
    List.filterMap_append]
  have step : [name.toList].filterMap componentOf? = [stepOf name] := by
    rw [List.filterMap_cons, componentOf?_toList isStep]
    rfl
  rw [step, ← List.append_assoc]
  congr 1
  rcases split with split | split
  · rw [split]
    have notEmpty : segments front ≠ [[]] :=
      fun cut => written (split.trans (segments_eq_singleton_nil cut))
    rw [leadingStep_append some notEmpty]
  · -- the empty segment behind the last slash is no step, but it can make the path absolute
    rw [split, segments_append, List.filterMap_append]
    by_cases root : segments front = [[]]
    · rw [root]
      rfl
    · rw [leadingStep_append some root, leadingStep_append some root]
      exact (congrArg _ (List.append_nil _)).symm

/-- **Joining names one by one adds their steps.** -/
theorem components_foldl_join (written : path.spelling.toList ≠ [])
    (areSteps : ∀ name ∈ names, IsStep name) :
    (names.foldl join path).components = path.components ++ names.map stepOf := by
  induction names generalizing path with
  | nil => exact (List.append_nil _).symm
  | cons name names ih =>
      obtain ⟨isStep, areSteps⟩ := List.forall_mem_cons.1 areSteps
      rw [List.foldl_cons, ih (written_join written name) areSteps, components_join written isStep,
        List.append_assoc]
      rfl

/-- The steps tell which names were joined. -/
theorem eq_of_components_foldl_join {others : List String} (written : path.spelling.toList ≠ [])
    (areSteps : ∀ name ∈ names, IsStep name) (areSteps' : ∀ name ∈ others, IsStep name)
    (same : (names.foldl join path).components = (others.foldl join path).components) :
    names = others := by
  rw [components_foldl_join written areSteps, components_foldl_join written areSteps'] at same
  exact List.map_injective_iff.2 stepOf_injective (List.append_cancel_left same)

/-! ### Extensions -/

theorem extensionOf?_of_split {stem extension : Text} (noDot : '.' ∉ extension)
    (split : name.toList = stem ++ '.' :: extension) :
    extensionOf? name = if stem = [] then none else some (String.ofList extension) := by
  have noStop : ∀ c ∈ extension.reverse, decide (c ≠ '.') = true :=
    fun c member => decide_eq_true fun dot => noDot (dot ▸ List.mem_reverse.1 member)
  have reversed : name.toList.reverse = extension.reverse ++ '.' :: stem.reverse := by
    rw [split, List.reverse_append, List.reverse_cons, List.append_assoc]
    rfl
  have behind : name.toList.reverse.takeWhile (· ≠ '.') = extension.reverse := by
    rw [reversed, List.takeWhile_append_of_pos noStop]
    exact List.append_nil _
  have front : name.toList.reverse.dropWhile (· ≠ '.') = '.' :: stem.reverse := by
    rw [reversed, List.dropWhile_append_of_pos noStop]
    rfl
  simp only [extensionOf?, behind, front, List.reverse_reverse]
  by_cases empty : stem = []
  · rw [if_pos empty, empty]
    rfl
  · rw [if_neg empty]
    obtain ⟨c, rest, cut⟩ := List.exists_cons_of_ne_nil (List.reverse_ne_nil_iff.2 empty)
    rw [cut]

/-- **An extension stands behind the last dot**, and something stands in front of that dot. -/
theorem extensionOf?_eq_some_iff {extension : String} :
    extensionOf? name = some extension ↔
      ∃ stem, stem ≠ [] ∧ '.' ∉ extension.toList ∧
        name.toList = stem ++ '.' :: extension.toList := by
  constructor
  · intro isExtension
    by_cases dot : '.' ∈ name.toList
    · obtain ⟨behind, front, split, noDot⟩ :=
        List.eq_append_cons_of_mem (List.mem_reverse.2 dot)
      have written : name.toList = front.reverse ++ '.' :: behind.reverse := by
        rw [← List.reverse_reverse name.toList, split, List.reverse_append, List.reverse_cons,
          List.append_assoc]
        rfl
      have noDot : '.' ∉ behind.reverse := List.mem_reverse.not.2 noDot
      rw [extensionOf?_of_split noDot written] at isExtension
      split_ifs at isExtension with empty
      obtain rfl := Option.some.inj isExtension
      rw [String.toList_ofList]
      exact ⟨front.reverse, empty, noDot, written⟩
    · have none : name.toList.reverse.dropWhile (· ≠ '.') = [] := by
        refine List.dropWhile_eq_nil_iff.2 fun c member => decide_eq_true fun isDot => dot ?_
        exact isDot ▸ List.mem_reverse.1 member
      simp only [extensionOf?, none] at isExtension
      cases isExtension
  · rintro ⟨stem, written, noDot, split⟩
    rw [extensionOf?_of_split noDot split, if_neg written, String.ofList_toList]

/-- The last name that is joined decides which extension a path has. -/
theorem extension?_foldl_join (written : path.spelling.toList ≠ [])
    (areNames : ∀ name ∈ names, IsEntryName name) (some : names ≠ []) :
    (names.foldl join path).extension? = names.getLast?.bind extensionOf? := by
  have areSteps : ∀ name ∈ names, IsStep name := fun name member => (areNames name member).isStep
  obtain ⟨front, last, rfl⟩ := (List.eq_nil_or_concat' names).resolve_left some
  have isName : IsEntryName last := areNames last (by simp)
  rw [extension?, fileName?, components_foldl_join written areSteps, List.map_append,
    ← List.append_assoc, List.getLast?_append, List.getLast?_append]
  simp only [List.map_cons, List.map_nil, List.getLast?_singleton, stepOf_entry isName,
    Option.some_or, List.getLast?_append]

end Path

end ScssLint
