import Mathlib.Data.List.Sort
import ScssLint.Text.Basic

/-! # Sorting by a key

Sorting items by a number keeps the order of the items with the same number
(`KeyOrder.filter_mergeSort`), and ascending items are told by the items of each number
(`KeyOrder.eq_of_filter`). So items in passages one behind the other are sorted passage by passage
(`KeyOrder.mergeSort_flatMap`).
-/

namespace ScssLint

namespace KeyOrder

variable {α β : Type} {key : α → Nat}

/-- Whether the keys of some items do not descend. -/
def IsAscending (key : α → Nat) (items : List α) : Prop :=
  items.Pairwise fun first second => key first ≤ key second

theorem isAscending_mergeSort (key : α → Nat) (items : List α) :
    IsAscending key (items.mergeSort fun first second => key first ≤ key second) := by
  refine (List.pairwise_mergeSort (fun first second third => ?_) (fun first second => ?_)
    items).imp fun order => of_decide_eq_true order
  · simp only [decide_eq_true_eq]
    exact Nat.le_trans
  · simp only [Bool.or_eq_true, decide_eq_true_eq]
    exact Nat.le_total _ _

/-- Items with the same key keep their order. -/
theorem filter_mergeSort (key : α → Nat) (number : Nat) (items : List α) :
    (items.mergeSort fun first second => key first ≤ key second).filter (key · = number) =
      items.filter (key · = number) := by
  have equal : (items.filter (key · = number)).Pairwise fun first second =>
      decide (key first ≤ key second) = true := by
    refine List.pairwise_of_forall_mem_list fun first member second member' => ?_
    have same := of_decide_eq_true (List.mem_filter.1 member).2
    have same' := of_decide_eq_true (List.mem_filter.1 member').2
    exact decide_eq_true (Nat.le_of_eq (same.trans same'.symm))
  have kept : (items.filter (key · = number)).Sublist
      (items.mergeSort fun first second => key first ≤ key second) := by
    refine List.sublist_mergeSort (fun first second third => ?_) (fun first second => ?_) equal
      List.filter_sublist
    · simp only [decide_eq_true_eq]
      exact Nat.le_trans
    · simp only [Bool.or_eq_true, decide_eq_true_eq]
      exact Nat.le_total _ _
  have filtered := kept.filter (key · = number)
  rw [List.filter_filter] at filtered
  simp only [Bool.and_self] at filtered
  refine (filtered.eq_of_length ?_).symm
  exact ((List.mergeSort_perm items _).filter _).length_eq.symm

/-- Items are sorted alike under keys that agree. -/
theorem map_mergeSort {key' : β → Nat} {change : α → β}
    (agree : ∀ first second, key' (change first) ≤ key' (change second) ↔ key first ≤ key second)
    (items : List α) :
    (items.mergeSort fun first second => key first ≤ key second).map change =
      (items.map change).mergeSort fun first second => key' first ≤ key' second :=
  List.map_mergeSort fun first _ second _ => decide_eq_decide.2 (agree first second).symm

/-- Ascending items are told by the items of each key. -/
theorem eq_of_filter {items others : List α} (ascending : IsAscending key items)
    (ascending' : IsAscending key others)
    (same : ∀ number, items.filter (key · = number) = others.filter (key · = number)) :
    items = others := by
  induction items generalizing others with
  | nil =>
      cases others with
      | nil => rfl
      | cons other others => exact absurd (same (key other)) (by simp)
  | cons item items ih =>
      cases others with
      | nil => exact absurd (same (key item)) (by simp)
      | cons other others =>
          obtain ⟨least, later⟩ := List.pairwise_cons.1 ascending
          obtain ⟨least', later'⟩ := List.pairwise_cons.1 ascending'
          have known : item ∈ other :: others := by
            have member : item ∈ (item :: items).filter (key · = key item) := by simp
            rw [same] at member
            exact (List.mem_filter.1 member).1
          have known' : other ∈ item :: items := by
            have member : other ∈ (other :: others).filter (key · = key other) := by simp
            rw [← same] at member
            exact (List.mem_filter.1 member).1
          have above : key other ≤ key item := by
            rcases List.mem_cons.1 known with rfl | member
            · exact Nat.le_refl _
            · exact least' item member
          have below : key item ≤ key other := by
            rcases List.mem_cons.1 known' with rfl | member
            · exact Nat.le_refl _
            · exact least other member
          have equal : key other = key item := Nat.le_antisymm above below
          have first := same (key item)
          rw [List.filter_cons_of_pos (by simp), List.filter_cons_of_pos (by simp [equal])] at first
          obtain ⟨rfl, _⟩ := List.cons.inj first
          congr 1
          refine ih later later' fun number => ?_
          have whole := same number
          by_cases own : key item = number
          · rw [List.filter_cons_of_pos (by simp [own]),
              List.filter_cons_of_pos (by simp [own])] at whole
            exact (List.cons.inj whole).2
          · rwa [List.filter_cons_of_neg (by simp [own]),
              List.filter_cons_of_neg (by simp [own])] at whole

/-- **Passages one behind the other are sorted each on its own.** -/
theorem mergeSort_flatMap {passages : List β} {items : β → List α}
    (apart : passages.Pairwise fun first second =>
      ∀ item ∈ items first, ∀ other ∈ items second, key item ≤ key other) :
    ((passages.flatMap items).mergeSort fun first second => key first ≤ key second) =
      passages.flatMap fun passage =>
        (items passage).mergeSort fun first second => key first ≤ key second := by
  refine eq_of_filter (isAscending_mergeSort key _) ?_ fun number => ?_
  · refine List.pairwise_flatMap.2 ⟨fun passage _ => isAscending_mergeSort key _, ?_⟩
    refine apart.imp fun order item member other member' => ?_
    exact order item (List.mem_mergeSort.1 member) other (List.mem_mergeSort.1 member')
  · rw [filter_mergeSort, List.filter_flatMap, List.filter_flatMap]
    exact congrArg passages.flatMap (funext fun passage => (filter_mergeSort key number _).symm)

end KeyOrder

end ScssLint
