import Mathlib.Data.List.Nodup
import ScssLint.Proofs.Project.Stages

/-! # Merging ascending lists

An ascending list that is made from some items holds the first ones of those that are equal
(`Ascending.mem_ofList_iff`), so the list that is made from two lists is the merge of the lists that
are made from each of them (`Ascending.isMerge_ofList`). What is made from an ascending list is that
list again (`Ascending.ofList_items`).
-/

namespace ScssLint

namespace Ascending

variable {α : Type} {order : α → α → Ordering}

/-- Whether an item of the list is equal to an item. -/
def Has (list : Ascending order) (item : α) : Prop :=
  ∃ head ∈ list.items, order head item = .eq

/-- Whether a list holds the items of a first list and, of a second one, those that have no equal in
the first one. -/
def IsMerge (first second both : Ascending order) : Prop :=
  ∀ item, item ∈ both.items ↔ item ∈ first.items ∨ item ∈ second.items ∧ ¬ first.Has item

theorem not_has_empty (item : α) : ¬ (empty : Ascending order).Has item := by
  rintro ⟨head, member, _⟩
  exact absurd member List.not_mem_nil

variable [Std.TransCmp order]

theorem nodup (list : Ascending order) : list.items.Nodup :=
  list.ascending.imp fun {first second} below same => by
    have self : order second second = .eq := Std.ReflCmp.compare_self
    rw [same, self] at below
    cases below

/-- Which items are in ascending order determines the order in which they are. -/
theorem ext_iff_mem {first second : Ascending order} :
    first = second ↔ ∀ item, item ∈ first.items ↔ item ∈ second.items := by
  constructor
  · rintro rfl item
    exact Iff.rfl
  · intro same
    have perm : first.items.Perm second.items :=
      (List.perm_ext_iff_of_nodup first.nodup second.nodup).2 same
    have items : first.items = second.items := by
      refine perm.eq_of_pairwise (fun a b _ _ below above => ?_) first.ascending second.ascending
      rw [Std.OrientedCmp.gt_of_lt below] at above
      cases above
    cases first
    cases second
    cases items
    rfl

theorem has_insert_iff (list : Ascending order) (next item : α) :
    (list.insert next).Has item ↔ list.Has item ∨ order next item = .eq := by
  constructor
  · rintro ⟨head, member, same⟩
    rcases (list.mem_insert_iff next head).1 member with already | ⟨rfl, _⟩
    · exact .inl ⟨head, already, same⟩
    · exact .inr same
  · rintro (⟨head, member, same⟩ | same)
    · exact ⟨head, (list.mem_insert_iff next head).2 (.inl member), same⟩
    · by_cases already : ∃ head ∈ list.items, order next head = .eq
      · obtain ⟨head, member, equal⟩ := already
        refine ⟨head, (list.mem_insert_iff next head).2 (.inl member), ?_⟩
        exact Std.TransCmp.eq_trans (Std.OrientedCmp.eq_symm equal) same
      · have fresh : ∀ head ∈ list.items, order next head ≠ .eq :=
          fun head member equal => already ⟨head, member, equal⟩
        exact ⟨next, (list.mem_insert_iff next next).2 (.inr ⟨rfl, fresh⟩), same⟩

/-- **Items that are put into a list one by one** get in if no equal one was there before. -/
theorem mem_foldl_insert_iff (list : Ascending order) (items : List α) (item : α) :
    item ∈ (items.foldl insert list).items ↔
      item ∈ list.items ∨
        ¬ list.Has item ∧ IsFirst (fun other => order other item = .eq) items item := by
  induction items generalizing list with
  | nil =>
      refine (or_iff_left ?_).symm
      rintro ⟨_, first⟩
      exact absurd first.mem List.not_mem_nil
  | cons next rest ih =>
      -- the next item gets in if it is the item in question and the list has no equal one
      have gets : (item = next ∧ ∀ head ∈ list.items, order next head ≠ .eq) ↔
          ¬ list.Has item ∧ order next item = .eq ∧ item = next := by
        constructor
        · rintro ⟨rfl, fresh⟩
          refine ⟨?_, Std.ReflCmp.compare_self, rfl⟩
          rintro ⟨head, member, same⟩
          exact fresh head member (Std.OrientedCmp.eq_symm same)
        · rintro ⟨lacks, _, rfl⟩
          exact ⟨rfl, fun head member same =>
            lacks ⟨head, member, Std.OrientedCmp.eq_symm same⟩⟩
      rw [List.foldl_cons, ih, mem_insert_iff, gets, has_insert_iff, IsFirst.cons_iff]
      tauto

theorem mem_ofList_iff (items : List α) (item : α) :
    item ∈ (ofList items : Ascending order).items ↔
      IsFirst (fun other => order other item = .eq) items item := by
  rw [ofList, mem_foldl_insert_iff]
  constructor
  · rintro (member | ⟨_, first⟩)
    · exact absurd member List.not_mem_nil
    · exact first
  · exact fun first => .inr ⟨not_has_empty item, first⟩

/-- What is made from some items has all of them. -/
theorem has_ofList_iff (items : List α) (item : α) :
    (ofList items : Ascending order).Has item ↔ ∃ other ∈ items, order other item = .eq := by
  constructor
  · rintro ⟨head, member, same⟩
    exact ⟨head, ((mem_ofList_iff items head).1 member).mem, same⟩
  · intro some
    obtain ⟨other, first⟩ := IsFirst.exists_iff.2 some
    refine ⟨other, (mem_ofList_iff items other).2 ?_, first.holds_item⟩
    obtain ⟨front, behind, split, same, earlier⟩ := first
    refine ⟨front, behind, split, Std.ReflCmp.compare_self, fun head member equal => ?_⟩
    exact earlier head member (Std.TransCmp.eq_trans equal same)

/-- **What is made from two lists is the merge of what is made from each of them.** -/
theorem isMerge_ofList (left right : List α) :
    IsMerge (ofList left) (ofList right) (ofList (left ++ right) : Ascending order) := by
  intro item
  rw [ofList, List.foldl_append, mem_foldl_insert_iff, mem_ofList_iff right]
  exact or_congr_right and_comm

/-- **What is made from an ascending list is that list.** -/
theorem ofList_items (list : Ascending order) : ofList list.items = list := by
  refine ext_iff_mem.2 fun item => ?_
  rw [mem_ofList_iff]
  refine ⟨IsFirst.mem, fun member => ?_⟩
  obtain ⟨front, behind, split⟩ := List.append_of_mem member
  refine ⟨front, behind, split, Std.ReflCmp.compare_self, fun earlier inFront same => ?_⟩
  have ascending := list.ascending
  rw [split, List.pairwise_append] at ascending
  have below := ascending.2.2 earlier inFront item List.mem_cons_self
  exact absurd (below.symm.trans same) (by decide)

end Ascending

end ScssLint
