/-!
# Ascending lists

A list in strictly ascending order holds each of its items once, as far as the order can tell.
Adding an item that is already there changes nothing, so the first of several equal items stays.
-/

namespace ScssLint

/-- A list in strictly ascending order. -/
structure Ascending {α : Type} (order : α → α → Ordering) where
  items : List α
  ascending : items.Pairwise fun first second => order first second = .lt

namespace Ascending

variable {α : Type} {order : α → α → Ordering}

/-- Put an item in its place unless an equal one is there. -/
def insertItem (order : α → α → Ordering) (item : α) : List α → List α
  | [] => [item]
  | head :: rest =>
      match order item head with
      | .lt => item :: head :: rest
      | .eq => head :: rest
      | .gt => head :: insertItem order item rest

theorem mem_of_mem_insertItem {item other : α} {items : List α}
    (hmem : other ∈ insertItem order item items) : other = item ∨ other ∈ items := by
  induction items with
  | nil => simpa [insertItem] using hmem
  | cons head rest ih =>
      simp only [insertItem] at hmem
      split at hmem
      · simpa using hmem
      · exact .inr hmem
      · rcases List.mem_cons.1 hmem with rfl | hrest
        · exact .inr List.mem_cons_self
        · exact (ih hrest).imp_right (List.mem_cons_of_mem head)

theorem pairwise_insertItem [Std.TransCmp order] (item : α) {items : List α}
    (hascending : items.Pairwise fun first second => order first second = .lt) :
    (insertItem order item items).Pairwise fun first second => order first second = .lt := by
  induction items with
  | nil => simp [insertItem]
  | cons head rest ih =>
      obtain ⟨hhead, hrest⟩ := List.pairwise_cons.1 hascending
      simp only [insertItem]
      split
      · rename_i hless
        refine List.pairwise_cons.2 ⟨fun other hother => ?_, hascending⟩
        rcases List.mem_cons.1 hother with rfl | hlater
        · exact hless
        · exact Std.TransCmp.lt_trans hless (hhead other hlater)
      · exact hascending
      · rename_i hgreater
        refine List.pairwise_cons.2 ⟨fun other hother => ?_, ih hrest⟩
        rcases mem_of_mem_insertItem hother with rfl | hlater
        · exact Std.OrientedCmp.lt_of_gt hgreater
        · exact hhead other hlater

/-- The new item is there unless an equal one was, and all else stays. -/
theorem mem_insertItem_iff [Std.TransCmp order] (item other : α) {items : List α}
    (hascending : items.Pairwise fun first second => order first second = .lt) :
    other ∈ insertItem order item items ↔
      other ∈ items ∨ (other = item ∧ ∀ head ∈ items, order item head ≠ .eq) := by
  induction items with
  | nil => simp [insertItem]
  | cons head rest ih =>
      obtain ⟨hhead, hrest⟩ := List.pairwise_cons.1 hascending
      simp only [insertItem]
      split
      · rename_i hless
        have hbelow : ∀ later ∈ head :: rest, order item later ≠ .eq := by
          intro later hlater
          rcases List.mem_cons.1 hlater with rfl | hlater
          · simp [hless]
          · simp [Std.TransCmp.lt_trans hless (hhead later hlater)]
        rw [List.mem_cons, or_comm]
        exact or_congr_right (and_iff_left hbelow).symm
      · rename_i hequal
        simp [hequal]
      · rename_i hgreater
        simp [ih hrest, hgreater, or_assoc]

/-- The list without items. -/
def empty : Ascending order :=
  ⟨[], .nil⟩

/-- Add an item unless an equal one is there. -/
def insert [Std.TransCmp order] (list : Ascending order) (item : α) : Ascending order :=
  ⟨insertItem order item list.items, pairwise_insertItem item list.ascending⟩

theorem mem_insert_iff [Std.TransCmp order] (list : Ascending order) (item other : α) :
    other ∈ (list.insert item).items ↔
      other ∈ list.items ∨ (other = item ∧ ∀ head ∈ list.items, order item head ≠ .eq) :=
  mem_insertItem_iff item other list.ascending

/-- The items of a list in order; of equal ones the first. -/
def ofList [Std.TransCmp order] (items : List α) : Ascending order :=
  items.foldl insert empty

end Ascending

/-- Values with distinct names, in the order of the names. -/
abbrev NameMap (α : Type) : Type :=
  Ascending (compareOn (Prod.fst : String × α → String))

end ScssLint
