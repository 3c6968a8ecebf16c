import Mathlib.Data.List.Perm.Basic
import Mathlib.Data.List.Sort

/-! The lists of `threads/list.cc` as sequences of keyed elements. The ready list, the queues of the
semaphores and the queue of pending interrupts are all such lists; `Append` and `Remove` ignore the
key, `SortedInsert` and `SortedRemove` keep the sequence ordered by it. -/

namespace Nachos

/-- A `ListElement`: an item with the key it was inserted under. -/
structure ListElement (α : Type) where
  key : Int
  item : α

variable {α : Type}

/-- `List::SortedInsert`: the new element goes before the first element with a larger key. -/
def sortedInsert (item : α) (sortKey : Int) : List (ListElement α) → List (ListElement α)
  | [] => [⟨sortKey, item⟩]
  | first :: rest =>
      if sortKey < first.key then ⟨sortKey, item⟩ :: first :: rest
      else first :: sortedInsert item sortKey rest

/-- `List::SortedRemove`: the first item with its key, and the list that is left. -/
def sortedRemove : List (ListElement α) → Option (α × Int × List (ListElement α))
  | [] => none
  | first :: rest => some (first.item, first.key, rest)

/-- The elements of the list stand in the order of their keys. -/
def KeySorted (elements : List (ListElement α)) : Prop :=
  elements.Pairwise fun left right => left.key ≤ right.key

theorem sortedInsert_perm (item : α) (sortKey : Int) (elements : List (ListElement α)) :
    (sortedInsert item sortKey elements).Perm (⟨sortKey, item⟩ :: elements) := by
  induction elements with
  | nil => exact List.Perm.refl _
  | cons first rest ih =>
      rw [sortedInsert]
      split
      · exact List.Perm.refl _
      · exact (ih.cons first).trans (List.Perm.swap _ _ _)

theorem mem_sortedInsert {item : α} {sortKey : Int} {elements : List (ListElement α)}
    {element : ListElement α} :
    element ∈ sortedInsert item sortKey elements ↔ element = ⟨sortKey, item⟩ ∨ element ∈ elements := by
  rw [(sortedInsert_perm item sortKey elements).mem_iff, List.mem_cons]

theorem sortedInsert_keySorted {item : α} {sortKey : Int} {elements : List (ListElement α)}
    (hsorted : KeySorted elements) : KeySorted (sortedInsert item sortKey elements) := by
  induction elements with
  | nil => exact List.pairwise_singleton _ _
  | cons first rest ih =>
      obtain ⟨hfirst, hrest⟩ := List.pairwise_cons.mp hsorted
      rw [sortedInsert]
      split
      · next hlt =>
        refine List.pairwise_cons.mpr ⟨fun element hmem => ?_, hsorted⟩
        rcases List.mem_cons.mp hmem with rfl | hmem
        · exact hlt.le
        · exact hlt.le.trans (hfirst element hmem)
      · next hge =>
        refine List.pairwise_cons.mpr ⟨fun element hmem => ?_, ih hrest⟩
        rcases mem_sortedInsert.mp hmem with rfl | hmem
        · exact not_lt.mp hge
        · exact hfirst element hmem

/-- In a sorted list the new element stands behind every element with a key that is not larger, and before
every other. -/
theorem sortedInsert_eq_filter {item : α} {sortKey : Int} {elements : List (ListElement α)}
    (hsorted : KeySorted elements) :
    sortedInsert item sortKey elements =
      elements.filter (fun e => e.key ≤ sortKey) ++ ⟨sortKey, item⟩ :: elements.filter fun e => sortKey < e.key := by
  induction elements with
  | nil => rfl
  | cons first rest ih =>
      obtain ⟨hfirst, hrest⟩ := List.pairwise_cons.mp hsorted
      rw [sortedInsert]
      split
      · next hlt =>
        have hall : ∀ e ∈ first :: rest, sortKey < e.key := by
          intro e hmem
          rcases List.mem_cons.mp hmem with rfl | hmem
          · exact hlt
          · exact hlt.trans_le (hfirst e hmem)
        have hnone : (first :: rest).filter (fun e => e.key ≤ sortKey) = [] := by
          simpa [List.filter_eq_nil_iff] using hall
        have hsame : (first :: rest).filter (fun e => sortKey < e.key) = first :: rest := by
          simpa [List.filter_eq_self] using hall
        rw [hnone, hsame, List.nil_append]
      · next hge =>
        rw [List.filter_cons_of_pos (by simpa using hge), List.filter_cons_of_neg (by simpa using hge), ih hrest,
          List.cons_append]

end Nachos
