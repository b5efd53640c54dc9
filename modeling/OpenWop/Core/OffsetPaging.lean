import Mathlib.Data.List.Basic

/-!
# Paging by offset

A client reads a list page by page, each page at the offset where the one before ended, until one
reaches the end. A list that stays as it is, is read once. A list that grows at the front moves
its entries to later offsets, so some are read again and none is missed.
-/

namespace OpenWop.Core

open List

variable {α : Type} {items items' : List α} {offset : Nat} {pages : List (List α)}

/-- The pages read from an offset on. `changes` is what may become of the list between two. -/
inductive Paging (changes : List α → List α → Prop) : List α → Nat → List (List α) → Prop
  | last {items : List α} {offset size : Nat} : items.length ≤ offset + size →
      Paging changes items offset [(items.drop offset).take size]
  | more {items items' : List α} {offset size : Nat} {pages : List (List α)} :
      changes items items' → Paging changes items' (offset + size) pages →
      Paging changes items offset ((items.drop offset).take size :: pages)

/-- The rest of a list splits at the end of the page. -/
theorem drop_eq_page (items : List α) (offset size : Nat) :
    items.drop offset = (items.drop offset).take size ++ items.drop (offset + size) := by
  rw [← List.drop_drop, List.take_append_drop]

/-- What a longer list has from an offset on covers what its end has. -/
theorem drop_sublist_drop (h : items <:+ items') (n : Nat) : items.drop n <+ items'.drop n := by
  obtain ⟨front, rfl⟩ := h
  rw [List.drop_append]
  refine List.Sublist.trans ?_ (List.sublist_append_right _ _)
  exact List.drop_sublist_drop_left items (Nat.sub_le n front.length)

/-- A list that stays as it is, is read once and in order. -/
theorem Paging.flatten_eq (h : Paging Eq items offset pages) : pages.flatten = items.drop offset := by
  induction h with
  | @last items offset size hend =>
    rw [List.flatten_singleton, List.take_of_length_le]
    rw [List.length_drop]
    omega
  | @more items items' offset size pages hsame _ ih =>
    subst hsame
    rw [List.flatten_cons, ih, ← drop_eq_page]

/-- What is in the list before it grows at the front is read, in order. -/
theorem Paging.sublist (h : Paging (· <:+ ·) items offset pages) :
    items.drop offset <+ pages.flatten := by
  induction h with
  | @last items offset size hend =>
    rw [List.flatten_singleton, List.take_of_length_le]
    rw [List.length_drop]
    omega
  | @more items items' offset size pages hgrows _ ih =>
    have hrest : items.drop (offset + size) <+ pages.flatten := (drop_sublist_drop hgrows _).trans ih
    rw [List.flatten_cons]
    conv_lhs => rw [drop_eq_page items offset size]
    exact hrest.append_left _

end OpenWop.Core
