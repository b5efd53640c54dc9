import Mathlib.Data.List.Sort
import OpenWop.Js.Text

/-!
# Comparators and stable sorting

`Array.prototype.sort` with a consistent comparator is a stable sort by the
preorder the comparator induces. `localeCompare` is such a comparator whose order
depends on the locale; it may compare two different strings as equal.
-/

namespace OpenWop.Js

/-- A consistent comparator. -/
structure Comparator (α : Type) where
  compare : α → α → Int
  swap : ∀ a b, compare a b ≤ 0 ↔ 0 ≤ compare b a
  trans : ∀ a b c, compare a b ≤ 0 → compare b c ≤ 0 → compare a c ≤ 0

/-- The order of a locale: `a.localeCompare(b)`. -/
abbrev Collation := Comparator JsString

namespace Comparator

variable {α β : Type}

/-- Compare by an image. -/
def on (c : Comparator β) (f : α → β) : Comparator α where
  compare a b := c.compare (f a) (f b)
  swap a b := c.swap (f a) (f b)
  trans a b d := c.trans (f a) (f b) (f d)

/-- `c.compare(a, b) || d.compare(a, b)`. -/
def orElse (c d : Comparator α) : Comparator α where
  compare a b := if c.compare a b ≠ 0 then c.compare a b else d.compare a b
  swap a b := by
    have h1 := c.swap a b
    have h2 := c.swap b a
    have h3 := d.swap a b
    split <;> split <;> omega
  trans x y z := by
    have h1 := c.trans x y z
    have h2 := c.trans y z x
    have h3 := c.trans z x y
    have h4 := c.swap x y
    have h5 := c.swap y z
    have h6 := c.swap z x
    have h7 := c.swap x z
    have h8 := c.swap y x
    have h9 := c.swap z y
    have h10 := d.trans x y z
    split <;> split <;> split <;> omega

/-- What the first comparator puts after stays after. -/
theorem le_of_orElse {c d : Comparator α} {a b : α} (h : (c.orElse d).compare a b ≤ 0) :
    c.compare a b ≤ 0 := by
  simp only [orElse] at h
  split at h
  · exact h
  · omega

/-- Compare natural numbers by their difference. -/
def byNat : Comparator Nat where
  compare a b := (a : Int) - b
  swap a b := by omega
  trans a b c := by omega

theorem total (c : Comparator α) (a b : α) : c.compare a b ≤ 0 ∨ c.compare b a ≤ 0 := by
  have h := c.swap b a
  omega

theorem eq_zero_of_le (c : Comparator α) {a b : α} (h : c.compare a b ≤ 0)
    (h' : c.compare b a ≤ 0) : c.compare a b = 0 := by
  have hs := c.swap b a
  omega

end Comparator

section CodeUnits

/-- Compare by UTF-16 code units: the first difference decides, else the lengths. -/
def compareCodeUnits : JsString → JsString → Int
  | [], t => -(t.length : Int)
  | s, [] => s.length
  | a :: s, b :: t => if a = b then compareCodeUnits s t else (a.toNat : Int) - b.toNat

private theorem toNat_ne {a b : UInt16} (h : a ≠ b) : a.toNat ≠ b.toNat := fun he =>
  h (UInt16.toNat_inj.mp he)

theorem compareCodeUnits_swap (s t : JsString) : compareCodeUnits s t = -compareCodeUnits t s := by
  induction s generalizing t with
  | nil => cases t <;> simp [compareCodeUnits]
  | cons a s ih =>
    cases t with
    | nil => simp [compareCodeUnits]
    | cons b t =>
      by_cases h : a = b
      · simpa [compareCodeUnits, h] using ih t
      · simp [compareCodeUnits, h, Ne.symm h]

theorem compareCodeUnits_trans (s t u : JsString) (h : compareCodeUnits s t ≤ 0)
    (h' : compareCodeUnits t u ≤ 0) : compareCodeUnits s u ≤ 0 := by
  induction s generalizing t u with
  | nil => cases u <;> simp [compareCodeUnits]
  | cons a s ih =>
    cases t with
    | nil => simp [compareCodeUnits] at h; omega
    | cons b t =>
      cases u with
      | nil => simp [compareCodeUnits] at h'; omega
      | cons c u =>
        simp only [compareCodeUnits] at h h' ⊢
        by_cases hab : a = b
        · subst hab
          by_cases hac : a = c
          · simp only [hac, if_true] at h h' ⊢
            exact ih t u h h'
          · simpa [hac] using h'
        · by_cases hbc : b = c
          · subst hbc
            simpa [hab] using h
          · have hne := toNat_ne hab
            have hne' := toNat_ne hbc
            simp only [hab, hbc, if_false] at h h'
            have hac : a ≠ c := fun he => by
              rw [he] at h hne
              omega
            simp only [hac, if_false]
            omega

/-- Only equal strings compare equal. -/
theorem compareCodeUnits_eq_zero {s t : JsString} (h : compareCodeUnits s t = 0) : s = t := by
  induction s generalizing t with
  | nil =>
    cases t with
    | nil => rfl
    | cons b t => simp [compareCodeUnits] at h; omega
  | cons a s ih =>
    cases t with
    | nil => simp [compareCodeUnits] at h; omega
    | cons b t =>
      by_cases hab : a = b
      · simp only [compareCodeUnits, hab, if_true] at h
        rw [hab, ih h]
      · have hne := toNat_ne hab
        simp only [compareCodeUnits, hab, if_false] at h
        omega

/-- The order by code units. -/
def codeUnitOrder : Collation where
  compare := compareCodeUnits
  swap s t := by
    have h := compareCodeUnits_swap s t
    omega
  trans := compareCodeUnits_trans

end CodeUnits

section Sorting

variable {α : Type}

/-- `items.sort(c.compare)`. -/
def sortBy (c : Comparator α) (items : List α) : List α :=
  items.insertionSort fun a b => c.compare a b ≤ 0

theorem sortBy_perm (c : Comparator α) (items : List α) : (sortBy c items).Perm items :=
  List.perm_insertionSort ..

theorem mem_sortBy {c : Comparator α} {items : List α} {a : α} :
    a ∈ sortBy c items ↔ a ∈ items :=
  (sortBy_perm c items).mem_iff

theorem sortBy_pairwise (c : Comparator α) (items : List α) :
    (sortBy c items).Pairwise fun a b => c.compare a b ≤ 0 := by
  have : Std.Total fun a b => c.compare a b ≤ 0 := ⟨c.total⟩
  have : IsTrans α fun a b => c.compare a b ≤ 0 := ⟨c.trans⟩
  exact List.pairwise_insertionSort ..

/-- A sorted list is left as it is. -/
theorem sortBy_sortBy (c : Comparator α) (items : List α) :
    sortBy c (sortBy c items) = sortBy c items :=
  (sortBy_pairwise c items).insertionSort_eq

/-- Without ties the result does not depend on the order of the items. -/
theorem sortBy_eq_of_perm {c : Comparator α} {items items' : List α} (h : items.Perm items')
    (hc : ∀ a ∈ items, ∀ b ∈ items, c.compare a b = 0 → a = b) :
    sortBy c items = sortBy c items' := by
  have hp : (sortBy c items).Perm (sortBy c items') :=
    (sortBy_perm c items).trans (h.trans (sortBy_perm c items').symm)
  refine hp.eq_of_pairwise (fun a b ha hb hab hba => ?_) (sortBy_pairwise ..) (sortBy_pairwise ..)
  exact hc a (mem_sortBy.mp ha) b (h.mem_iff.mpr (mem_sortBy.mp hb)) (c.eq_zero_of_le hab hba)

/-- The first item of the sorted list compares below every item. -/
theorem compare_head_sortBy {c : Comparator α} {items : List α} {a : α} {rest : List α}
    (h : sortBy c items = a :: rest) {b : α} (hb : b ∈ items) (hne : b ≠ a) :
    c.compare a b ≤ 0 := by
  have hp := sortBy_pairwise c items
  rw [h, List.pairwise_cons] at hp
  have hm : b ∈ a :: rest := h ▸ mem_sortBy.mpr hb
  exact hp.1 b ((List.mem_cons.mp hm).resolve_left hne)

/-- Sorting keeps the items of one key in their order. -/
theorem filter_sortBy {κ : Type} [DecidableEq κ] {c : Comparator κ} (key : α → κ) (items : List α)
    (k : κ) : (sortBy (c.on key) items).filter (fun a => key a = k) =
      items.filter fun a => key a = k := by
  have hrel : (items.filter fun a => key a = k).Pairwise fun a b => (c.on key).compare a b ≤ 0 := by
    refine List.pairwise_of_forall_mem_list fun a ha b hb => ?_
    have ha := of_decide_eq_true (List.mem_filter.mp ha).2
    have hb := of_decide_eq_true (List.mem_filter.mp hb).2
    change c.compare (key a) (key b) ≤ 0
    rw [ha, hb]
    exact (c.total k k).elim id id
  have : Std.Total fun a b => (c.on key).compare a b ≤ 0 := ⟨(c.on key).total⟩
  have : IsTrans α fun a b => (c.on key).compare a b ≤ 0 := ⟨(c.on key).trans⟩
  have hsub := (List.sublist_insertionSort hrel List.filter_sublist).filter fun a => key a = k
  rw [List.filter_filter] at hsub
  simp only [Bool.and_self] at hsub
  exact (hsub.eq_of_length ((sortBy_perm _ items).filter _).length_eq.symm).symm

/-- Sorted lists with the same items of every key are one list. -/
theorem eq_of_filter_eq {κ : Type} [DecidableEq κ] {c : Comparator κ}
    (hc : ∀ k l, c.compare k l = 0 → k = l) {key : α → κ} {items items' : List α}
    (h : items.Pairwise fun a b => (c.on key).compare a b ≤ 0)
    (h' : items'.Pairwise fun a b => (c.on key).compare a b ≤ 0)
    (hfilter : ∀ k, items.filter (fun a => key a = k) = items'.filter fun a => key a = k) :
    items = items' := by
  induction items generalizing items' with
  | nil =>
    cases items' with
    | nil => rfl
    | cons b items' => simpa using hfilter (key b)
  | cons a items ih =>
    cases items' with
    | nil => simpa using (hfilter (key a)).symm
    | cons b items' =>
      rw [List.pairwise_cons] at h h'
      have hkey : key a = key b := by
        have ha : a ∈ b :: items' := by
          have hmem : a ∈ (a :: items).filter fun x => key x = key a := by simp
          rw [hfilter] at hmem
          exact (List.mem_filter.mp hmem).1
        have hb : b ∈ a :: items := by
          have hmem : b ∈ (b :: items').filter fun x => key x = key b := by simp
          rw [← hfilter] at hmem
          exact (List.mem_filter.mp hmem).1
        rcases List.mem_cons.mp ha with rfl | ha
        · rfl
        · rcases List.mem_cons.mp hb with rfl | hb
          · rfl
          · exact hc _ _ (c.eq_zero_of_le (h.1 b hb) (h'.1 a ha))
      have hhead := hfilter (key a)
      rw [List.filter_cons_of_pos (by simp), List.filter_cons_of_pos (by simp [hkey])] at hhead
      obtain ⟨rfl, -⟩ := List.cons.inj hhead
      refine congrArg (a :: ·) (ih h.2 h'.2 fun k => ?_)
      have hk := hfilter k
      by_cases hak : key a = k
      · rw [List.filter_cons_of_pos (by simpa using hak), List.filter_cons_of_pos (by simpa using hak)]
          at hk
        exact (List.cons.inj hk).2
      · rwa [List.filter_cons_of_neg (by simpa using hak), List.filter_cons_of_neg (by simpa using hak)]
          at hk

/-- Lists sort alike exactly when the items of every key stand in one order. -/
theorem sortBy_on_eq_iff {κ : Type} [DecidableEq κ] {c : Comparator κ}
    (hc : ∀ k l, c.compare k l = 0 → k = l) (key : α → κ) (items items' : List α) :
    sortBy (c.on key) items = sortBy (c.on key) items' ↔
      ∀ k, items.filter (fun a => key a = k) = items'.filter fun a => key a = k := by
  constructor
  · intro h k
    rw [← filter_sortBy (c := c) key items, h, filter_sortBy]
  · intro h
    refine eq_of_filter_eq hc (sortBy_pairwise _ items) (sortBy_pairwise _ items') fun k => ?_
    rw [filter_sortBy, filter_sortBy, h k]

end Sorting

end OpenWop.Js
