import Mathlib.Data.Finset.Card
import Mathlib.Data.Finset.Prod
import Mathlib.Data.Fintype.Card
import Mathlib.Data.List.ReduceOption
import Mathlib.Data.List.Perm.Basic
import Mathlib.Order.Bounds.Basic

/-!
# One-to-one matchings

Pairs of related elements that share no element. A matching is no larger than elements that touch
every related pair, and the list of the owners of the second elements is one.
-/

namespace OpenWop.Matching

section Matchings

variable {ι κ ι' κ' : Type} {r : ι → κ → Prop} {M : Finset (ι × κ)}

/-- Related pairs, no two of which share an element. -/
structure IsMatching (r : ι → κ → Prop) (M : Finset (ι × κ)) : Prop where
  related : ∀ p ∈ M, r p.1 p.2
  left : ∀ p ∈ M, ∀ q ∈ M, p.1 = q.1 → p = q
  right : ∀ p ∈ M, ∀ q ∈ M, p.2 = q.2 → p = q

/-- The size of a largest matching. -/
def IsMaximum (r : ι → κ → Prop) (n : ℕ) : Prop :=
  IsGreatest {n | ∃ M : Finset (ι × κ), IsMatching r M ∧ M.card = n} n

/-- Elements that touch every pair are at least as many as the pairs. -/
theorem IsMatching.card_le_of_cover [DecidableEq ι] [DecidableEq κ] (hM : IsMatching r M)
    {A : Finset ι} {B : Finset κ} (h : ∀ p ∈ M, p.1 ∈ A ∨ p.2 ∈ B) :
    M.card ≤ A.card + B.card := by
  have hleft : (M.filter fun p => p.1 ∈ A).card ≤ A.card := by
    refine Finset.card_le_card_of_injOn Prod.fst (fun p hp => (Finset.mem_filter.mp hp).2) ?_
    intro p hp q hq hpq
    exact hM.left p (Finset.mem_filter.mp hp).1 q (Finset.mem_filter.mp hq).1 hpq
  have hright : (M.filter fun p => ¬ p.1 ∈ A).card ≤ B.card := by
    refine Finset.card_le_card_of_injOn Prod.snd (fun p hp => ?_) ?_
    · obtain ⟨hp, hA⟩ := Finset.mem_filter.mp hp
      exact (h p hp).resolve_left hA
    · intro p hp q hq hpq
      exact hM.right p (Finset.mem_filter.mp hp).1 q (Finset.mem_filter.mp hq).1 hpq
  rw [← Finset.card_filter_add_card_filter_not (s := M) (fun p => p.1 ∈ A)]
  exact Nat.add_le_add hleft hright

/-- A matching is carried along by renamings of both sides. -/
theorem IsMatching.map [DecidableEq ι'] [DecidableEq κ'] (hM : IsMatching r M)
    {r' : ι' → κ' → Prop} {f : ι → ι'} {g : κ → κ'} (hf : Function.Injective f)
    (hg : Function.Injective g) (h : ∀ i j, r i j → r' (f i) (g j)) :
    IsMatching r' (M.image (Prod.map f g)) ∧ (M.image (Prod.map f g)).card = M.card := by
  refine ⟨⟨?_, ?_, ?_⟩, Finset.card_image_of_injective M (hf.prodMap hg)⟩
  · rw [Finset.forall_mem_image]
    exact fun p hp => h p.1 p.2 (hM.related p hp)
  · simp only [Finset.forall_mem_image]
    exact fun p hp q hq hpq => congrArg _ (hM.left p hp q hq (hf hpq))
  · simp only [Finset.forall_mem_image]
    exact fun p hp q hq hpq => congrArg _ (hM.right p hp q hq (hg hpq))

/-- Relations that are renamings of each other have matchings of one size. -/
theorem IsMaximum.congr [DecidableEq ι] [DecidableEq κ] [DecidableEq ι'] [DecidableEq κ']
    {r' : ι' → κ' → Prop} {n m : ℕ} (hn : IsMaximum r n) (hm : IsMaximum r' m)
    {f : ι → ι'} {g : κ → κ'} (hf : Function.Injective f) (hg : Function.Injective g)
    (h : ∀ i j, r i j → r' (f i) (g j)) : n ≤ m := by
  obtain ⟨M, hM, rfl⟩ := hn.1
  obtain ⟨hmatching, hcard⟩ := hM.map hf hg h
  exact hm.2 ⟨_, hmatching, hcard⟩

/-- An assignment of distinct related elements to the first `n` is a matching of that size. -/
theorem exists_injOn_iff {r : ℕ → κ → Prop} {n : ℕ} (hr : ∀ i j, r i j → i < n) [DecidableEq κ] :
    (∃ M : Finset (ℕ × κ), IsMatching r M ∧ M.card = n) ↔
      ∃ f : Fin n → κ, Function.Injective f ∧ ∀ i : Fin n, r i (f i) := by
  constructor
  · rintro ⟨M, hM, hcard⟩
    have hrange : M.image Prod.fst = Finset.range n := by
      refine Finset.eq_of_subset_of_card_le ?_ ?_
      · intro i hi
        obtain ⟨p, hp, rfl⟩ := Finset.mem_image.mp hi
        exact Finset.mem_range.mpr (hr _ _ (hM.related p hp))
      · rw [Finset.card_range, Finset.card_image_of_injOn, hcard]
        exact fun p hp q hq hpq => hM.left p hp q hq hpq
    have hpair : ∀ i : Fin n, ∃ j, ((i : ℕ), j) ∈ M := by
      intro i
      have hi : (i : ℕ) ∈ M.image Prod.fst := by rw [hrange]; exact Finset.mem_range.mpr i.2
      obtain ⟨⟨i', j⟩, hp, hpi⟩ := Finset.mem_image.mp hi
      exact ⟨j, hpi ▸ hp⟩
    choose f hf using hpair
    refine ⟨f, fun i i' hii' => ?_, fun i => hM.related _ (hf i)⟩
    exact Fin.ext (congrArg Prod.fst (hM.right _ (hf i) _ (hf i') hii'))
  · rintro ⟨f, hinj, hf⟩
    refine ⟨Finset.univ.image fun i : Fin n => ((i : ℕ), f i), ⟨?_, ?_, ?_⟩, ?_⟩
    · simp only [Finset.forall_mem_image]
      exact fun i _ => hf i
    · simp only [Finset.forall_mem_image]
      intro i _ i' _ hii'
      obtain rfl : i = i' := Fin.ext hii'
      rfl
    · simp only [Finset.forall_mem_image]
      intro i _ i' _ hii'
      obtain rfl : i = i' := hinj hii'
      rfl
    · rw [Finset.card_image_of_injective, Finset.card_univ, Fintype.card_fin]
      exact fun i i' hii' => Fin.ext (congrArg Prod.fst hii')

end Matchings

section Owners

variable {α : Type} {owner : List (Option α)} {j : ℕ} {a b : α}

/-- A free place is given to an owner. -/
theorem reduceOption_set_none (h : owner[j]? = some none) :
    (owner.set j (some b)).reduceOption.Perm (b :: owner.reduceOption) := by
  induction owner generalizing j with
  | nil => simp at h
  | cons x owner ih =>
    cases j with
    | zero =>
      obtain rfl : x = none := by simpa using h
      rw [List.set_cons_zero, List.reduceOption_cons_of_some, List.reduceOption_cons_of_none]
    | succ j =>
      have htail := ih (by simpa using h)
      rw [List.set_cons_succ]
      cases x with
      | none => simpa only [List.reduceOption_cons_of_none] using htail
      | some c =>
        rw [List.reduceOption_cons_of_some, List.reduceOption_cons_of_some]
        exact (htail.cons c).trans (List.Perm.swap b c _)

/-- A place goes from one owner to another. -/
theorem reduceOption_set_some (h : owner[j]? = some (some a)) :
    (a :: (owner.set j (some b)).reduceOption).Perm (b :: owner.reduceOption) := by
  induction owner generalizing j with
  | nil => simp at h
  | cons x owner ih =>
    cases j with
    | zero =>
      obtain rfl : x = some a := by simpa using h
      rw [List.set_cons_zero, List.reduceOption_cons_of_some, List.reduceOption_cons_of_some]
      exact List.Perm.swap b a _
    | succ j =>
      have htail := ih (by simpa using h)
      rw [List.set_cons_succ]
      cases x with
      | none => simpa only [List.reduceOption_cons_of_none] using htail
      | some c =>
        rw [List.reduceOption_cons_of_some, List.reduceOption_cons_of_some]
        exact (List.Perm.swap c a _).trans ((htail.cons c).trans (List.Perm.swap b c _))

/-- Distinct owners own one place each. -/
theorem eq_of_nodup_reduceOption (hnodup : owner.reduceOption.Nodup) {j' : ℕ}
    (h : owner[j]? = some (some a)) (h' : owner[j']? = some (some a)) : j = j' := by
  induction owner generalizing j j' with
  | nil => simp at h
  | cons x owner ih =>
    have hmem : ∀ {j : ℕ}, owner[j]? = some (some a) → a ∈ owner.reduceOption := fun hj =>
      List.reduceOption_mem_iff.mpr (List.mem_of_getElem? hj)
    cases x with
    | none =>
      rw [List.reduceOption_cons_of_none] at hnodup
      cases j with
      | zero => simp at h
      | succ j =>
        cases j' with
        | zero => simp at h'
        | succ j' => exact congrArg Nat.succ (ih hnodup (by simpa using h) (by simpa using h'))
    | some c =>
      rw [List.reduceOption_cons_of_some, List.nodup_cons] at hnodup
      cases j with
      | zero =>
        obtain rfl : a = c := by simpa using h.symm
        cases j' with
        | zero => rfl
        | succ j' => exact absurd (hmem (by simpa using h')) hnodup.1
      | succ j =>
        cases j' with
        | zero =>
          obtain rfl : a = c := by simpa using h'.symm
          exact absurd (hmem (by simpa using h)) hnodup.1
        | succ j' => exact congrArg Nat.succ (ih hnodup.2 (by simpa using h) (by simpa using h'))

/-- The places that are owned. -/
def ownedPlaces (owner : List (Option α)) : Finset ℕ :=
  (Finset.range owner.length).filter fun j => (owner[j]?.join).isSome

theorem mem_ownedPlaces : j ∈ ownedPlaces owner ↔ ∃ a, owner[j]? = some (some a) := by
  rw [ownedPlaces, Finset.mem_filter, Finset.mem_range, Option.isSome_iff_exists]
  simp only [Option.join_eq_some_iff]
  constructor
  · exact fun h => h.2
  · rintro ⟨a, ha⟩
    exact ⟨(List.getElem?_eq_some_iff.mp ha).1, a, ha⟩

theorem card_ownedPlaces (owner : List (Option α)) :
    (ownedPlaces owner).card = owner.reduceOption.length := by
  induction owner with
  | nil => rfl
  | cons x owner ih =>
    have hsplit : ownedPlaces (x :: owner) =
        (if x.isSome then {0} else ∅) ∪ (ownedPlaces owner).image Nat.succ := by
      ext j
      rw [mem_ownedPlaces, Finset.mem_union, Finset.mem_image]
      cases j with
      | zero => cases x <;> simp
      | succ j =>
        have hzero : j + 1 ∉ (if x.isSome then {0} else ∅ : Finset ℕ) := by cases x <;> simp
        simp [hzero, mem_ownedPlaces]
    have hdisjoint : Disjoint (if x.isSome then {0} else ∅ : Finset ℕ)
        ((ownedPlaces owner).image Nat.succ) := by
      rw [Finset.disjoint_left]
      intro j hj
      have hzero : j = 0 := by
        cases x with
        | none => simp at hj
        | some a => simpa using hj
      simp [hzero]
    rw [hsplit, Finset.card_union_of_disjoint hdisjoint,
      Finset.card_image_of_injective _ Nat.succ_injective, ih]
    cases x with
    | none => simp
    | some c =>
      rw [List.reduceOption_cons_of_some, List.length_cons, Option.isSome_some, if_pos rfl,
        Finset.card_singleton, Nat.add_comm]

/-- Distinct owners of related places are a matching. -/
theorem exists_isMatching {owner : List (Option ℕ)} {r : ℕ → ℕ → Prop}
    (hnodup : owner.reduceOption.Nodup) (hr : ∀ i j, owner[j]? = some (some i) → r i j) :
    ∃ M : Finset (ℕ × ℕ), IsMatching r M ∧ M.card = owner.reduceOption.length := by
  have hread : ∀ j ∈ ownedPlaces owner, owner[j]? = some (some ((owner[j]?.join).getD 0)) := by
    intro j hj
    obtain ⟨i, hi⟩ := mem_ownedPlaces.mp hj
    rw [hi, Option.join_some, Option.getD_some]
  refine ⟨(ownedPlaces owner).image fun j => ((owner[j]?.join).getD 0, j), ⟨?_, ?_, ?_⟩, ?_⟩
  · rw [Finset.forall_mem_image]
    exact fun j hj => hr _ j (hread j hj)
  · simp only [Finset.forall_mem_image]
    intro j hj j' hj' howner
    have hj'' := hread j' hj'
    rw [← howner] at hj''
    obtain rfl := eq_of_nodup_reduceOption hnodup (hread j hj) hj''
    rfl
  · simp only [Finset.forall_mem_image]
    rintro j _ _ _ rfl
    rfl
  · rw [Finset.card_image_of_injective, card_ownedPlaces]
    exact fun j j' h => congrArg Prod.snd h

end Owners

end OpenWop.Matching
