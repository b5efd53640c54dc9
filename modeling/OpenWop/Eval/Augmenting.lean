import OpenWop.Eval.Trajectory

/-!
# The search for augmenting paths

A search either gives its expected call a place, and every other owner keeps one, or leaves the
owners alone; then the places it has seen are closed: all are owned, and their owners match no
place outside. Closed places stay with their owners, so a call that found no place never will.
-/

namespace OpenWop.Eval

open OpenWop.Matching

section Search

variable {matching : ℕ → ℕ → Bool} {width : ℕ}

/-- The places within reach are owned by calls that match no other place. -/
def Closed (matching : ℕ → ℕ → Bool) (width : ℕ) (owner : List (Option ℕ)) (C : Finset ℕ) : Prop :=
  ∀ j ∈ C, ∃ i, owner[j]? = some (some i) ∧ ∀ j' < width, matching i j' = true → j' ∈ C

/-- Every owner matches its place. -/
def Sound (matching : ℕ → ℕ → Bool) (owner : List (Option ℕ)) : Prop :=
  ∀ i j, owner[j]? = some (some i) → matching i j = true

/-- What a search from a call leaves, when it goes through these places. -/
structure Searched (matching : ℕ → ℕ → Bool) (width i : ℕ) (js : List ℕ) (s : Search)
    (r : Bool × Search) : Prop where
  length : r.2.owner.length = s.owner.length
  seen : s.seen ⊆ r.2.seen ∧ r.2.seen ⊆ Finset.range width
  kept : ∀ j ∈ s.seen, r.2.owner[j]? = s.owner[j]?
  sound : Sound matching s.owner → Sound matching r.2.owner
  found : r.1 = true → r.2.owner.reduceOption.Perm (i :: s.owner.reduceOption)
  lost : r.1 = false → r.2.owner = s.owner ∧ (∀ j ∈ js, matching i j = true → j ∈ r.2.seen) ∧
    ∀ j ∈ r.2.seen, j ∉ s.seen →
      ∃ i', s.owner[j]? = some (some i') ∧ ∀ j' < width, matching i' j' = true → j' ∈ r.2.seen
  closed : ∀ C, Closed matching width s.owner C → (∀ j ∈ C, r.2.owner[j]? = s.owner[j]?) ∧
    ((∀ j ∈ js, matching i j = true → j ∈ C) → r.1 = false)

/-- A state of the search of that width, with fewer places left to see. -/
structure Within (width fuel : ℕ) (s : Search) : Prop where
  length : s.owner.length = width
  seen : s.seen ⊆ Finset.range width
  left : width < fuel + s.seen.card

theorem Within.getElem? {fuel : ℕ} {s : Search} (hs : Within width fuel s) {j : ℕ} (hj : j < width) :
    s.owner[j]? = some s.owner[j]?.join := by
  rw [List.getElem?_eq_getElem (by rwa [hs.length]), Option.join_some]

theorem Within.insert {fuel : ℕ} {s : Search} (hs : Within width (fuel + 1) s) {j : ℕ}
    (hj : j < width) (hseen : j ∉ s.seen) :
    Within width fuel { s with seen := insert j s.seen } where
  length := hs.length
  seen := Finset.insert_subset (Finset.mem_range.mpr hj) hs.seen
  left := by
    have hleft := hs.left
    rw [Finset.card_insert_of_notMem hseen]
    omega

/-- A search of a marked state leaves no more places to see. -/
theorem Searched.within {fuel i j : ℕ} {js : List ℕ} {s : Search} {r : Bool × Search}
    (h : Searched matching width i js { s with seen := Insert.insert j s.seen } r)
    (hs : Within width fuel s) : Within width fuel r.2 where
  length := h.length.trans hs.length
  seen := h.seen.2
  left := by
    have hcard := Finset.card_le_card ((Finset.subset_insert j s.seen).trans h.seen.1)
    exact lt_of_lt_of_le hs.left (Nat.add_le_add_left hcard _)

/-- Passing over a place. -/
theorem Searched.skip {i j : ℕ} {js : List ℕ} {s : Search} {r : Bool × Search}
    (h : Searched matching width i js s r) (hj : j ∈ s.seen ∨ matching i j = false) :
    Searched matching width i (j :: js) s r where
  length := h.length
  seen := h.seen
  kept := h.kept
  sound := h.sound
  found := h.found
  lost := by
    intro hlost
    obtain ⟨howner, hreach, hclosed⟩ := h.lost hlost
    refine ⟨howner, List.forall_mem_cons.mpr ⟨fun hmatch => ?_, hreach⟩, hclosed⟩
    exact h.seen.1 (hj.resolve_right (by rw [hmatch]; exact Bool.noConfusion))
  closed := fun C hC => ⟨(h.closed C hC).1, fun hall => (h.closed C hC).2
    fun j hj => hall j (List.mem_cons_of_mem _ hj)⟩

/-- A place that was free. -/
theorem searched_free {fuel i j : ℕ} {js : List ℕ} {s : Search}
    (hs : Within width (fuel + 1) s) (hj : j < width) (hseen : j ∉ s.seen)
    (hmatch : matching i j = true) (hfree : s.owner[j]?.join = none) :
    Searched matching width i (j :: js) s
      (true, { owner := s.owner.set j (some i), seen := insert j s.seen }) := by
  have hread : s.owner[j]? = some none := by rw [hs.getElem? hj, hfree]
  have hother : ∀ j' ≠ j, (s.owner.set j (some i))[j']? = s.owner[j']? := fun j' hne =>
    List.getElem?_set_ne (Ne.symm hne)
  refine ⟨List.length_set .., ⟨Finset.subset_insert .., (hs.insert hj hseen).seen⟩, ?_, ?_,
    fun _ => reduceOption_set_none hread, fun h => (Bool.noConfusion h), fun C hC => ?_⟩
  · rintro j' hj'
    exact hother j' fun he => hseen (he ▸ hj')
  · intro hsound i' j' hi'
    by_cases hne : j' = j
    · subst hne
      rw [List.getElem?_set_self (by rwa [hs.length])] at hi'
      cases hi'
      exact hmatch
    · exact hsound i' j' ((hother j' hne).symm.trans hi')
  · have hout : j ∉ C := by
      intro hC'
      obtain ⟨i', hi', _⟩ := hC j hC'
      rw [hread] at hi'
      cases hi'
    refine ⟨fun j' hj' => hother j' fun he => hout (he ▸ hj'), fun hall => ?_⟩
    exact absurd (hall j List.mem_cons_self hmatch) hout

/-- A place whose owner found another one. -/
theorem searched_moved {fuel i i' j : ℕ} {js : List ℕ} {s s' : Search}
    (hs : Within width (fuel + 1) s) (hj : j < width) (hseen : j ∉ s.seen)
    (hmatch : matching i j = true) (howner : s.owner[j]?.join = some i')
    (h : Searched matching width i' (List.range width) { s with seen := insert j s.seen } (true, s')) :
    Searched matching width i (j :: js) s
      (true, { owner := s'.owner.set j (some i), seen := s'.seen }) := by
  have hread : s.owner[j]? = some (some i') := by rw [hs.getElem? hj, howner]
  have hread' : s'.owner[j]? = some (some i') := (h.kept j (Finset.mem_insert_self ..)).trans hread
  have hother : ∀ j' ≠ j, (s'.owner.set j (some i))[j']? = s'.owner[j']? := fun j' hne =>
    List.getElem?_set_ne (Ne.symm hne)
  have hlength : s'.owner.length = width := h.length.trans hs.length
  refine ⟨(List.length_set ..).trans h.length,
    ⟨(Finset.subset_insert ..).trans h.seen.1, h.seen.2⟩, ?_, ?_, fun _ => ?_,
    fun hlost => (Bool.noConfusion hlost), fun C hC => ?_⟩
  · intro j' hj'
    rw [hother j' fun he => hseen (he ▸ hj')]
    exact h.kept j' (Finset.mem_insert_of_mem hj')
  · intro hsound i'' j' hi''
    by_cases hne : j' = j
    · subst hne
      rw [List.getElem?_set_self (by rwa [hlength])] at hi''
      cases hi''
      exact hmatch
    · exact h.sound hsound i'' j' ((hother j' hne).symm.trans hi'')
  · have hfound := (h.found rfl).cons i
    exact (((reduceOption_set_some hread').trans hfound).trans (List.Perm.swap i' i _)).cons_inv
  · obtain ⟨hkept, hlost⟩ := h.closed C hC
    have hout : j ∉ C := by
      intro hC'
      obtain ⟨i'', hi'', hreach⟩ := hC j hC'
      rw [hread] at hi''
      cases hi''
      exact Bool.noConfusion (hlost fun j' hj' => hreach j' (List.mem_range.mp hj'))
    refine ⟨fun j' hj' => ?_, fun hall => absurd (hall j List.mem_cons_self hmatch) hout⟩
    rw [hother j' fun he => hout (he ▸ hj')]
    exact hkept j' hj'

/-- A place whose owner found no other one. -/
theorem searched_stuck {fuel i i' j : ℕ} {js : List ℕ} {s s' : Search} {r : Bool × Search}
    (hs : Within width (fuel + 1) s) (hj : j < width) (howner : s.owner[j]?.join = some i')
    (h : Searched matching width i' (List.range width) { s with seen := insert j s.seen } (false, s'))
    (hr : Searched matching width i js s' r) : Searched matching width i (j :: js) s r := by
  obtain ⟨hsame, hreach, hclosed⟩ := h.lost rfl
  have hread : s.owner[j]? = some (some i') := by rw [hs.getElem? hj, howner]
  simp only at hsame hreach hclosed
  have hseen : s.seen ⊆ s'.seen := (Finset.subset_insert ..).trans h.seen.1
  refine ⟨hr.length.trans h.length, ⟨hseen.trans hr.seen.1, hr.seen.2⟩, fun j' hj' => ?_, ?_, ?_, ?_,
    fun C hC => ?_⟩
  · rw [hr.kept j' (hseen hj'), hsame]
  · exact fun hsound => hr.sound (hsame ▸ hsound)
  · intro hfound
    rw [← hsame]
    exact hr.found hfound
  · intro hlost
    obtain ⟨hsame', hreach', hclosed'⟩ := hr.lost hlost
    rw [hsame] at hsame' hclosed'
    have hwithin : j ∈ r.2.seen := hr.seen.1 (h.seen.1 (Finset.mem_insert_self ..))
    refine ⟨hsame', List.forall_mem_cons.mpr ⟨fun _ => hwithin, hreach'⟩, fun j' hj' hnew => ?_⟩
    by_cases hsecond : j' ∈ s'.seen
    · by_cases hne : j' = j
      · subst hne
        exact ⟨i', hread, fun j'' hj'' hm => hr.seen.1 (hreach j'' (List.mem_range.mpr hj'') hm)⟩
      · obtain ⟨i'', hi'', hall⟩ := hclosed j' hsecond (by simp [hne, hnew])
        exact ⟨i'', hi'', fun j'' hj'' hm => hr.seen.1 (hall j'' hj'' hm)⟩
    · exact hclosed' j' hj' hsecond
  · have hC' := hr.closed C (by rw [hsame]; exact hC)
    rw [hsame] at hC'
    exact ⟨hC'.1, fun hall => hC'.2 fun j' hj' => hall j' (List.mem_cons_of_mem _ hj')⟩

/-- The loop over the places, when the recursive calls search as they should. -/
theorem visit_searched {next : ℕ → Search → Bool × Search} {fuel : ℕ}
    (hnext : ∀ i s, Within width fuel s →
      Searched matching width i (List.range width) s (next i s)) (i : ℕ) (js : List ℕ)
    (hjs : ∀ j ∈ js, j < width) {s : Search} (hs : Within width (fuel + 1) s) :
    Searched matching width i js s (visit matching next i js s) := by
  induction js generalizing s with
  | nil =>
    refine ⟨rfl, ⟨Finset.Subset.refl _, hs.seen⟩, fun _ _ => rfl, id, fun h => (Bool.noConfusion h),
      fun _ => ⟨rfl, by simp, fun j hj hnew => absurd hj hnew⟩, fun C _ => ⟨fun _ _ => rfl, fun _ => rfl⟩⟩
  | cons j js ih =>
    rw [List.forall_mem_cons] at hjs
    rw [visit]
    split
    · next hskip => exact (ih hjs.2 hs).skip hskip
    · next hstep =>
      rw [not_or, Bool.not_eq_false] at hstep
      have hwithin := hs.insert hjs.1 hstep.1
      cases howner : s.owner[j]?.join with
      | none =>
        simp only [howner]
        exact searched_free hs hjs.1 hstep.1 hstep.2 howner
      | some i' =>
        have hsearched := hnext i' _ hwithin
        simp only [howner]
        cases hresult : next i' { s with seen := insert j s.seen } with
        | mk found s' =>
          rw [hresult] at hsearched
          cases found with
          | true => exact searched_moved hs hjs.1 hstep.1 hstep.2 howner hsearched
          | false =>
            have hs' : Within width (fuel + 1) s' := hsearched.within hs
            exact searched_stuck hs hjs.1 howner hsearched (ih hjs.2 hs')

/-- A search with enough depth. -/
theorem augment_searched {fuel : ℕ} (i : ℕ) {s : Search} (hs : Within width fuel s) :
    Searched matching width i (List.range width) s (augment matching width fuel i s) := by
  induction fuel generalizing i s with
  | zero =>
    have hcard := Finset.card_le_card hs.seen
    have hleft := hs.left
    rw [Finset.card_range] at hcard
    omega
  | succ fuel ih => exact visit_searched (fun i s hs => ih i hs) i _ (fun j => List.mem_range.mp) hs

/-- The loop depends on the recursive calls it makes. -/
theorem visit_congr {next next' : ℕ → Search → Bool × Search} {fuel : ℕ}
    (hnext : ∀ i s, Within width fuel s →
      Searched matching width i (List.range width) s (next i s) ∧ next' i s = next i s) (i : ℕ)
    (js : List ℕ) (hjs : ∀ j ∈ js, j < width) {s : Search} (hs : Within width (fuel + 1) s) :
    visit matching next' i js s = visit matching next i js s := by
  induction js generalizing s with
  | nil => rfl
  | cons j js ih =>
    rw [List.forall_mem_cons] at hjs
    rw [visit, visit, ih hjs.2 hs]
    split
    · rfl
    · next hstep =>
      rw [not_or] at hstep
      cases howner : s.owner[j]?.join with
      | none => simp only [howner]
      | some i' =>
        obtain ⟨hsearched, hsame⟩ := hnext i' _ (hs.insert hjs.1 hstep.1)
        simp only [howner, hsame]
        cases hresult : next i' { s with seen := insert j s.seen } with
        | mk found s' =>
          rw [hresult] at hsearched
          cases found with
          | true => rfl
          | false => exact ih hjs.2 (hsearched.within hs)

/-- The depth is never used up: a deeper search is the same one. -/
theorem augment_succ {fuel : ℕ} (i : ℕ) {s : Search} (hs : Within width fuel s) :
    augment matching width (fuel + 1) i s = augment matching width fuel i s := by
  induction fuel generalizing i s with
  | zero =>
    have hcard := Finset.card_le_card hs.seen
    have hleft := hs.left
    rw [Finset.card_range] at hcard
    omega
  | succ fuel ih =>
    exact visit_congr (fun i s hs => ⟨augment_searched i hs, ih i hs⟩) i _
      (fun j => List.mem_range.mp) hs

end Search

end OpenWop.Eval
