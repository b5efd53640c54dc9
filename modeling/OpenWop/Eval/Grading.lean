import Mathlib.Data.List.NodupEquivFin
import OpenWop.Eval.Augmenting

/-!
# The grade of a trajectory

After every expected call has searched for a place, the closed places and the owners of the other
ones touch every matching pair: the count is the size of a largest matching. The scan in order takes
the first matching call each time, which loses nothing.
-/

namespace OpenWop.Eval

open OpenWop.Js OpenWop.Matching

section Runs

variable {matching : ℕ → ℕ → Bool} {width : ℕ}

/-- What the searches of the first `n` expected calls have kept. -/
structure Matched (matching : ℕ → ℕ → Bool) (width n : ℕ) (state : List (Option ℕ) × ℕ) : Prop where
  length : state.1.length = width
  sound : Sound matching state.1
  below : ∀ i ∈ state.1.reduceOption, i < n
  nodup : state.1.reduceOption.Nodup
  count : state.2 = state.1.reduceOption.length
  stuck : ∃ C, Closed matching width state.1 C ∧ ∀ i < n, i ∈ state.1.reduceOption ∨
    ∀ j < width, matching i j = true → j ∈ C

theorem Closed.of_kept {owner owner' : List (Option ℕ)} {C : Finset ℕ}
    (hC : Closed matching width owner C) (h : ∀ j ∈ C, owner'[j]? = owner[j]?) :
    Closed matching width owner' C := by
  intro j hj
  obtain ⟨i, hi, hreach⟩ := hC j hj
  exact ⟨i, (h j hj).trans hi, hreach⟩

/-- One more expected call. -/
theorem Matched.augmentOnce {n : ℕ} {state : List (Option ℕ) × ℕ}
    (h : Matched matching width n state) :
    Matched matching width (n + 1) (augmentOnce matching width state n) := by
  have hwithin : Within width (width + 1) { owner := state.1, seen := ∅ } :=
    ⟨h.length, Finset.empty_subset _, by simp⟩
  have hsearched : Searched matching width n (List.range width) { owner := state.1, seen := ∅ }
      (augment matching width (width + 1) n { owner := state.1, seen := ∅ }) :=
    augment_searched n hwithin
  obtain ⟨C, hC, hrows⟩ := h.stuck
  rw [Eval.augmentOnce]
  cases hresult : augment matching width (width + 1) n { owner := state.1, seen := ∅ } with
  | mk found s =>
    rw [hresult] at hsearched
    have hlength : s.owner.length = width := hsearched.length.trans h.length
    have hsound : Sound matching s.owner := hsearched.sound h.sound
    cases found with
    | true =>
      have hperm : s.owner.reduceOption.Perm (n :: state.1.reduceOption) := hsearched.found rfl
      refine ⟨hlength, hsound, fun i hi => ?_, ?_, ?_, C, hC.of_kept (hsearched.closed C hC).1, ?_⟩
      · rcases List.mem_cons.mp (hperm.mem_iff.mp hi) with rfl | hold
        · exact Nat.lt_succ_self i
        · exact Nat.lt_succ_of_lt (h.below i hold)
      · refine hperm.nodup_iff.mpr (List.nodup_cons.mpr ⟨fun hn => ?_, h.nodup⟩)
        exact Nat.lt_irrefl n (h.below n hn)
      · rw [hperm.length_eq, List.length_cons, h.count]
      · intro i hi
        rcases Nat.lt_succ_iff_lt_or_eq.mp hi with hi | rfl
        · exact (hrows i hi).imp_left fun hold => hperm.mem_iff.mpr (List.mem_cons_of_mem _ hold)
        · exact .inl (hperm.mem_iff.mpr List.mem_cons_self)
    | false =>
      obtain ⟨hsame, hreach, hclosed⟩ := hsearched.lost rfl
      simp only at hsame hreach hclosed
      change Matched matching width (n + 1) (s.owner, state.2)
      rw [hsame]
      refine ⟨h.length, h.sound, fun i hi => Nat.lt_succ_of_lt (h.below i hi), h.nodup, h.count,
        C ∪ s.seen, fun j hj => ?_, fun i hi => ?_⟩
      · rcases Finset.mem_union.mp hj with hj | hj
        · obtain ⟨i, hi, hall⟩ := hC j hj
          exact ⟨i, hi, fun j' hj' hm => Finset.mem_union_left _ (hall j' hj' hm)⟩
        · obtain ⟨i, hi, hall⟩ := hclosed j hj (Finset.notMem_empty j)
          exact ⟨i, hi, fun j' hj' hm => Finset.mem_union_right _ (hall j' hj' hm)⟩
      · rcases Nat.lt_succ_iff_lt_or_eq.mp hi with hi | rfl
        · exact (hrows i hi).imp_right fun hall j hj hm => Finset.mem_union_left _ (hall j hj hm)
        · exact .inr fun j hj hm =>
            Finset.mem_union_right _ (hreach j (List.mem_range.mpr hj) hm)

theorem matched_foldl (matching : ℕ → ℕ → Bool) (width n : ℕ) : Matched matching width n
    ((List.range n).foldl (augmentOnce matching width) (List.replicate width none, 0)) := by
  induction n with
  | zero =>
    refine ⟨by simp, fun i j h => ?_, by simp, by simp, by simp, ∅, fun j hj => ?_, by simp⟩
    · simp [List.getElem?_replicate] at h
    · exact absurd hj (Finset.notMem_empty j)
  | succ n ih =>
    rw [List.range_succ, List.foldl_append]
    exact ih.augmentOnce

/-- The owners are a largest matching. -/
theorem Matched.isMaximum {n : ℕ} {state : List (Option ℕ) × ℕ}
    (h : Matched matching width n state)
    (hbound : ∀ i j, matching i j = true → i < n ∧ j < width) :
    IsMaximum (fun i j => matching i j = true) state.2 := by
  refine ⟨?_, ?_⟩
  · obtain ⟨M, hM, hcard⟩ := exists_isMatching h.nodup h.sound
    exact ⟨M, hM, hcard.trans h.count.symm⟩
  · rintro _ ⟨M, hM, rfl⟩
    obtain ⟨C, hC, hrows⟩ := h.stuck
    have howned : C ⊆ ownedPlaces state.1 := fun j hj => by
      obtain ⟨i, hi, _⟩ := hC j hj
      exact mem_ownedPlaces.mpr ⟨i, hi⟩
    have hcover : ∀ p ∈ M, p.1 ∈ (ownedPlaces state.1 \ C).image (fun j => (state.1[j]?.join).getD 0) ∨
        p.2 ∈ C := by
      intro p hp
      obtain ⟨hi, hj⟩ := hbound _ _ (hM.related p hp)
      rcases hrows p.1 hi with hmem | hall
      · obtain ⟨j, hread⟩ := List.mem_iff_getElem?.mp (List.reduceOption_mem_iff.mp hmem)
        by_cases hjC : j ∈ C
        · obtain ⟨i, hi', hreach⟩ := hC j hjC
          rw [hread] at hi'
          cases hi'
          exact .inr (hreach p.2 hj (hM.related p hp))
        · refine .inl (Finset.mem_image.mpr ⟨j, Finset.mem_sdiff.mpr ⟨?_, hjC⟩, ?_⟩)
          · exact mem_ownedPlaces.mpr ⟨p.1, hread⟩
          · rw [hread, Option.join_some, Option.getD_some]
      · exact .inr (hall p.2 hj (hM.related p hp))
    calc M.card ≤ _ := hM.card_le_of_cover hcover
      _ ≤ (ownedPlaces state.1 \ C).card + C.card := Nat.add_le_add_right Finset.card_image_le _
      _ = state.2 := by rw [Finset.card_sdiff_add_card_eq_card howned, card_ownedPlaces, h.count]

end Runs

section Counts

variable (expected : List ExpectedCall) (observed : List ObservedCall)

theorem matchesAt_iff (i j : ℕ) : matchesAt expected observed i j = true ↔
    ∃ e o, expected[i]? = some e ∧ observed[j]? = some o ∧ callMatches e o = true := by
  rw [matchesAt]
  cases expected[i]? <;> cases observed[j]? <;> simp

theorem matchesAt_bound {i j : ℕ} (h : matchesAt expected observed i j = true) :
    i < expected.length ∧ j < observed.length := by
  obtain ⟨e, o, he, ho, _⟩ := (matchesAt_iff expected observed i j).mp h
  exact ⟨(List.getElem?_eq_some_iff.mp he).1, (List.getElem?_eq_some_iff.mp ho).1⟩

/-- The matched count is the size of a largest matching. -/
theorem maxMatching_isMaximum : IsMaximum (fun i j => matchesAt expected observed i j = true)
    (maxMatching expected observed) :=
  (matched_foldl _ observed.length expected.length).isMaximum fun _ _ =>
    matchesAt_bound expected observed

/-- A list in another order is a renaming of its places. -/
theorem exists_injective_of_perm {α : Type} {l l' : List α} (h : l.Perm l') :
    ∃ f : ℕ → ℕ, Function.Injective f ∧ ∀ i, l'[f i]? = l[i]? := by
  induction h with
  | nil => exact ⟨id, Function.injective_id, fun _ => rfl⟩
  | @cons x l l' _ ih =>
    obtain ⟨f, hf, hread⟩ := ih
    refine ⟨fun i => i.casesOn 0 fun i => f i + 1, fun i i' hii' => ?_, fun i => ?_⟩
    · cases i <;> cases i' <;> simp_all [hf.eq_iff]
    · cases i <;> simp [hread]
  | swap x y l =>
    refine ⟨Equiv.swap 0 1, (Equiv.swap 0 1).injective, fun i => ?_⟩
    match i with
    | 0 => simp
    | 1 => simp
    | i + 2 => rw [Equiv.swap_apply_of_ne_of_ne (by omega) (by omega)]; simp
  | trans _ _ ih ih' =>
    obtain ⟨f, hf, hread⟩ := ih
    obtain ⟨g, hg, hread'⟩ := ih'
    exact ⟨g ∘ f, hg.comp hf, fun i => (hread' (f i)).trans (hread i)⟩

variable {expected observed}

theorem maxMatching_le_of_perm {expected' : List ExpectedCall} {observed' : List ObservedCall}
    (he : expected.Perm expected') (ho : observed.Perm observed') :
    maxMatching expected observed ≤ maxMatching expected' observed' := by
  obtain ⟨f, hf, hread⟩ := exists_injective_of_perm he
  obtain ⟨g, hg, hread'⟩ := exists_injective_of_perm ho
  refine (maxMatching_isMaximum expected observed).congr (maxMatching_isMaximum expected' observed')
    hf hg fun i j hij => ?_
  rwa [matchesAt, hread, hread', ← matchesAt]

/-- The count is that of any order of the calls. -/
theorem maxMatching_perm {expected' : List ExpectedCall} {observed' : List ObservedCall}
    (he : expected.Perm expected') (ho : observed.Perm observed') :
    maxMatching expected observed = maxMatching expected' observed' :=
  le_antisymm (maxMatching_le_of_perm he ho) (maxMatching_le_of_perm he.symm ho.symm)

/-- All expected calls are counted exactly when they have distinct matching calls. -/
theorem maxMatching_eq_length_iff : maxMatching expected observed = expected.length ↔
    ∃ f : Fin expected.length → Fin observed.length, Function.Injective f ∧
      ∀ i, callMatches expected[i] observed[f i] = true := by
  have hmax := maxMatching_isMaximum expected observed
  have hassign := exists_injOn_iff (n := expected.length) fun i j h =>
    (matchesAt_bound expected observed (i := i) (j := j) h).1
  constructor
  · intro h
    rw [h] at hmax
    obtain ⟨f, hf, hmatch⟩ := hassign.mp hmax.1
    refine ⟨fun i => ⟨f i, (matchesAt_bound expected observed (hmatch i)).2⟩, fun i i' hii' => ?_,
      fun i => ?_⟩
    · exact hf (congrArg Fin.val hii')
    · obtain ⟨e, o, he, ho, hcall⟩ := (matchesAt_iff _ _ _ _).mp (hmatch i)
      rw [← Option.some.inj ((List.getElem?_eq_getElem i.2).symm.trans he),
        ← Option.some.inj ((List.getElem?_eq_getElem
          (matchesAt_bound expected observed (hmatch i)).2).symm.trans ho)] at hcall
      exact hcall
  · rintro ⟨f, hf, hmatch⟩
    refine le_antisymm ?_ (hmax.2 (hassign.mpr ⟨fun i => f i, fun i i' hii' => hf (Fin.ext hii'),
      fun i => (matchesAt_iff _ _ _ _).mpr ⟨_, _, List.getElem?_eq_getElem i.2,
        List.getElem?_eq_getElem (f i).2, hmatch i⟩⟩))
    obtain ⟨M, hM, hcard⟩ := hmax.1
    have hle := hM.card_le_of_cover (A := Finset.range expected.length) (B := ∅) fun p hp =>
      .inl (Finset.mem_range.mpr (matchesAt_bound expected observed (hM.related p hp)).1)
    rwa [hcard, Finset.card_range, Finset.card_empty, Nat.add_zero] at hle

end Counts

section InOrder

/-- The first matching call may be taken. -/
theorem sublistForall₂_cons_iff {α β : Type} (r : α → β → Bool) (a : α) (as : List α)
    (bs : List β) : List.SublistForall₂ (fun a b => r a b = true) (a :: as) bs ↔
      ∃ b after, (bs.dropWhile fun b => !r a b) = b :: after ∧
        List.SublistForall₂ (fun a b => r a b = true) as after := by
  induction bs with
  | nil =>
    constructor
    · rintro ⟨⟩
    · rintro ⟨b, after, h, _⟩
      cases h
  | cons b bs ih =>
    cases hb : r a b with
    | false =>
      rw [List.dropWhile_cons_of_pos (by rw [hb]; rfl), ← ih]
      constructor
      · intro h
        cases h with
        | cons hr _ => rw [hb] at hr; cases hr
        | cons_right h => exact h
      · exact .cons_right
    | true =>
      rw [List.dropWhile_cons_of_neg (by rw [hb]; exact Bool.false_ne_true)]
      constructor
      · intro h
        refine ⟨b, bs, rfl, ?_⟩
        cases h with
        | cons _ h => exact h
        | cons_right h =>
          obtain ⟨l, hl, hsub⟩ := List.sublistForall₂_iff.mp h
          cases hl with
          | cons _ htail =>
            exact List.sublistForall₂_iff.mpr ⟨_, htail, (List.sublist_cons_self ..).trans hsub⟩
      · rintro ⟨_, _, ⟨⟩, h⟩
        exact .cons hb h

theorem inOrder_iff_sublist (expected : List ExpectedCall) (observed : List ObservedCall) :
    inOrder expected observed = true ↔
      List.SublistForall₂ (fun e o => callMatches e o = true) expected observed := by
  induction expected generalizing observed with
  | nil => exact iff_of_true rfl .nil
  | cons e expected ih =>
    rw [inOrder, sublistForall₂_cons_iff]
    cases observed.dropWhile fun o => !callMatches e o with
    | nil => simp
    | cons o after => simp [ih]

/-- The scan succeeds exactly when the expected calls match calls at increasing places. -/
theorem inOrder_iff (expected : List ExpectedCall) (observed : List ObservedCall) :
    inOrder expected observed = true ↔
      ∃ f : Fin expected.length → Fin observed.length, StrictMono f ∧
        ∀ i, callMatches expected[i] observed[f i] = true := by
  rw [inOrder_iff_sublist, List.sublistForall₂_iff]
  constructor
  · rintro ⟨l, hl, hsub⟩
    obtain ⟨f, hf⟩ := List.sublist_iff_exists_fin_orderEmbedding_get_eq.mp hsub
    obtain ⟨hlength, hget⟩ := List.forall₂_iff_get.mp hl
    refine ⟨fun i => f (i.cast hlength), fun i i' hii' => f.strictMono hii', fun i => ?_⟩
    have hmatch := hget i i.2 (by rw [← hlength]; exact i.2)
    rw [hf] at hmatch
    exact hmatch
  · rintro ⟨f, hf, hmatch⟩
    refine ⟨List.ofFn fun i => observed[f i], List.forall₂_iff_get.mpr ⟨by simp, fun i hi _ => ?_⟩,
      List.sublist_iff_exists_fin_orderEmbedding_get_eq.mpr
        ⟨(OrderEmbedding.ofStrictMono (fun i => f (i.cast (by simp))) ?_), fun i => ?_⟩⟩
    · simpa using hmatch ⟨i, hi⟩
    · exact fun i i' hii' => hf hii'
    · simp only [List.get_ofFn]
      rfl

end InOrder

section Claims

variable (spec : TrajectorySpec) (observed : List ObservedCall)

/-- The grade: the count is the size of a largest matching, in any order of the calls, and the two
modes are satisfied exactly by such assignments. -/
theorem gradeTrajectory_spec :
    IsMaximum (fun i j => matchesAt spec.calls observed i j = true)
        (gradeTrajectory spec observed).matchedCount ∧
      (∀ calls' observed', spec.calls.Perm calls' → observed.Perm observed' →
        (gradeTrajectory { spec with calls := calls' } observed').matchedCount =
          (gradeTrajectory spec observed).matchedCount) ∧
      (modeOk { spec with mode := .anyOrder } observed = true ↔
        ∃ f : Fin spec.calls.length → Fin observed.length, Function.Injective f ∧
          ∀ i, callMatches spec.calls[i] observed[f i] = true) ∧
      (modeOk { spec with mode := .inOrder } observed = true ↔
        ∃ f : Fin spec.calls.length → Fin observed.length, StrictMono f ∧
          ∀ i, callMatches spec.calls[i] observed[f i] = true) ∧
      ((gradeTrajectory spec observed).matched = true ↔ modeOk spec observed = true ∧
        ∀ o ∈ observed, o.tool ∉ spec.forbidden.getD []) := by
  refine ⟨maxMatching_isMaximum _ _, fun calls' observed' hcalls hobserved =>
    (maxMatching_perm hcalls hobserved).symm, ?_, inOrder_iff _ _, ?_⟩
  · rw [modeOk, decide_eq_true_eq]
    exact maxMatching_eq_length_iff
  · rw [gradeTrajectory, Bool.and_eq_true, decide_eq_true_eq, List.length_eq_zero_iff,
      List.filter_eq_nil_iff]
    simp only [decide_eq_true_eq]

end Claims

end OpenWop.Eval
