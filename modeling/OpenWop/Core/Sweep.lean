import Mathlib.Algebra.BigOperators.Group.List.Basic
import Mathlib.Algebra.Ring.Int.Defs
import Mathlib.Algebra.Order.BigOperators.Group.List
import Mathlib.Data.Finset.Max
import Mathlib.Data.Int.Order.Basic
import Mathlib.Order.Bounds.Basic

/-!
# Sweeping over spans

A span opens at its start and closes at its end. Going through the openings and closings in time
order, and through the closings of an instant first, the largest number of spans open at once is
the largest number of spans that have an instant in common.
-/

namespace OpenWop.Core

section RunningMax

/-- The largest of a start value and the running sums, in one pass. -/
def runningMax (steps : List Int) (cur best : Int) : Int :=
  (steps.foldl (fun acc d => (acc.1 + d, max acc.2 (acc.1 + d))) (cur, best)).2

theorem runningMax_cons (d : Int) (steps : List Int) (cur best : Int) :
    runningMax (d :: steps) cur best = runningMax steps (cur + d) (max best (cur + d)) := rfl

theorem le_runningMax (steps : List Int) (cur best : Int) : best ≤ runningMax steps cur best := by
  induction steps generalizing cur best with
  | nil => exact le_refl _
  | cons d steps ih =>
    rw [runningMax_cons]
    exact (le_max_left _ _).trans (ih _ _)

/-- No running sum exceeds the maximum. -/
theorem sum_le_runningMax {front : List Int} (h : front ≠ []) (rest : List Int) (cur best : Int) :
    cur + front.sum ≤ runningMax (front ++ rest) cur best := by
  induction front generalizing cur best with
  | nil => exact absurd rfl h
  | cons d front ih =>
    rw [List.cons_append, runningMax_cons, List.sum_cons, ← add_assoc]
    cases front with
    | nil =>
      rw [List.sum_nil, add_zero]
      exact (le_max_right _ _).trans (le_runningMax ..)
    | cons e front => exact ih (by simp) _ _

/-- The maximum is the start value or a running sum. -/
theorem runningMax_cases (steps : List Int) (cur best : Int) : runningMax steps cur best = best ∨
    ∃ front rest, steps = front ++ rest ∧ front ≠ [] ∧
      runningMax steps cur best = cur + front.sum := by
  induction steps generalizing cur best with
  | nil => exact Or.inl rfl
  | cons d steps ih =>
    rw [runningMax_cons]
    rcases ih (cur + d) (max best (cur + d)) with h | ⟨front, rest, rfl, -, h⟩
    · rcases max_choice best (cur + d) with hmax | hmax
      · exact Or.inl (h.trans hmax)
      · refine Or.inr ⟨[d], steps, rfl, by simp, ?_⟩
        rw [h, hmax, List.sum_singleton]
    · refine Or.inr ⟨d :: front, rest, rfl, by simp, ?_⟩
      rw [h, List.sum_cons, add_assoc]

end RunningMax

section Spans

variable {α : Type} [LinearOrder α]

/-- A span opens at its start and closes at its end. -/
def marks (spans : List (α × α)) : List (α × Int) :=
  spans.flatMap fun s => [(s.1, 1), (s.2, -1)]

/-- The order of a sweep: by instant, and at one instant the closings first. -/
def Before (m n : α × Int) : Prop := m.1 < n.1 ∨ m.1 = n.1 ∧ m.2 ≤ n.2

/-- The spans have an instant in common: each starts before any of them ends. -/
def Overlap (spans : List (α × α)) : Prop := ∀ s ∈ spans, ∀ t ∈ spans, s.1 < t.2

/-- The spans that start before a cut of the instants and end after it. -/
def crossing (cut : α → Bool) (spans : List (α × α)) : List (α × α) :=
  spans.filter fun s => cut s.1 && !cut s.2

/-- A cut holds of every instant before one it holds of. -/
def IsCut (cut : α → Bool) : Prop := ∀ a b, a ≤ b → cut b = true → cut a = true

/-- The mark lies before the cut. -/
def beforeCut (cut : α → Bool) (m : α × Int) : Bool := cut m.1

variable {cut : α → Bool} {spans : List (α × α)}

omit [LinearOrder α] in
theorem mem_marks {m : α × Int} (h : m ∈ marks spans) : m.2 = 1 ∨ m.2 = -1 := by
  obtain ⟨s, -, hm⟩ := List.mem_flatMap.mp h
  rcases List.mem_cons.mp hm with rfl | hm
  · exact Or.inl rfl
  · rw [List.mem_singleton.mp hm]
    exact Or.inr rfl

theorem overlap_crossing (hcut : IsCut cut) : Overlap (crossing cut spans) := by
  intro s hs t ht
  have hs := (List.mem_filter.mp hs).2
  have ht := (List.mem_filter.mp ht).2
  rw [Bool.and_eq_true, Bool.not_eq_true'] at hs ht
  by_contra hle
  have hbefore := hcut t.2 s.1 (not_lt.mp hle) hs.1
  rw [ht.2] at hbefore
  cases hbefore

/-- The marks before a cut sum to the number of spans that cross it. -/
theorem sum_marks_cut (hspans : ∀ s ∈ spans, s.1 < s.2) (hcut : IsCut cut) :
    (((marks spans).filter (beforeCut cut)).map Prod.snd).sum =
      ((crossing cut spans).length : Int) := by
  induction spans with
  | nil => rfl
  | cons s spans ih =>
    obtain ⟨hs, hspans⟩ := List.forall_mem_cons.mp hspans
    have hboth : cut s.2 = true → cut s.1 = true := hcut s.1 s.2 (le_of_lt hs)
    have hmarks : marks (s :: spans) = (s.1, 1) :: (s.2, -1) :: marks spans := rfl
    have ih := ih hspans
    rw [crossing] at ih ⊢
    by_cases hclosed : cut s.2 = true
    · simp only [hmarks, List.filter_cons, beforeCut, hclosed, hboth hclosed, if_true,
        List.map_cons, List.sum_cons, ih, Bool.not_true, Bool.and_false, Bool.false_eq_true, if_false]
      omega
    · by_cases hopened : cut s.1 = true
      · simp only [hmarks, List.filter_cons, beforeCut, hclosed, hopened, if_true, if_false,
          List.map_cons, List.sum_cons, ih, Bool.not_false, Bool.and_self, Bool.false_eq_true, List.length_cons]
        omega
      · simpa only [hmarks, List.filter_cons, beforeCut, hclosed, hopened, if_false, Bool.false_and,
          Bool.false_eq_true] using ih

omit [LinearOrder α] in
/-- A front that holds every closing before a cut, and no opening after it, sums to no more than
the marks before the cut. -/
theorem sum_front_le {front rest : List (α × Int)} (hfront : ∀ m ∈ front, m.2 = -1 ∨ cut m.1 = true)
    (hrest : ∀ m ∈ rest, m.2 = 1 ∨ cut m.1 = false) :
    (front.map Prod.snd).sum ≤ (((front ++ rest).filter (beforeCut cut)).map Prod.snd).sum := by
  induction front with
  | nil =>
    rw [List.map_nil, List.sum_nil, List.nil_append]
    refine List.sum_nonneg fun d hd => ?_
    obtain ⟨m, hm, rfl⟩ := List.mem_map.mp hd
    obtain ⟨hm, hcut⟩ := List.mem_filter.mp hm
    rw [(hrest m hm).resolve_right fun hafter => by simp [beforeCut, hafter] at hcut]
    decide
  | cons m front ih =>
    obtain ⟨hm, hfront⟩ := List.forall_mem_cons.mp hfront
    have ih := ih hfront
    rw [List.cons_append, List.map_cons, List.sum_cons]
    by_cases hcut : beforeCut cut m = true
    · rw [List.filter_cons_of_pos hcut, List.map_cons, List.sum_cons]
      exact add_le_add_right ih _
    · rw [List.filter_cons_of_neg hcut, hm.resolve_right hcut]
      omega

/-- In a sorted list the marks before a cut come first. -/
theorem filter_cut_eq_takeWhile {sorted : List (α × Int)} (hsorted : sorted.Pairwise Before)
    (hcut : IsCut cut) :
    sorted.filter (beforeCut cut) = sorted.takeWhile (beforeCut cut) := by
  induction sorted with
  | nil => rfl
  | cons m sorted ih =>
    obtain ⟨hm, hsorted⟩ := List.pairwise_cons.mp hsorted
    by_cases h : beforeCut cut m = true
    · rw [List.filter_cons_of_pos h,
        List.takeWhile_cons_of_pos h, ih hsorted]
    · rw [List.filter_cons_of_neg h,
        List.takeWhile_cons_of_neg h, List.filter_eq_nil_iff]
      intro n hn hcutn
      have hle : m.1 ≤ n.1 := (hm n hn).elim le_of_lt fun h => le_of_eq h.1
      exact h (hcut _ _ hle hcutn)

/-- The cut at a mark: the instants up to an opening, or before a closing. -/
def cutAt (p : α × Int) (a : α) : Bool := if p.2 = 1 then a ≤ p.1 else a < p.1

theorem isCut_cutAt (p : α × Int) : IsCut (cutAt p) := by
  intro a b hle hb
  rw [cutAt] at hb ⊢
  split
  · next hp =>
    rw [if_pos hp, decide_eq_true_eq] at hb
    exact decide_eq_true (hle.trans hb)
  · next hp =>
    rw [if_neg hp, decide_eq_true_eq] at hb
    exact decide_eq_true (hle.trans_lt hb)

variable {sorted front rest : List (α × Int)} {p : α × Int}

/-- The sum up to a mark is at most the number of spans that cross the cut there. -/
theorem sum_front_le_crossing (hspans : ∀ s ∈ spans, s.1 < s.2) (hperm : sorted.Perm (marks spans))
    (hsorted : sorted.Pairwise Before) (hsplit : sorted = front ++ [p] ++ rest) :
    ((front ++ [p]).map Prod.snd).sum ≤ ((crossing (cutAt p) spans).length : Int) := by
  have hdelta (m : α × Int) (hm : m ∈ sorted) : m.2 = 1 ∨ m.2 = -1 :=
    mem_marks (hperm.mem_iff.mp hm)
  have hp := hdelta p (by simp [hsplit])
  rw [← sum_marks_cut hspans (isCut_cutAt p),
    ← ((hperm.filter (beforeCut (cutAt p))).map Prod.snd).sum_eq, hsplit]
  rw [hsplit, List.pairwise_append, List.pairwise_append] at hsorted
  obtain ⟨⟨-, -, hbefore⟩, -, hafter⟩ := hsorted
  refine sum_front_le (fun m hm => ?_) fun m hm => ?_
  · have hm' := hdelta m (by simp only [hsplit, List.mem_append] at hm ⊢; exact Or.inl hm)
    rcases List.mem_append.mp hm with hm | hm
    · rcases hm' with hone | hminus
      · refine Or.inr ?_
        rw [cutAt]
        rcases hbefore m hm p (List.mem_singleton_self p) with hlt | ⟨heq, hle⟩
        · split
          · exact decide_eq_true (le_of_lt hlt)
          · exact decide_eq_true hlt
        · rw [if_pos (by omega), heq]
          exact decide_eq_true (le_refl _)
      · exact Or.inl hminus
    · obtain rfl := List.mem_singleton.mp hm
      rcases hp with hone | hminus
      · exact Or.inr (by simp [cutAt, hone])
      · exact Or.inl hminus
  · rcases hdelta m (by simp [hsplit, hm]) with hone | hminus
    · exact Or.inl hone
    · refine Or.inr ?_
      rw [cutAt]
      rcases hafter p (by simp) m hm with hlt | ⟨heq, hle⟩
      · split
        · exact decide_eq_false (not_le.mpr hlt)
        · exact decide_eq_false (not_lt.mpr (le_of_lt hlt))
      · rw [if_neg (by omega), heq]
        exact decide_eq_false (lt_irrefl _)

/-- A sweep finds the largest number of spans with an instant in common, or `1`. -/
theorem isGreatest_sweep (hspans : ∀ s ∈ spans, s.1 < s.2) (hperm : sorted.Perm (marks spans))
    (hsorted : sorted.Pairwise Before) :
    IsGreatest {k : Int | k = 1 ∨ ∃ sub, sub.Sublist spans ∧ Overlap sub ∧ 2 ≤ sub.length ∧
      k = sub.length} (runningMax (sorted.map Prod.snd) 0 1) := by
  constructor
  · rcases runningMax_cases (sorted.map Prod.snd) 0 1 with h | ⟨front, rest, hsplit, hne, h⟩
    · exact Or.inl h
    · obtain ⟨front, rest, rfl, rfl, rfl⟩ := List.map_eq_append_iff.mp hsplit
      obtain ⟨front, p, rfl⟩ := (List.eq_nil_or_concat' front).resolve_left fun hnil =>
        hne (by rw [hnil, List.map_nil])
      have hle := sum_front_le_crossing hspans hperm hsorted rfl
      have hone := le_runningMax ((front ++ [p] ++ rest).map Prod.snd) 0 1
      rw [h, zero_add] at hone ⊢
      by_cases hk : ((front ++ [p]).map Prod.snd).sum = 1
      · exact Or.inl hk
      · have hlength : ((crossing (cutAt p) spans).take
            ((front ++ [p]).map Prod.snd).sum.toNat).length =
            ((front ++ [p]).map Prod.snd).sum.toNat := by
          rw [List.length_take]
          omega
        refine Or.inr ⟨(crossing (cutAt p) spans).take ((front ++ [p]).map Prod.snd).sum.toNat,
          (List.take_sublist _ _).trans List.filter_sublist, ?_, ?_, ?_⟩
        · intro s hs t ht
          exact overlap_crossing (isCut_cutAt p) s (List.mem_of_mem_take hs) t
            (List.mem_of_mem_take ht)
        · omega
        · omega
  · rintro k (rfl | ⟨sub, hsub, hoverlap, htwo, rfl⟩)
    · exact le_runningMax ..
    · have hne : sub.toFinset.Nonempty := by
        rw [List.toFinset_nonempty_iff]
        rintro rfl
        simp at htwo
      obtain ⟨s, hs, hmax⟩ := Finset.exists_max_image sub.toFinset Prod.fst hne
      rw [List.mem_toFinset] at hs
      set cut : α → Bool := fun a => a ≤ s.1
      have hcut : IsCut cut := fun a b hle hb =>
        decide_eq_true (hle.trans (of_decide_eq_true hb))
      have hcross : sub.Sublist (crossing cut spans) := by
        have hself : sub.filter (fun t => cut t.1 && !cut t.2) = sub := by
          refine List.filter_eq_self.mpr fun t ht => ?_
          rw [Bool.and_eq_true, Bool.not_eq_true', decide_eq_true_eq, decide_eq_false_iff_not,
            not_le]
          exact ⟨hmax t (List.mem_toFinset.mpr ht), hoverlap s hs t ht⟩
        rw [← hself]
        exact hsub.filter _
      have hsum := sum_marks_cut hspans hcut
      rw [← ((hperm.filter (beforeCut cut)).map Prod.snd).sum_eq,
        filter_cut_eq_takeWhile hsorted hcut] at hsum
      have hlength := hcross.length_le
      have hnil' : (sorted.takeWhile (beforeCut cut)).map Prod.snd ≠ [] := by
        intro hnil
        rw [hnil, List.sum_nil] at hsum
        omega
      have hle := sum_le_runningMax hnil'
        ((sorted.dropWhile (beforeCut cut)).map Prod.snd) 0 1
      rw [← List.map_append, List.takeWhile_append_dropWhile, hsum] at hle
      omega

end Spans

end OpenWop.Core
