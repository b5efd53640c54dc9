import OpenWop.Core.Sweep
import OpenWop.Js.Sort

/-!
# Windows in flight at once

`maxInFlight` sweeps over the windows of a fan-out. A window counts from the tolerance after its
start, and one that ends by then is left out, so windows that overlap by no more than the tolerance
are not in flight together.
-/

namespace OpenWop.FanOut

open OpenWop.Js OpenWop.Core

/-- `OVERLAP_TOLERANCE_MS`. -/
def overlapToleranceMs : Int := 100

variable {α : Type} [LinearOrder α] [Add α]

/-- The sign of `a[0] - b[0]`. -/
def byInstant : Comparator α where
  compare a b := if a < b then -1 else if b < a then 1 else 0
  swap a b := by
    rcases lt_trichotomy a b with h | rfl | h
    · simp [h, not_lt_of_gt h]
    · simp
    · simp [h, not_lt_of_gt h]
  trans a b c hab hbc := by
    have hle : ∀ x y : α, (if x < y then (-1 : Int) else if y < x then 1 else 0) ≤ 0 → x ≤ y := by
      intro x y h
      by_contra hlt
      rw [not_le] at hlt
      rw [if_neg (not_lt_of_gt hlt), if_pos hlt] at h
      exact absurd h (by decide)
    have hac := (hle a b hab).trans (hle b c hbc)
    rcases lt_or_eq_of_le hac with h | rfl
    · rw [if_pos h]
      decide
    · simp

/-- `a[1] - b[1]`. -/
def byDelta : Comparator Int where
  compare a b := a - b
  swap a b := by omega
  trans a b c := by omega

/-- `(a, b) => a[0] - b[0] || a[1] - b[1]`. -/
def pointOrder : Comparator (α × Int) := (byInstant.on Prod.fst).orElse (byDelta.on Prod.snd)

/-- `points`, before they are sorted. -/
def points (windows : List (α × α)) (tolerance : α) : List (α × Int) :=
  (windows.filter fun w => w.1 + tolerance < w.2).flatMap fun w =>
    [(w.1 + tolerance, 1), (w.2, -1)]

/-- `maxInFlight`. -/
def maxInFlight (windows : List (α × α)) (tolerance : α) : Int :=
  if windows = [] then 0
  else runningMax ((sortBy pointOrder (points windows tolerance)).map Prod.snd) 0 1

/-- The windows share an overlap longer than the tolerance: the latest start plus the tolerance
lies before the earliest end. -/
def InFlight (tolerance : α) (windows : List (α × α)) : Prop :=
  ∀ v ∈ windows, ∀ w ∈ windows, v.1 + tolerance < w.2

variable {windows sub : List (α × α)} {tolerance : α}

omit [Add α] in
theorem before_of_pointOrder {m n : α × Int} (h : pointOrder.compare m n ≤ 0) : Before m n := by
  rcases lt_trichotomy m.1 n.1 with hlt | heq | hgt
  · exact Or.inl hlt
  · have hzero : byInstant.compare m.1 n.1 = 0 := by simp [byInstant, heq]
    refine Or.inr ⟨heq, ?_⟩
    simpa [pointOrder, Comparator.orElse, hzero, Comparator.on, byDelta] using h
  · have hone : byInstant.compare m.1 n.1 = 1 := by simp [byInstant, hgt, not_lt_of_gt hgt]
    simp [pointOrder, Comparator.orElse, Comparator.on, hone] at h

/-- A window that is long enough, from the tolerance after its start. -/
def shifted (tolerance : α) (w : α × α) : α × α := (w.1 + tolerance, w.2)

/-- The spans a sweep goes over. -/
def spans (windows : List (α × α)) (tolerance : α) : List (α × α) :=
  (windows.filter fun w => w.1 + tolerance < w.2).map (shifted tolerance)

theorem points_eq_marks (windows : List (α × α)) (tolerance : α) :
    points windows tolerance = marks (spans windows tolerance) := by
  rw [points, marks, spans, List.flatMap_map]
  rfl

theorem overlap_map_shifted : Overlap (sub.map (shifted tolerance)) ↔ InFlight tolerance sub := by
  simp only [Overlap, InFlight, List.forall_mem_map, shifted]

/-- Windows in flight together are long enough, each by itself. -/
theorem InFlight.filter_eq (h : InFlight tolerance sub) :
    sub.filter (fun w => w.1 + tolerance < w.2) = sub :=
  List.filter_eq_self.mpr fun w hw => decide_eq_true (h w hw w hw)

/-- Sets of windows in flight together are sets of overlapping spans. -/
theorem exists_inFlight_iff (k : Int) :
    (∃ sub, sub.Subperm windows ∧ InFlight tolerance sub ∧ 2 ≤ sub.length ∧ k = sub.length) ↔
      ∃ sub, sub.Sublist (spans windows tolerance) ∧ Overlap sub ∧ 2 ≤ sub.length ∧
        k = sub.length := by
  constructor
  · rintro ⟨sub, ⟨sub', hperm, hsub⟩, hflight, htwo, rfl⟩
    have hflight' : InFlight tolerance sub' := fun v hv w hw =>
      hflight v (hperm.mem_iff.mp hv) w (hperm.mem_iff.mp hw)
    refine ⟨sub'.map (shifted tolerance), ?_, overlap_map_shifted.mpr hflight', ?_, ?_⟩
    · rw [← hflight'.filter_eq]
      exact (hsub.filter _).map _
    · rwa [List.length_map, hperm.length_eq]
    · rw [List.length_map, hperm.length_eq]
  · rintro ⟨sub, hsub, hoverlap, htwo, rfl⟩
    obtain ⟨long, hlong, rfl⟩ := List.sublist_map_iff.mp hsub
    rw [List.length_map] at htwo ⊢
    exact ⟨long, (hlong.trans List.filter_sublist).subperm, overlap_map_shifted.mp hoverlap, htwo,
      rfl⟩

/-- `maxInFlight` is the larger of `1` and the largest number of windows in flight together. -/
theorem isGreatest_maxInFlight (h : windows ≠ []) (tolerance : α) :
    IsGreatest {k : Int | k = 1 ∨ ∃ sub, sub.Subperm windows ∧ InFlight tolerance sub ∧
      2 ≤ sub.length ∧ k = sub.length} (maxInFlight windows tolerance) := by
  simp only [exists_inFlight_iff]
  rw [maxInFlight, if_neg h, points_eq_marks]
  refine isGreatest_sweep (fun s hs => ?_) (sortBy_perm ..) ?_
  · obtain ⟨w, hw, rfl⟩ := List.mem_map.mp hs
    exact of_decide_eq_true (List.mem_filter.mp hw).2
  · exact (sortBy_pairwise pointOrder _).imp before_of_pointOrder

/-- Two windows that overlap for longer than the tolerance, in milliseconds. -/
theorem isGreatest_maxInFlight_pair : ([(0, 1000), (800, 2000)] : List (Int × Int)) ≠ [] ∧
    IsGreatest {k : Int | k = 1 ∨ ∃ sub, sub.Subperm [(0, 1000), (800, 2000)] ∧
      InFlight overlapToleranceMs sub ∧ 2 ≤ sub.length ∧ k = sub.length}
      (maxInFlight [(0, 1000), (800, 2000)] overlapToleranceMs) :=
  ⟨by decide, isGreatest_maxInFlight (by decide) overlapToleranceMs⟩

example : maxInFlight [(0, 1000), (800, 2000)] overlapToleranceMs = 2 := by decide

example : maxInFlight [(0, 1000), (950, 2000)] overlapToleranceMs = 1 := by decide

end OpenWop.FanOut
