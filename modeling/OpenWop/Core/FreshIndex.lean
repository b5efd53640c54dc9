import Mathlib.Data.List.Perm.Subperm
import Mathlib.Data.List.Nodup
import Mathlib.Order.Nat

/-!
# The first free index

A counter that skips the indices whose names are taken. Names of different indices differ, so
among one index more than there are taken names one is free.
-/

namespace OpenWop.Core

variable {α : Type*} [DecidableEq α]

/-- The first index from `start` on whose name is not taken, after at most `fuel` skips. -/
def firstFree (name : Nat → α) (taken : List α) : Nat → Nat → Nat
  | 0, start => start
  | fuel + 1, start =>
    if name start ∈ taken then firstFree name taken fuel (start + 1) else start

variable {name : Nat → α} {taken : List α}

theorem firstFree_of_mem {fuel start : Nat} (h : name start ∈ taken) :
    firstFree name taken (fuel + 1) start = firstFree name taken fuel (start + 1) := if_pos h

theorem firstFree_of_not_mem {fuel start : Nat} (h : name start ∉ taken) :
    firstFree name taken (fuel + 1) start = start := if_neg h

theorem le_firstFree (fuel start : Nat) : start ≤ firstFree name taken fuel start := by
  induction fuel generalizing start with
  | zero => exact le_refl start
  | succ fuel ih =>
    by_cases h : name start ∈ taken
    · rw [firstFree_of_mem h]
      exact (Nat.le_succ start).trans (ih (start + 1))
    · rw [firstFree_of_not_mem h]

/-- Only taken indices are skipped. -/
theorem mem_of_lt_firstFree {fuel start i : Nat} (hlow : start ≤ i)
    (hi : i < firstFree name taken fuel start) : name i ∈ taken := by
  induction fuel generalizing start with
  | zero => exact absurd hi (not_lt.mpr hlow)
  | succ fuel ih =>
    by_cases h : name start ∈ taken
    · rw [firstFree_of_mem h] at hi
      rcases hlow.eq_or_lt with rfl | hlt
      · exact h
      · exact ih hlt hi
    · rw [firstFree_of_not_mem h] at hi
      exact absurd hi (not_lt.mpr hlow)

/-- The search stops at a free index or runs through all its skips. -/
theorem firstFree_cases (fuel start : Nat) :
    name (firstFree name taken fuel start) ∉ taken ∨
      firstFree name taken fuel start = start + fuel := by
  induction fuel generalizing start with
  | zero => exact Or.inr rfl
  | succ fuel ih =>
    by_cases h : name start ∈ taken
    · rw [firstFree_of_mem h]
      have hstep : start + (fuel + 1) = start + 1 + fuel := by omega
      rw [hstep]
      exact ih (start + 1)
    · rw [firstFree_of_not_mem h]
      exact Or.inl h

/-- As many skips as there are taken names are enough. -/
theorem firstFree_not_mem (hinj : Function.Injective name) (start : Nat) :
    name (firstFree name taken taken.length start) ∉ taken := by
  intro hmem
  have hlast : firstFree name taken taken.length start = start + taken.length :=
    (firstFree_cases taken.length start).resolve_left (not_not_intro hmem)
  let window := (List.range (taken.length + 1)).map fun i => name (start + i)
  have hnodup : window.Nodup := by
    refine List.Nodup.map (fun i i' h => ?_) List.nodup_range
    have := hinj h
    omega
  have hsub : window ⊆ taken := by
    intro x hx
    obtain ⟨i, hi, rfl⟩ := List.mem_map.mp hx
    have hi := List.mem_range.mp hi
    rcases Nat.lt_or_ge i taken.length with hlt | hge
    · have hskipped : start + i < firstFree name taken taken.length start := by omega
      exact mem_of_lt_firstFree (Nat.le_add_right start i) hskipped
    · have hi : i = taken.length := by omega
      rw [hi, ← hlast]
      exact hmem
  have hle := (hnodup.subperm hsub).length_le
  rw [List.length_map, List.length_range] at hle
  omega

end OpenWop.Core
