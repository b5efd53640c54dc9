import Mathlib.Data.Nat.Init
import Mathlib.Logic.Relation

/-!
# Loops that may not end

A step either goes on with a new state or ends with a result. A loop is run with fuel,
and what it returns does not depend on the fuel. What holds at the start and is preserved
by every step holds of each state the loop comes to, and a loop ends where a measure falls.
-/

namespace OpenWop.Core

open Relation

variable {State Result : Type} {step : State → State ⊕ Result} {s t u : State} {r r' : Result}

/-- The result after at most so many steps. -/
def runLoop (step : State → State ⊕ Result) : Nat → State → Option Result
  | 0, _ => none
  | fuel + 1, s => (step s).elim (runLoop step fuel) some

/-- The loop ends with the result. -/
def Returns (step : State → State ⊕ Result) (s : State) (r : Result) : Prop :=
  ∃ fuel, runLoop step fuel s = some r

/-- The loop comes to the state. -/
def Leads (step : State → State ⊕ Result) : State → State → Prop :=
  ReflTransGen fun s t => step s = .inl t

theorem returns_iff_of_next (h : step s = .inl t) : Returns step s r ↔ Returns step t r := by
  constructor
  · rintro ⟨fuel, hrun⟩
    cases fuel with
    | zero => cases hrun
    | succ fuel =>
      rw [runLoop, h] at hrun
      exact ⟨fuel, hrun⟩
  · rintro ⟨fuel, hrun⟩
    refine ⟨fuel + 1, ?_⟩
    rw [runLoop, h]
    exact hrun

theorem returns_iff_of_done (h : step s = .inr r) : Returns step s r' ↔ r' = r := by
  constructor
  · rintro ⟨fuel, hrun⟩
    cases fuel with
    | zero => cases hrun
    | succ fuel =>
      rw [runLoop, h] at hrun
      exact (Option.some.inj hrun).symm
  · rintro rfl
    refine ⟨1, ?_⟩
    rw [runLoop, h]
    rfl

theorem Leads.returns_iff (h : Leads step s t) : Returns step s r ↔ Returns step t r := by
  induction h with
  | refl => exact Iff.rfl
  | tail _ ht ih => rw [ih, returns_iff_of_next ht]

theorem Leads.head (hs : step s = .inl t) (h : Leads step t u) : Leads step s u :=
  ReflTransGen.head hs h

theorem Leads.tail (h : Leads step s t) (ht : step t = .inl u) : Leads step s u :=
  ReflTransGen.tail h ht

/-- The invariant rule. -/
theorem Leads.invariant {I : State → Prop} (h0 : I s)
    (hstep : ∀ t u, I t → step t = .inl u → I u) (h : Leads step s t) : I t := by
  induction h with
  | refl => exact h0
  | tail _ ht ih => exact hstep _ _ ih ht

/-- What a loop returns, the last state it comes to ends with. -/
theorem Returns.exists_last (h : Returns step s r) : ∃ t, Leads step s t ∧ step t = .inr r := by
  obtain ⟨fuel, hrun⟩ := h
  induction fuel generalizing s with
  | zero => cases hrun
  | succ fuel ih =>
    rw [runLoop] at hrun
    cases hs : step s with
    | inl t =>
      rw [hs] at hrun
      obtain ⟨u, hu, hlast⟩ := ih hrun
      exact ⟨u, .head hs hu, hlast⟩
    | inr r' =>
      rw [hs] at hrun
      obtain rfl := Option.some.inj hrun
      exact ⟨s, .refl, hs⟩

theorem Returns.unique (h : Returns step s r) (h' : Returns step s r') : r = r' := by
  obtain ⟨t, ht, hlast⟩ := h.exists_last
  rw [ht.returns_iff, returns_iff_of_done hlast] at h'
  exact h'.symm

/-- A loop ends where a measure falls at every step it can come to. -/
theorem exists_returns {I : State → Prop} (measure : State → Nat) (h0 : I s)
    (hstep : ∀ t u, I t → step t = .inl u → I u ∧ measure u < measure t) :
    ∃ r, Returns step s r := by
  generalize hn : measure s = n
  induction n using Nat.strongRecOn generalizing s with
  | _ n ih =>
    cases hs : step s with
    | inl t =>
      obtain ⟨ht, hlt⟩ := hstep s t h0 hs
      obtain ⟨r, hr⟩ := ih _ (hn ▸ hlt) ht rfl
      exact ⟨r, (returns_iff_of_next hs).mpr hr⟩
    | inr r => exact ⟨r, (returns_iff_of_done hs).mpr rfl⟩

end OpenWop.Core
