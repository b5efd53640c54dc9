/-!
# Simulations between transition systems

A simulation matches every state a system reaches with one that another system reaches.
For a step of the first system the other may take any number of steps, or none.
-/

namespace OpenWop.Core

/-- The initial states and the steps of a system. -/
structure System (State : Type) where
  initial : State → Prop
  step : State → State → Prop

/-- The states a system reaches. -/
inductive System.Reached {State : Type} (sys : System State) : State → Prop
  | initial {s : State} (h : sys.initial s) : sys.Reached s
  | step {s t : State} (hs : sys.Reached s) (h : sys.step s t) : sys.Reached t

variable {S T : Type} {sys : System S} {sys' : System T} {R : S → T → Prop}

/-- Every initial state is matched, and the match survives every step. -/
structure Simulates (sys : System S) (sys' : System T) (R : S → T → Prop) : Prop where
  initial : ∀ s, sys.initial s → ∃ t, sys'.Reached t ∧ R s t
  step : ∀ s s' t, sys.Reached s → sys'.Reached t → R s t → sys.step s s' →
    ∃ t', sys'.Reached t' ∧ R s' t'

/-- Every state that is reached is matched. -/
theorem Simulates.reached (h : Simulates sys sys' R) {s : S} (hs : sys.Reached s) :
    ∃ t, sys'.Reached t ∧ R s t := by
  induction hs with
  | initial hinit => exact h.initial _ hinit
  | step hs hstep ih =>
    obtain ⟨t, ht, hr⟩ := ih
    exact h.step _ _ t hs ht hr hstep

/-- What the match carries over from the states of the first system is seen in the second. -/
theorem Simulates.observed (h : Simulates sys sys' R) {P : S → Prop} {Q : T → Prop}
    (hobs : ∀ s t, R s t → P s → Q t) (hp : ∃ s, sys.Reached s ∧ P s) :
    ∃ t, sys'.Reached t ∧ Q t := by
  obtain ⟨s, hs, hp⟩ := hp
  obtain ⟨t, ht, hr⟩ := h.reached hs
  exact ⟨t, ht, hobs s t hr hp⟩

end OpenWop.Core
