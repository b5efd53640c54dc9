import Mathlib.Data.List.Basic

/-!
# Histories

What holds of each event of a history, given the events before it, is carried along as events are
added at the end.
-/

namespace OpenWop.Core

variable {Event : Type} {P Q : List Event → Event → Prop} {events : List Event}

/-- Every event meets the condition on what came before it. -/
def Each (P : List Event → Event → Prop) (events : List Event) : Prop :=
  ∀ before e after, events = before ++ e :: after → P before e

theorem each_nil : Each P [] := by
  intro before e after h
  exact absurd h.symm (by simp)

/-- One more event. -/
theorem each_concat {e : Event} : Each P (events ++ [e]) ↔ Each P events ∧ P events e := by
  constructor
  · intro h
    refine ⟨fun before x after heq => h before x (after ++ [e]) ?_, h events e [] rfl⟩
    rw [heq, List.append_assoc, List.cons_append]
  · rintro ⟨h, he⟩ before x after heq
    rcases List.eq_nil_or_concat after with rfl | ⟨after, y, rfl⟩
    · obtain ⟨rfl, hx⟩ := List.append_inj' heq rfl
      cases hx
      exact he
    · rw [List.concat_eq_append, ← List.cons_append, ← List.append_assoc] at heq
      obtain ⟨rfl, -⟩ := List.append_inj' heq rfl
      exact h before x after rfl

theorem Each.mono (h : Each P events) (hPQ : ∀ before e, P before e → Q before e) :
    Each Q events := fun before e after heq => hPQ before e (h before e after heq)

end OpenWop.Core
