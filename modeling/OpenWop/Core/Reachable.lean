/-!
# Runs of a guarded transition system

The states a system reaches by steps that all meet a guard. An invariant that
holds at the start and is preserved by every guarded step holds of each of them.
-/

namespace OpenWop.Core

variable {State Label : Type}

/-- The states reached from `start` by steps the guard admits. -/
inductive Reachable (next : State → Label → State) (guard : State → Label → Prop)
    (start : State) : State → Prop
  | start : Reachable next guard start start
  | step {s : State} {l : Label} :
      Reachable next guard start s → guard s l → Reachable next guard start (next s l)

variable {next : State → Label → State} {guard guard' : State → Label → Prop} {start s : State}

/-- The invariant rule. -/
theorem Reachable.invariant {I : State → Prop} (h0 : I start)
    (hstep : ∀ s l, I s → guard s l → I (next s l)) (h : Reachable next guard start s) : I s := by
  induction h with
  | start => exact h0
  | step _ hg ih => exact hstep _ _ ih hg

/-- A run under a stronger guard is a run under a weaker one. -/
theorem Reachable.weaken (hg : ∀ s l, guard s l → guard' s l)
    (h : Reachable next guard start s) : Reachable next guard' start s := by
  induction h with
  | start => exact .start
  | step _ hl ih => exact .step ih (hg _ _ hl)

end OpenWop.Core
