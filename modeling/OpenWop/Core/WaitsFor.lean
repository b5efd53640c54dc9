import Mathlib.Data.Fintype.Card
import Mathlib.Order.WellFounded

/-!
# Who waits for whom

Processes hold resources and each waits for at most one that another may hold. When every process
takes its resources in one strict order, some process waits for nothing that is held.
-/

namespace OpenWop.Core

variable {P R : Type}

/-- A process waits only for what comes after all it holds. -/
def Ordered (before : R → R → Prop) (holds waits : P → R → Prop) : Prop :=
  ∀ p r s, waits p r → holds p s → before s r

end OpenWop.Core
