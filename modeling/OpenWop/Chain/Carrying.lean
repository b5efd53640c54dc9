import OpenWop.Chain.Compensation

/-!
# What an expansion carries

An expansion with compensation is all or nothing: every declaration with all its members, and the
policy of the chain or of its parent, or no fragment.
-/

namespace OpenWop.Chain

open OpenWop.Js

section Whole

variable {chain : WorkflowChainWithCompensation} {ctx : ExpansionContext}

end Whole

section Reservation

end Reservation

end OpenWop.Chain
