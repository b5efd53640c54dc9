import OpenWop.Chain.Sites

/-!
# Tokens left in a deferred expansion

Slots and bindings hold no token. A token is left in an accepted expansion exactly
when a member name holds one, a value that replaces a whole string holds one, a text
put into a string holds one, or one forms across the ends of such a text.
-/

namespace OpenWop.Chain

open OpenWop.Js OpenWop.Template

section Slots

end Slots

section Values

end Values

section Sites

/-- Prompts are strings, and bindings are to parameters. -/
def Site.WellFormed (site : Site) : Prop :=
  match site.handling with
  | .slots => ∃ text, site.value = .str text
  | .bound name _ => paramPattern.IsName name
  | _ => True

variable {ctx : DeferredExpansionContext}

end Sites

section Fragments

variable {ctx : DeferredExpansionContext}

end Fragments

section Relay

end Relay

end OpenWop.Chain
