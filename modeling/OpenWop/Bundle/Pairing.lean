import OpenWop.Bundle.Digest
import OpenWop.Core.Replace

/-!
# Companion pairing

When a served bundle is the pair of a colocated companion: the same host, the same image, a
signature by a published key, and discovery documents that agree once the origins and the
issuers of the `oidc` lane are set aside.
-/

namespace OpenWop.Bundle

open OpenWop.Js OpenWop.Audit OpenWop.Ledger OpenWop.Replace

section Model

/-- The reasons against a pair. -/
inductive PairingFailure where
  | sameHost
  | sameImage
  | attributable
  | equivalentDiscovery
  deriving DecidableEq, Repr

/-- The reason as it is reported. -/
def PairingFailure.text : PairingFailure → JsString
  | .sameHost => js "same-host"
  | .sameImage => js "same-image"
  | .attributable => js "attributable"
  | .equivalentDiscovery => js "equivalent-discovery"

end Model

section Values

/-- `x === y`; two parsed objects are never one. -/
def strictEquals : Option Json → Option Json → Bool
  | none, none => true
  | some .null, some .null => true
  | some (.bool a), some (.bool b) => a = b
  | some (.num a), some (.num b) => a.strictEquals b
  | some (.str a), some (.str b) => a = b
  | _, _ => false

/-- `String(x)`. -/
def stringOf : Option Json → JsString
  | none => js "undefined"
  | some v => v.text

end Values

section Discovery

/-- `s.split(separator)` at a non-empty separator. -/
def split (s separator : JsString) : List JsString := pieces separator 0 s

end Discovery

section Pairing

variable (runtime : PairingRuntime) (companion served : PairedBundle)

end Pairing

end OpenWop.Bundle
