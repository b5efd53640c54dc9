import OpenWop.Js.JsonEqual
import OpenWop.Ledger.Record

/-!
# The semantic request of an LLM call

The v2 recipe projects a request to what can change its completion, sorts the tools by name and
writes the rest as canonical JSON.
-/

namespace OpenWop.Replay

open OpenWop.Js OpenWop.Ledger

section Recipe

/-- `SEMANTIC_REQUEST_RECIPE_V2`. -/
def semanticRequestRecipeV2 : JsString := js "openwop-semantic-request-v2"

/-- `tool.name`, a string in the domain of the recipe. -/
def toolName (tool : Json) : JsString :=
  match tool.member? (js "name") with
  | some (.str name) => name
  | _ => []

/-- `typeof v === 'number'`. -/
def isNumber : Json → Bool
  | .num _ => true
  | _ => false

/-- `typeof v === 'object'`, which holds of `null`. -/
def isTypeofObject : Json → Bool
  | .null => true
  | .arr _ => true
  | .obj _ => true
  | _ => false

/-- `Array.isArray(v)`. -/
def isArray : Json → Bool
  | .arr _ => true
  | _ => false

/-- The numbers a request is projected to. -/
def numberFields : List JsString :=
  [js "temperature", js "topP", js "topK", js "maxOutputTokens", js "seed"]

/-- `raw[name]` where it passes the test. -/
def carried (raw : Record JsString Json) (name : JsString) (test : Json → Bool) :
    List (JsString × Json) :=
  optionalMember name ((Record.get? raw name).filter test)

/-- `request.tools`: the listed tools by name, if there are any. -/
def carriedTools (raw : Record JsString Json) : List (JsString × Json) :=
  match Record.get? raw (js "tools") with
  | some (.arr (tool :: tools)) =>
    [(js "tools", .arr (sortBy (codeUnitOrder.on toolName) (tool :: tools)))]
  | _ => []

/-- The members of `request` after `messages`. -/
def requestMembers (raw : Record JsString Json) : List (JsString × Json) :=
  carriedTools raw ++ numberFields.flatMap (fun name => carried raw name isNumber) ++
    carried raw (js "stop") isArray ++ carried raw (js "responseFormat") isTypeofObject ++
    carried raw (js "safetySettings") isTypeofObject

/-- The canonical text of a member that may be undefined. -/
def canonicalField (raw : Record JsString Json) (name : JsString) :
    JsString × Except JcsRefusal JsString :=
  (name, Json.canonicalValue (Record.get? raw name))

/-- `canonicalize(projectSemanticRequestV2(raw))`. -/
def semanticPreimageV2 (raw : Record JsString Json) : Except JcsRefusal JsString :=
  Json.canonicalObject ([(js "recipe", Json.canonicalJSON (.str semanticRequestRecipeV2)),
      canonicalField raw (js "provider"), canonicalField raw (js "model"),
      (js "request", Json.canonicalObject (canonicalField raw (js "messages") ::
        Json.canonicalMembers (requestMembers raw)))] ++
    Json.canonicalMembers (carried raw (js "providerOptions") isTypeofObject))

end Recipe

section Domain

/-- A tool the recipe sorts: an object of distinct names with a name of its own. -/
def IsTool (tool : Json) : Prop :=
  ∃ members name, tool = .obj members ∧ (Record.keys members).Nodup ∧
    Record.get? members (js "name") = some (.str name)

/-- The member is missing or of that form. -/
def Optionally (raw : Record JsString Json) (name : JsString) (form : Json → Prop) : Prop :=
  ∀ v, Record.get? raw name = some v → form v

/-- The requests the recipe is about, as far as their form matters; other members are free. -/
structure InDomain (raw : Record JsString Json) : Prop where
  provider : ∃ v, Record.get? raw (js "provider") = some v
  model : ∃ v, Record.get? raw (js "model") = some v
  messages : ∃ v, Record.get? raw (js "messages") = some v
  tools : Optionally raw (js "tools") fun v => ∃ tools, v = .arr tools ∧ ∀ t ∈ tools, IsTool t
  numbers : ∀ name ∈ numberFields, Optionally raw name fun v => isNumber v = true
  stop : Optionally raw (js "stop") fun v => isArray v = true
  objects : ∀ name ∈ [js "responseFormat", js "safetySettings", js "providerOptions"],
    Optionally raw name fun v => ∃ members, v = .obj members

/-- The listed tools; none and an empty list are one. -/
def toolsOf (raw : Record JsString Json) : List Json :=
  (Json.items? (Record.get? raw (js "tools"))).getD []

/-- The member is missing in both, or one value in both. -/
def SameMember (raw raw' : Record JsString Json) (name : JsString) : Prop :=
  (Record.get? raw name).map Json.normalize = (Record.get? raw' name).map Json.normalize

/-- The members a completion depends on, without the tools. -/
def semanticFields : List JsString :=
  [js "provider", js "model", js "messages"] ++ numberFields ++
    [js "stop", js "responseFormat", js "safetySettings", js "providerOptions"]

/-- The tools of every name are the same ones, in the same order. -/
def SameTools (raw raw' : Record JsString Json) : Prop :=
  ∀ name, ((toolsOf raw).filter fun t => toolName t = name).map Json.normalize =
    ((toolsOf raw').filter fun t => toolName t = name).map Json.normalize

end Domain

end OpenWop.Replay
