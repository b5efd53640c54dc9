import OpenWop.Chain.Expand

/-!
# Deferred expansion

`expandChainDeferred` keeps parameters open: a token in a prompt field becomes a prompt
slot, an input that is one token a binding to a variable, and what is left is
substituted. The walk shares one global pattern, whose `lastIndex` survives from test
to test and from call to call, and collects the parameters it used on the way.
-/

namespace OpenWop.Chain

open OpenWop.Js OpenWop.Template

/-- A property of `ParameterSchema`. -/
structure ParameterProperty where
  type : Option JsString := none
  description : Option JsString := none
  /-- `x-openwop-sensitive`. -/
  sensitive : Option Bool := none
  deriving DecidableEq, Repr

/-- `DeferredHostContext`. -/
structure DeferredHostContext where
  promptVariableSource : Bool
  secretsSupported : Bool
  deriving DecidableEq, Repr

/-- `DeferredExpansionContext`. -/
structure DeferredExpansionContext where
  expansionId : JsString
  params : Params
  /-- `parameterSchema.properties`. -/
  properties : Option (Record JsString ParameterProperty)
  isTypeIdResolvable : JsString → Bool
  host : DeferredHostContext

/-- `MaterializedVariable`. -/
structure MaterializedVariable where
  name : JsString
  type : JsString
  description : Option JsString
  defaultValue : Option Json
  deriving DecidableEq, Repr

/-- Where a prompt slot is filled from. -/
inductive PromptSource where
  | variable
  | secret
  deriving DecidableEq, Repr

/-- `PromptVariableBinding`. -/
structure PromptVariableBinding where
  name : JsString
  source : PromptSource
  deriving DecidableEq, Repr

/-- `DeferredExpandedFragment`. -/
structure DeferredExpandedFragment where
  nodes : List ExpandedNode
  edges : List FragmentEdge
  idMap : Map JsString JsString
  materializedVariables : List MaterializedVariable
  promptVariables : List PromptVariableBinding
  /-- `configurableSchema.properties`, each with its type. -/
  configurableSchema : Map JsString JsString
  deriving Repr

/-- What the walk has collected. -/
structure Notes where
  usedParams : List JsString
  promptVariables : Map JsString PromptVariableBinding
  deriving Repr

/-- The state of the walk. -/
structure DeferredState where
  /-- `PARAM_PATTERN.lastIndex`. -/
  lastIndex : Nat
  notes : Notes
  deriving Repr

/-- A step of the walk. -/
abbrev Deferred := StateT DeferredState (Except ExpansionError)

section Context

variable (ctx : DeferredExpansionContext)

/-- `props[name]`. -/
def DeferredExpansionContext.property? (name : JsString) : Option ParameterProperty :=
  Record.get? (ctx.properties.getD []) name

/-- `isSensitive`. -/
def DeferredExpansionContext.isSensitive (name : JsString) : Bool :=
  (ctx.property? name).bind ParameterProperty.sensitive = some true

/-- `typeOf`. -/
def DeferredExpansionContext.typeOf (name : JsString) : JsString :=
  ((ctx.property? name).bind ParameterProperty.type).getD (js "string")

end Context

section Notes

/-- `usedParams.add(name)`. -/
def Notes.use (notes : Notes) (name : JsString) : Notes :=
  { notes with usedParams := if name ∈ notes.usedParams then notes.usedParams
    else notes.usedParams ++ [name] }

/-- `promptVariables.set(name, binding)`. -/
def Notes.bind (notes : Notes) (name : JsString) (source : PromptSource) : Notes :=
  { notes with promptVariables := notes.promptVariables.set name { name, source } }

end Notes

section Pattern

/-- Where `PARAM_PATTERN.exec(text)` from an index on leaves its match. -/
def matchEnd? (lastIndex : Nat) (text : JsString) : Option Nat :=
  if lastIndex ≤ text.length then paramPattern.endOfFirst lastIndex (text.drop lastIndex) else none

end Pattern

section Rewrite

variable (ctx : DeferredExpansionContext)

/-- The slot of a prompt template. -/
def promptSlot (name : JsString) : JsString := js "\x7b\x7b" ++ name ++ js "\x7d\x7d"

/-- `PROMPT_CONFIG_FIELDS`. -/
def promptConfigFields : List JsString := [js "systemPrompt", js "userPrompt"]

/-- The variable a used parameter is materialized as, unless it is sensitive. -/
def materialize? (name : JsString) : Option MaterializedVariable :=
  if ctx.isSensitive name then none
  else some { name, type := ctx.typeOf name
              description := (ctx.property? name).bind ParameterProperty.description
              defaultValue := Record.get? ctx.params name }

/-- The types of the used parameters. -/
def configurableSchemaOf (usedParams : List JsString) : Map JsString JsString :=
  usedParams.foldl (fun m name => m.set name (ctx.typeOf name)) Map.empty

/-- The fragment of a finished walk. -/
def fragmentOf (chain : WorkflowChain) (pre : JsString) (nodes : List ExpandedNode)
    (notes : Notes) : DeferredExpandedFragment where
  nodes
  edges := expandedEdges chain pre
  idMap := idMapOf chain pre
  materializedVariables := notes.usedParams.filterMap (materialize? ctx)
  promptVariables := notes.promptVariables.values
  configurableSchema := configurableSchemaOf ctx notes.usedParams

end Rewrite

end OpenWop.Chain
