import OpenWop.Chain.Params

/-!
# Chain expansion

A workflow chain is expanded into a fragment of a parent workflow: node ids are
prefixed, edge endpoints follow, and parameter values are substituted in the config
and the inputs of every node.
-/

namespace OpenWop.Chain

open OpenWop.Js

/-- `TriggerRule`. -/
inductive TriggerRule where
  | allSuccess
  | anySuccess
  | allComplete
  | noneFailed
  | anyFailed
  deriving DecidableEq, Repr

/-- The capabilities a chain declares. -/
inductive Capability where
  | streamable
  | cacheable
  | sideEffectful
  | mcpExportable
  deriving DecidableEq, Repr

/-- A position in the editor. -/
structure Position where
  x : JsNumber
  y : JsNumber
  deriving DecidableEq, Repr

/-- The members of a node's config or inputs. -/
abbrev Fields := Record JsString Json

/-- `FragmentNode`. -/
structure FragmentNode where
  id : JsString
  typeId : JsString
  name : Option JsString := none
  position : Option Position := none
  config : Option Fields := none
  inputs : Option Fields := none
  deriving DecidableEq, Repr

/-- `FragmentEdge`. -/
structure FragmentEdge where
  fromRef : JsString
  toRef : JsString
  condition : Option Json := none
  triggerRule : Option TriggerRule := none
  deriving DecidableEq, Repr

/-- `SubChainRef.ref`: a sibling chain, or a chain of another pack. -/
inductive ChainRef where
  | sibling (chainId : JsString)
  | external (packName chainId version : JsString)
  deriving DecidableEq, Repr

/-- `WorkflowChain`. -/
structure WorkflowChain where
  chainId : JsString
  version : JsString
  nodes : List FragmentNode
  edges : Option (List FragmentEdge) := none
  capabilities : Option (List Capability) := none
  subChains : Option (List ChainRef) := none
  deriving DecidableEq, Repr

/-- The refusals of the expansions. -/
inductive ExpansionError where
  | chainUnresolvableTypeId (typeId chainId : JsString)
  | sensitiveParamNotDeferrable (param reason : JsString)
  | subChainUnresolved (ref chainId : JsString)
  | subChainCycle (chainId detail : JsString)
  | subChainDepthExceeded (chainId : JsString) (maxDepth : Nat)
  deriving DecidableEq, Repr

/-- A node of an expanded fragment. -/
structure ExpandedNode where
  id : JsString
  typeId : JsString
  name : Option JsString
  position : Option Position
  config : Option Fields
  inputs : Option Fields
  capabilities : Option (List Capability)
  deriving DecidableEq, Repr

/-- `ExpandedFragment`. -/
structure ExpandedFragment where
  nodes : List ExpandedNode
  edges : List FragmentEdge
  idMap : Map JsString JsString
  deriving Repr

/-- `ExpansionContext`. -/
structure ExpansionContext where
  expansionId : JsString
  params : Params
  isTypeIdResolvable : JsString → Bool

/-- `computePrefix`. -/
def computePrefix (chainId expansionId : JsString) : JsString :=
  chainId.map (fun u => if u = unit '.' then unit '_' else u) ++ js "_" ++ expansionId ++ js "_"

/-- `rewriteEdgeRef`. -/
def rewriteEdgeRef (ref : JsString) (fragmentNodeIds : List JsString) (pre : JsString) : JsString :=
  let nodeId := ref.takeWhile (· ≠ unit '.')
  let portPart := ref.dropWhile (· ≠ unit '.')
  if nodeId ∈ fragmentNodeIds then pre ++ nodeId ++ portPart else ref

/-- The ids of the nodes of a chain. -/
def WorkflowChain.nodeIds (chain : WorkflowChain) : List JsString := uniq (chain.nodes.map FragmentNode.id)

/-- The id map of an expansion. -/
def idMapOf (chain : WorkflowChain) (pre : JsString) : Map JsString JsString :=
  chain.nodeIds.foldl (fun m id => m.set id (pre ++ id)) Map.empty

/-- The edges of an expansion. -/
def expandedEdges (chain : WorkflowChain) (pre : JsString) : List FragmentEdge :=
  (chain.edges.getD []).map fun e =>
    { e with fromRef := rewriteEdgeRef e.fromRef chain.nodeIds pre
             toRef := rewriteEdgeRef e.toRef chain.nodeIds pre }

/-- The capabilities of an expanded node: those of the chain, when it declares any. -/
def WorkflowChain.nodeCapabilities (chain : WorkflowChain) : Option (List Capability) :=
  chain.capabilities.filter fun capabilities => capabilities.length > 0

/-- The first node whose type does not resolve. -/
def unresolvable? (chain : WorkflowChain) (isTypeIdResolvable : JsString → Bool) :
    Option ExpansionError :=
  (chain.nodes.find? fun n => !isTypeIdResolvable n.typeId).map fun n =>
    .chainUnresolvableTypeId n.typeId chain.chainId

/-- A node with its new id, and its config and inputs rewritten. -/
def FragmentNode.expand (n : FragmentNode) (chain : WorkflowChain) (pre : JsString)
    (config inputs : Option Fields) : ExpandedNode where
  id := pre ++ n.id
  typeId := n.typeId
  name := n.name
  position := n.position
  config
  inputs
  capabilities := chain.nodeCapabilities

/-- `substitute` on the members of a config or of inputs. -/
def substituteFields (params : Params) (fields : Fields) : Fields :=
  Record.mapValues (substitute params) fields

/-- `expandChain`. -/
def expandChain (chain : WorkflowChain) (ctx : ExpansionContext) :
    Except ExpansionError ExpandedFragment :=
  match unresolvable? chain ctx.isTypeIdResolvable with
  | some error => .error error
  | none =>
    let pre := computePrefix chain.chainId ctx.expansionId
    .ok {
      nodes := chain.nodes.map fun n => n.expand chain pre (n.config.map (substituteFields ctx.params))
        (n.inputs.map (substituteFields ctx.params))
      edges := expandedEdges chain pre
      idMap := idMapOf chain pre }

end OpenWop.Chain
