import OpenWop.Bundle.Digest
import OpenWop.Chain.Expand
import OpenWop.Chain.References

/-!
# Compensation in an expanded fragment

A node of a chain may declare its inverse action, and a chain a policy for the unwinding.
`carryCompensation` takes both over to the fragment that `expandChain` made: the declarations node
by node, the policy into the settings of the parent, unless the parent has another one.
-/

namespace OpenWop.Chain

open OpenWop.Js

/-- `retry` of a declaration. -/
structure CompensationRetry where
  maxAttempts : Option JsNumber := none
  backoffMs : Option JsNumber := none
  deriving DecidableEq, Repr

/-- The `compensation` of a node, with the members the manifest schema admits. -/
structure FragmentNodeCompensation where
  nodeTypeId : JsString
  inputMapping : Option Fields := none
  retry : Option CompensationRetry := none
  requiresApproval : Option Bool := none
  waiveRequiresApproval : Option Bool := none
  deriving DecidableEq, Repr

/-- A `FragmentNode` with its compensation. -/
structure CompensatedNode extends FragmentNode where
  compensation : Option FragmentNodeCompensation := none
  irreversibleEffect : Option Bool := none
  deriving DecidableEq, Repr

/-- `ChainCompensationPolicy`: a JSON object with triggers. -/
structure ChainCompensationPolicy where
  members : Record JsString Json
  triggers : List Json
  hasTriggers : Record.get? members (js "triggers") = some (.arr triggers)
  isIJson : Json.isIJson (.obj members) = true
  deriving DecidableEq

/-- The policy as a value. -/
def ChainCompensationPolicy.toJson (policy : ChainCompensationPolicy) : Json := .obj policy.members

/-- `WorkflowChainWithCompensation`. -/
structure WorkflowChainWithCompensation where
  chainId : JsString
  version : JsString
  nodes : List CompensatedNode
  edges : Option (List FragmentEdge) := none
  capabilities : Option (List Capability) := none
  subChains : Option (List ChainRef) := none
  compensation : Option ChainCompensationPolicy := none

/-- The chain as `expandChain` sees it. -/
def WorkflowChainWithCompensation.toChain (chain : WorkflowChainWithCompensation) :
    WorkflowChain where
  chainId := chain.chainId
  version := chain.version
  nodes := chain.nodes.map CompensatedNode.toFragmentNode
  edges := chain.edges
  capabilities := chain.capabilities
  subChains := chain.subChains

section Carrying

/-- `{ ...policy, triggers: [...policy.triggers] }`. -/
def ChainCompensationPolicy.copy (policy : ChainCompensationPolicy) : ChainCompensationPolicy where
  members := Record.set policy.members (js "triggers") (.arr policy.triggers)
  triggers := policy.triggers
  hasTriggers := Record.get?_set_self ..
  isIJson := by
    rw [Record.set_eq_self policy.hasTriggers]
    exact policy.isIJson

variable (chain : WorkflowChainWithCompensation) (ctx : ExpansionContext)

/-- The ids of the nodes. -/
def WorkflowChainWithCompensation.nodeIds : List JsString := chain.toChain.nodeIds

end Carrying

section Acceptance

variable {chain : WorkflowChainWithCompensation} {ctx : ExpansionContext}

end Acceptance

end OpenWop.Chain
