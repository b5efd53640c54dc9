import OpenWop.Chain.Expand

/-!
# Expansion of a chain with its sub-chains

`expandChainTree` expands a chain and, depth first, every sibling chain its nodes
refer to. A sibling is registered once under an id minted from the tenant, the
reference and the sibling's version, and the reference in the node's config gives way
to that id.
-/

namespace OpenWop.Chain

open OpenWop.Js

section Context

/-- `DEFAULT_MAX_SUB_CHAIN_DEPTH`. -/
def defaultMaxSubChainDepth : Nat := 8

/-- The chains supplied with an expansion, keyed by `chainId`. -/
structure SiblingChains where
  chains : Map JsString WorkflowChain
  keyed : ∀ ref chain, chains.get? ref = some chain → chain.chainId = ref

/-- `siblingChains.get(ref)`. -/
def SiblingChains.get? (siblings : SiblingChains) (ref : JsString) : Option WorkflowChain :=
  siblings.chains.get? ref

/-- The chains of a pack, each under its id. -/
def SiblingChains.ofChains (chains : List WorkflowChain) : SiblingChains where
  chains := chains.foldl (fun m chain => m.set chain.chainId chain) Map.empty
  keyed ref chain h := by
    rw [Map.get?_foldl_set, Map.get?_empty, Option.or_none] at h
    simpa using (List.mem_filter.mp (List.mem_of_getLast? h)).2

/-- `CoExpansionContext`. -/
structure CoExpansionContext where
  parentExpansionId : JsString
  tenantId : JsString
  params : Params
  isTypeIdResolvable : JsString → Bool
  siblingChains : SiblingChains
  maxDepth : Option Nat := none

/-- `CoRegisteredChild`. -/
structure CoRegisteredChild where
  childWorkflowId : JsString
  chainId : JsString
  fragment : ExpandedFragment
  deriving Repr

/-- `ChainTreeExpansion`. -/
structure ChainTreeExpansion where
  parent : ExpandedFragment
  children : List CoRegisteredChild
  deriving Repr

end Context

section References

/-- `refChainId`. -/
def ChainRef.refChainId : ChainRef → JsString
  | .sibling chainId => chainId
  | .external _ chainId _ => chainId

/-- The references a chain declares. -/
def WorkflowChain.declared (chain : WorkflowChain) : List JsString :=
  (chain.subChains.getD []).map ChainRef.refChainId

/-- `config?.['subChainRef']`. -/
def subChainRef? (config : Option Fields) : Option Json :=
  config.bind fun fields => Record.get? fields (js "subChainRef")

/-- The reference of a node, when it is a string. -/
def FragmentNode.ref? (n : FragmentNode) : Option JsString :=
  match subChainRef? n.config with
  | some (.str ref) => some ref
  | _ => none

/-- `subChainRefsInNodes`. -/
def subChainRefsInNodes (chain : WorkflowChain) : List JsString :=
  uniq (chain.nodes.filterMap FragmentNode.ref?)

/-- A unit that stays in a slug. -/
def isSlugUnit (u : UInt16) : Bool :=
  (48 ≤ u && u ≤ 57) || (65 ≤ u && u ≤ 90) || (97 ≤ u && u ≤ 122) || u = unit '_' || u = unit '-'

/-- The slug of a text. A dot is kept by the first replacement and replaced by the second. -/
def slug (s : JsString) : JsString :=
  (s.map fun u => if isSlugUnit u || u = unit '.' then u else unit '_').map fun u =>
    if u = unit '.' then unit '_' else u

/-- `mintChildWorkflowId`. -/
def mintChildWorkflowId (tenantId childChainId version : JsString) : JsString :=
  js "wfc_" ++ slug tenantId ++ js "__" ++ slug childChainId ++ js "__" ++ slug version

end References

section Fragments

variable (ctx : CoExpansionContext)

/-- The id a reference is rewritten to. -/
def CoExpansionContext.childId (ref : JsString) : JsString :=
  mintChildWorkflowId ctx.tenantId ref
    (((ctx.siblingChains.get? ref).map WorkflowChain.version).getD (js "0.0.0"))

/-- A node whose reference, when it is a string, gives way to a workflow id. -/
def rewriteRef (n : ExpandedNode) : ExpandedNode :=
  match n.config, subChainRef? n.config with
  | some fields, some (.str ref) =>
    { n with config := some (Record.set (Record.erase fields (js "subChainRef")) (js "workflowId")
        (.str (ctx.childId ref))) }
  | _, _ => n

/-- The expansion id of a chain of the tree. -/
def expansionIdOf (root chain : WorkflowChain) : JsString :=
  if chain.chainId = root.chainId then ctx.parentExpansionId
  else ctx.parentExpansionId ++ js "_" ++
    chain.chainId.map fun u => if u = unit '.' then unit '_' else u

/-- The context a chain of the tree is expanded in. -/
def expansionContextOf (root chain : WorkflowChain) : ExpansionContext where
  expansionId := expansionIdOf ctx root chain
  params := ctx.params
  isTypeIdResolvable := ctx.isTypeIdResolvable

/-- The fragment of a chain of the tree: its expansion, with the references rewritten. -/
def treeFragment (root chain : WorkflowChain) : Except ExpansionError ExpandedFragment := do
  let fragment ← expandChain chain (expansionContextOf ctx root chain)
  return { fragment with nodes := fragment.nodes.map (rewriteRef ctx) }

end Fragments

section Expansion

/-- The state of the walk. -/
structure TreeState where
  children : Map JsString CoRegisteredChild
  onStack : List JsString

/-- A step of the walk. -/
abbrev Tree := StateT TreeState (Except ExpansionError)

variable (ctx : CoExpansionContext)

/-- The sibling a reference of a chain resolves to. -/
def resolveRef (chain : WorkflowChain) (ref : JsString) : Except ExpansionError WorkflowChain :=
  if ref ∈ chain.declared then
    match ctx.siblingChains.get? ref with
    | some sibling => .ok sibling
    | none => .error (.subChainUnresolved ref chain.chainId)
  else .error (.subChainUnresolved ref chain.chainId)

/-- The body of the loop over the references of a chain: a sibling whose id is new is expanded and
registered. -/
def registerRef (expandOne : WorkflowChain → Tree ExpandedFragment) (chain : WorkflowChain)
    (ref : JsString) : Tree Unit := do
  let sibling ← resolveRef ctx chain ref
  let childId := mintChildWorkflowId ctx.tenantId ref sibling.version
  if ((← get).children.get? childId).isNone then
    let childFragment ← expandOne sibling
    modify fun s => { s with
      children := s.children.set childId
        { childWorkflowId := childId, chainId := ref, fragment := childFragment } }

/-- The loop over the references of a chain. -/
def registerRefs (expandOne : WorkflowChain → Tree ExpandedFragment) (chain : WorkflowChain) :
    List JsString → Tree Unit
  | [] => return ()
  | ref :: refs => do
    registerRef ctx expandOne chain ref
    registerRefs expandOne chain refs

/-- `maxDepth`. -/
def CoExpansionContext.depthBound : Nat := ctx.maxDepth.getD defaultMaxSubChainDepth

/-- `expandOne`, by the number of levels `maxDepth` leaves from here on. -/
def expandOne (root : WorkflowChain) : Nat → WorkflowChain → Tree ExpandedFragment
  | 0, chain => throw (.subChainDepthExceeded chain.chainId ctx.depthBound)
  | levels + 1, chain => do
    if chain.chainId ∈ (← get).onStack then
      throw (.subChainCycle chain.chainId (js "chain transitively composes itself"))
    modify fun s => { s with onStack := chain.chainId :: s.onStack }
    registerRefs ctx (expandOne root levels) chain (subChainRefsInNodes chain)
    let fragment ← treeFragment ctx root chain
    modify fun s => { s with onStack := s.onStack.filter (· ≠ chain.chainId) }
    return fragment

/-- `expandChainTree`. -/
def expandChainTree (root : WorkflowChain) : Except ExpansionError ChainTreeExpansion := do
  let (parent, state) ← (expandOne ctx root (ctx.depthBound + 1) root).run
    { children := Map.empty, onStack := [] }
  return { parent, children := state.children.values }

end Expansion

end OpenWop.Chain
