import OpenWop.Chain.ClosedWorld

/-!
# A deferred fragment filled in

A deferred fragment leaves bindings and prompt slots where the expansion puts values.
Filled in with the default values of its variables it is compared with the fragment of
`expandChain`.
-/

namespace OpenWop.Chain

open OpenWop.Js OpenWop.Template

/-- What a deferred expansion writes at a site, with the places it leaves open told apart from the
text around them. -/
inductive Written where
  | value (v : Json)
  | bound (name : JsString)
  | prompt (pieces : List (Piece UInt16))
  deriving DecidableEq, Repr

section Written

variable (defaultValue? : JsString → Option Json)

/-- The text a slot is filled with: that of the default value, and the slot itself without one. -/
def slotText (name : JsString) : JsString :=
  ((defaultValue? name).map Json.text).getD (promptSlot name)

/-- With its bindings and slots replaced by default values. -/
def Written.fill : Written → Json
  | .value v => v
  | .bound name => (defaultValue? name).getD (binding name)
  | .prompt pieces => .str (pieces.flatMap (Piece.fill (slotText defaultValue?)))

/-- What the walk writes at a site. -/
def Site.written (params : Params) (site : Site) : Written :=
  match site.handling, site.value with
  | .slots, .str text => .prompt (paramPattern.scan text)
  | .bound name _, _ => .bound name
  | _, value => .value (substitute params value)

end Written

/-- A node of a fragment, with something at every field of its config and inputs. -/
structure Draft (α : Type) where
  source : FragmentNode
  config : Option (Record JsString α)
  inputs : Option (Record JsString α)

section Drafts

variable {α β : Type}

def Draft.map (f : α → β) (d : Draft α) : Draft β where
  source := d.source
  config := d.config.map (Record.mapValues f)
  inputs := d.inputs.map (Record.mapValues f)

/-- The node of the fragment. -/
def Draft.expand (chain : WorkflowChain) (pre : JsString) (d : Draft Json) : ExpandedNode :=
  d.source.expand chain pre d.config d.inputs

variable {host : DeferredHostContext}

end Drafts

section Fragments

variable {ctx : DeferredExpansionContext}

end Fragments

section Agreement

/-- The parameter a prompt consists of, when it is one token. -/
def Site.wholePrompt? (site : Site) : Option JsString :=
  match site.handling, site.value with
  | .slots, .str text => wholeValue? text
  | _, _ => none

/-- Every parameter the site leaves open has a value, and one that a prompt consists of has a string. -/
def Site.Agrees (params : Params) (site : Site) : Prop :=
  (∀ name ∈ site.openNames, ∃ v, Record.get? params name = some v) ∧
    ∀ name ∈ site.wholePrompt?, ∃ text, Record.get? params name = some (.str text)

variable {params : Params} {defaultValue? : JsString → Option Json}

/-- A site bound to a parameter consists of its token. -/
def Site.Sound (site : Site) : Prop :=
  site.WellFormed ∧ ∀ name reason, site.handling = .bound name reason →
    ∃ text, site.value = .str text ∧ wholeValue? text = some name

end Agreement

section Fragment

/-- The default value of a variable of the fragment. -/
def DeferredExpandedFragment.defaultValue? (fragment : DeferredExpandedFragment) (name : JsString) :
    Option Json :=
  (fragment.materializedVariables.find? fun v => v.name = name).bind MaterializedVariable.defaultValue

variable {ctx : DeferredExpansionContext}

/-- A chain of one node. -/
def openChain (config inputs : Fields) : WorkflowChain where
  chainId := js "c"
  version := js "1"
  nodes := [{ id := js "a", typeId := js "t", config := some config, inputs := some inputs }]

/-- A host with prompt variables, and parameter values without a schema. -/
def openContext (params : Params) : DeferredExpansionContext where
  expansionId := js "e"
  params
  properties := none
  isTypeIdResolvable := fun _ => true
  host := { promptVariableSource := true, secretsSupported := true }

/-- The deferred fragment of such a chain. -/
def openFragment (params : Params) (config inputs : Fields) : DeferredExpandedFragment :=
  fragmentOf (openContext params) (openChain config inputs) (computePrefix (js "c") (js "e"))
    (expandedNodes (openContext params) (openChain config inputs) (computePrefix (js "c") (js "e")) 0
      (openChain config inputs).nodes)
    (notesOf (openContext params) (sites (openContext params).host 0 (openChain config inputs).nodes))

/-- The fragment of `expandChain`. -/
def closedFragment (params : Params) (config inputs : Fields) : ExpandedFragment where
  nodes := (openChain config inputs).nodes.map fun n =>
    n.expand (openChain config inputs) (computePrefix (js "c") (js "e"))
      (n.config.map (substituteFields params)) (n.inputs.map (substituteFields params))
  edges := expandedEdges (openChain config inputs) (computePrefix (js "c") (js "e"))
  idMap := idMapOf (openChain config inputs) (computePrefix (js "c") (js "e"))

/-- The token of the parameter `p`. -/
def tokenText : JsString := paramPattern.token (js "p")

/-- A slot the chain was written with and a slot written for a token are the same in the fragment, and
not in what `expandChain` makes of them. -/
theorem slots_alike :
    (openFragment [(js "p", .bool true)]
        [(js "userPrompt", .str (promptSlot (js "p") ++ tokenText))] []).nodes =
      (openFragment [(js "p", .bool true)]
        [(js "userPrompt", .str (tokenText ++ promptSlot (js "p")))] []).nodes ∧
    (closedFragment [(js "p", .bool true)]
        [(js "userPrompt", .str (promptSlot (js "p") ++ tokenText))] []).nodes ≠
      (closedFragment [(js "p", .bool true)]
        [(js "userPrompt", .str (tokenText ++ promptSlot (js "p")))] []).nodes := by
  decide

end Fragment

end OpenWop.Chain
