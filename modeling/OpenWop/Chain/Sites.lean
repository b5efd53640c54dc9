import OpenWop.Chain.Deferred

/-!
# The sites of a deferred expansion

What the walk does with a field of a config or of inputs is decided by the field, the
host and the index the pattern was left at, and not by the parameter values. The walk
is refused at the first site that refuses, and otherwise puts the outcome of every
site in its place.
-/

namespace OpenWop.Chain

open OpenWop.Js OpenWop.Template

/-- What the walk does with a field. -/
inductive Handling where
  /-- A prompt, whose tokens become slots. -/
  | slots
  /-- A prompt on a host without prompt variables, whose tokens are substituted. -/
  | fallback
  /-- A string whose tokens are checked and substituted. -/
  | embedded (reason : JsString)
  /-- An input that is one token, bound to a variable. -/
  | bound (name reason : JsString)
  /-- A value that is not a string, whose tokens are substituted at any depth. -/
  | nested
  deriving DecidableEq, Repr

/-- A field and what the walk does with it. -/
structure Site where
  handling : Handling
  field : JsString
  value : Json
  deriving DecidableEq, Repr

section Sites

/-- The site of a config field, tested with the pattern at an index. -/
def configSite (host : DeferredHostContext) (lastIndex : Nat) (field : JsString) : Json → Site
  | .str text =>
    { handling :=
        if field ∈ promptConfigFields ∧ (matchEnd? lastIndex text).isSome = true then
          if host.promptVariableSource then .slots else .fallback
        else .embedded (js "embedded non-prompt config field '" ++ field ++ js "'")
      field
      value := .str text }
  | value => { handling := .nested, field, value }

/-- The sites of a config. Only the first field is tested at an index other than 0. -/
def configSites (host : DeferredHostContext) : Nat → Fields → List Site
  | _, [] => []
  | lastIndex, (k, v) :: fields => configSite host lastIndex k v :: configSites host 0 fields

/-- The site of an input. -/
def inputSite (field : JsString) : Json → Site
  | .str text =>
    { handling := match wholeValue? text with
        | some name => .bound name (js "whole-value node input '" ++ field ++ js "'")
        | none => .embedded (js "embedded non-prompt input '" ++ field ++ js "'")
      field
      value := .str text }
  | value => { handling := .nested, field, value }

/-- The sites of the inputs of a node. -/
def inputSites (fields : Fields) : List Site := fields.map fun m => inputSite m.1 m.2

/-- The site is bound to a variable. -/
def Site.isBound (site : Site) : Bool :=
  match site.handling with
  | .bound .. => true
  | _ => false

/-- The index the pattern is left at by a config, when it was at an index before. -/
def lastIndexAfterConfig (lastIndex : Nat) : Option Fields → Nat
  | some (_ :: _) => 0
  | _ => lastIndex

/-- The index the pattern is left at by inputs. -/
def lastIndexAfterInputs (lastIndex : Nat) (inputs : Option Fields) : Nat :=
  if (inputSites (inputs.getD [])).all Site.isBound then lastIndex else 0

/-- The index the pattern is left at by a node. -/
def lastIndexAfter (lastIndex : Nat) (n : FragmentNode) : Nat :=
  lastIndexAfterInputs (lastIndexAfterConfig lastIndex n.config) n.inputs

/-- The sites of a node. -/
def nodeSites (host : DeferredHostContext) (lastIndex : Nat) (n : FragmentNode) : List Site :=
  configSites host lastIndex (n.config.getD []) ++ inputSites (n.inputs.getD [])

/-- The sites of the nodes of a chain. -/
def sites (host : DeferredHostContext) : Nat → List FragmentNode → List Site
  | _, [] => []
  | lastIndex, n :: nodes =>
    nodeSites host lastIndex n ++ sites host (lastIndexAfter lastIndex n) nodes

end Sites

section Outcomes

variable (ctx : DeferredExpansionContext)

/-- What takes the place of a site's value. -/
def Site.outcome (site : Site) : Json :=
  match site.handling with
  | .slots => site.value.mapStrings fun text => .str (paramPattern.fill promptSlot text)
  | .bound name _ => .obj [(js "source", .str (js "variable")), (js "variable", .str name)]
  | _ => substitute ctx.params site.value

/-- A slot was made for the parameter. -/
def Notes.slot (notes : Notes) (name : JsString) : Notes :=
  (notes.use name).bind name (if ctx.isSensitive name then .secret else .variable)

/-- What a site adds to the notes. -/
def Site.note (notes : Notes) (site : Site) : Notes :=
  match site.handling with
  | .slots => (mentions site.value).foldl (Notes.slot ctx) notes
  | .bound name _ => notes.use name
  | _ => notes

/-- The outcomes of the sites of one record. -/
def outcomes (sites : List Site) : Fields := sites.map fun site => (site.field, site.outcome ctx)

/-- The nodes of an expansion that is not refused. -/
def expandedNodes (chain : WorkflowChain) (pre : JsString) : Nat → List FragmentNode →
    List ExpandedNode
  | _, [] => []
  | lastIndex, n :: nodes =>
    n.expand chain pre (n.config.map fun fields => outcomes ctx (configSites ctx.host lastIndex fields))
        (n.inputs.map fun fields => outcomes ctx (inputSites fields)) ::
      expandedNodes chain pre (lastIndexAfter lastIndex n) nodes

/-- The notes of an expansion that is not refused. -/
def notesOf (sites : List Site) : Notes :=
  sites.foldl (Site.note ctx) { usedParams := [], promptVariables := Map.empty }

end Outcomes

section Runs

variable {ctx : DeferredExpansionContext} {α β : Type}

/-- A step that is refused, or yields a value and leaves the pattern at an index. -/
def stepResult (refusal : Option ExpansionError) (value : α) (lastIndex : Nat) (notes : Notes) :
    Except ExpansionError (α × DeferredState) :=
  match refusal with
  | some error => .error error
  | none => .ok (value, { lastIndex, notes })

/-- The refusal of a composed step is the first one. -/
theorem run_bind {x : Deferred α} {f : α → Deferred β} {state : DeferredState} {r r' : Option ExpansionError}
    {v : α} {w : β} {i j : Nat} {notes notes' : Notes} (hx : x.run state = stepResult r v i notes)
    (hf : (f v).run { lastIndex := i, notes } = stepResult r' w j notes') :
    (x >>= f).run state = stepResult (r.or r') w j notes' := by
  rw [StateT.run_bind, hx]
  cases r with
  | none => exact hf
  | some error => rfl

end Runs

section Refusals

variable (ctx : DeferredExpansionContext)

variable {ctx}

end Refusals

end OpenWop.Chain
