import OpenWop.Chain.Compensation

/-!
# Renamed references

What the expansion should write for an input mapping, and when the pattern of
`rewriteInputMappingRefs` writes it. A string of a mapping is the chain's own but for the text put
in for parameters; a reference is written in the chain itself, `nodes.` at the start of a path or
the id alone at the start of the string.
-/

namespace OpenWop.Chain

open OpenWop.Js OpenWop.Template OpenWop.Insertion

section Sources

/-- The units of a text, each with whether the chain itself wrote it. -/
abbrev Sourced := List (UInt16 × Bool)

/-- A text without its sources. -/
def units (text : Sourced) : JsString := text.map Prod.fst

/-- A text the chain wrote. -/
def authored (s : JsString) : Sourced := s.map fun u => (u, true)

end Sources

section References

variable (ids : List JsString)

end References

section Places

variable {ids : List JsString} {pre : JsString} {before after text : Sourced}

end Places

section Readable

/-- The pattern reads a text as it is meant. -/
structure Readable (ids : List JsString) (text : Sourced) : Prop where
  /-- What is read as the id of a reference is an id. -/
  spelled : ∀ outer id rest, id ∈ ids → id ≠ [] → PathStart none (units outer) →
    text = outer ++ (authored (nodesLead ++ (id ++ [unit '.'])) ++ rest) →
    ∃ name ∈ ids, refId? (id ++ unit '.' :: units rest) = some name
  /-- What is matched with an id is at the start of a path, and the chain's own. -/
  matched : ∀ ps lead id qs, scanRefs (units text) = ps ++ .ref lead id :: qs → id ∈ ids →
    ∃ outer rest, text = outer ++ (authored (nodesLead ++ (id ++ [unit '.'])) ++ rest) ∧
      PathStart none (units outer) ∧ units outer ++ nodesLead = ps.flatMap RefPiece.source ++ lead
  /-- No text begins with an id and a dot, but for `nodes.`. -/
  unported : ∀ id ∈ ids, id ≠ [] → authored (id ++ [unit '.']) <+: text → authored nodesLead <+: text

variable {ids : List JsString} {text : Sourced}

end Readable

section Texts

variable {ids : List JsString} {params : Params} {text : Sourced}

end Texts

section Mappings

variable {chain : WorkflowChainWithCompensation} {ctx : ExpansionContext}

end Mappings

section Instances

/-- A chain of one node with a mapping of one string. -/
def mapped (id text : JsString) : WorkflowChainWithCompensation where
  chainId := js "c"
  version := js "1"
  nodes := [{ id, typeId := js "t",
              compensation := some { nodeTypeId := js "u", inputMapping := some [(js "x", .str text)] } }]

end Instances

end OpenWop.Chain
