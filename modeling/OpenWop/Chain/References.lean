import OpenWop.Core.Insertion
import OpenWop.Chain.Params

/-!
# References in an input mapping

`rewriteInputMappingRefs` puts the prefix of an expansion before the node ids it finds in the
strings of a mapping, by one global pattern: `${`, spaces and `nodes.`, or `nodes.` at a word
boundary, then an id up to the next dot.
-/

namespace OpenWop.Chain

open OpenWop.Js OpenWop.Insertion

section Pattern

/-- The class of an id up to its dot: a letter, a digit, an underscore or a hyphen. -/
def isRefUnit (u : UInt16) : Bool := isNameUnit u || u = unit '-'

/-- The class `[A-Za-z0-9_.-]`. -/
def isPathUnit (u : UInt16) : Bool := isRefUnit u || u = unit '.'

/-- What a reference starts with. -/
def nodesLead : JsString := js "nodes."

/-- `\$\{\s*nodes\.`. -/
def templateLead? (s : JsString) : Option JsString :=
  let spaces := (s.drop 2).takeWhile isTrimmed
  if startsWith s (js "$\x7b") && startsWith (s.drop (2 + spaces.length)) nodesLead then
    some (js "$\x7b" ++ spaces ++ nodesLead)
  else none

/-- `\bnodes\.`, after what stands before. -/
def bareLead? (prev : Option UInt16) (s : JsString) : Option JsString :=
  if prev.all (fun u => !isNameUnit u) && startsWith s nodesLead then some nodesLead else none

/-- `([A-Za-z0-9_.-]+?)(\.)`: the shortest id before a dot. -/
def refId? : JsString → Option JsString
  | [] => none
  | u :: s =>
    let name := s.takeWhile isRefUnit
    if isPathUnit u && startsWith (s.drop name.length) [unit '.'] then some (u :: name) else none

/-- The lead and the id of a match that starts here. -/
def matchRef? (prev : Option UInt16) (s : JsString) : Option (JsString × JsString) :=
  (templateLead? s <|> bareLead? prev s).bind fun lead =>
    (refId? (s.drop lead.length)).map fun id => (lead, id)

/-- A unit between two matches, or a match. -/
inductive RefPiece where
  | text (u : UInt16)
  | ref (lead id : JsString)
  deriving DecidableEq, Repr

/-- What a piece is written as. -/
def RefPiece.source : RefPiece → JsString
  | .text u => [u]
  | .ref lead id => lead ++ id ++ [unit '.']

/-- The callback of `replace`: the prefix goes before the id of a fragment node. -/
def RefPiece.rewrite (ids : List JsString) (pre : JsString) : RefPiece → JsString
  | .text u => [u]
  | .ref lead id => if id ∈ ids then lead ++ pre ++ id ++ [unit '.'] else lead ++ id ++ [unit '.']

/-- The places a piece puts the prefix before. -/
def RefPiece.marks (ids : List JsString) : RefPiece → List Bool
  | .text _ => [false]
  | .ref lead id => List.replicate lead.length false ++ decide (id ∈ ids) :: List.replicate id.length false

/-- The matches from left to right, with so many units left of the last one. -/
def scanRefsFrom : Nat → Option UInt16 → JsString → List RefPiece
  | _, _, [] => []
  | k + 1, _, u :: s => scanRefsFrom k (some u) s
  | 0, prev, u :: s =>
    match matchRef? prev (u :: s) with
    | some (lead, id) => .ref lead id :: scanRefsFrom (lead.length + id.length) (some u) s
    | none => .text u :: scanRefsFrom 0 (some u) s

/-- The matches of the pattern in a text. -/
def scanRefs (s : JsString) : List RefPiece := scanRefsFrom 0 none s

end Pattern

section Matches

variable {prev : Option UInt16} {s lead id : JsString}

end Matches

section Scan

variable {prev : Option UInt16} {s lead id tail : JsString}

variable {ids : List JsString} {pre : JsString}

end Scan

section Starts

variable {prev : Option UInt16} {s outer lead id tail rest : JsString} {ids : List JsString}

/-- A path starts here: what stands before is no unit of a path. -/
def PathStart (prev : Option UInt16) (outer : JsString) : Prop :=
  ∀ u ∈ outer.getLast?.or prev, isPathUnit u = false

end Starts

end OpenWop.Chain
