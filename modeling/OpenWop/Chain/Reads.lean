import OpenWop.Chain.Sites

/-!
# Variable reads of a chain

A chain declares the variables its nodes produce. The validation collects the reads written in the
inputs and the config of the nodes, at any depth, and refuses the first one that nothing declares.
-/

namespace OpenWop.Chain

open OpenWop.Js OpenWop.Template

section Code

/-- The name an object reads: `tag` says it is a variable, `key` names it. -/
def nameRead? (tag key : JsString) (members : Record JsString Json) : Option JsString :=
  match Record.get? members tag, Record.get? members key with
  | some (.str kind), some (.str name) => if kind = js "variable" then some name else none
  | _, _ => none

/-- The read of an object in the authored form, `{ type: 'variable', variableName }`. -/
def authoredRead? : Record JsString Json → Option JsString :=
  nameRead? (js "type") (js "variableName")

mutual

/-- `collectVariableReads` -/
def collectVariableReads : Json → List JsString
  | .arr items => collectItems items
  | .obj members => (authoredRead? members).toList ++ collectMembers members
  | _ => []

/-- The reads in the items. -/
def collectItems : List Json → List JsString
  | [] => []
  | v :: vs => collectVariableReads v ++ collectItems vs

/-- The reads in the member values. -/
def collectMembers : List (JsString × Json) → List JsString
  | [] => []
  | (_, v) :: ms => collectVariableReads v ++ collectMembers ms

end

end Code

section Positions

/-- A step into a value. -/
inductive PathStep where
  | member (name : JsString)
  | item (index : Nat)
  deriving DecidableEq, Repr

/-- The value at a position. -/
def valueAt : Json → List PathStep → Option Json
  | v, [] => some v
  | .obj members, .member name :: path => (Record.get? members name).bind fun v => valueAt v path
  | .arr items, .item index :: path => items[index]?.bind fun v => valueAt v path
  | _, _ => none

/-- The position is in a parameter's value: on the way to it stands a token. -/
def PutIn (v : Json) (path : List PathStep) : Prop :=
  ∃ before after s name, path = before ++ after ∧ valueAt v before = some (.str s) ∧
    wholeValue? s = some name

end Positions

section Validation

end Validation

end OpenWop.Chain
