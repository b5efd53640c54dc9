import OpenWop.Core.Template
import OpenWop.Js.Json

/-!
# Parameter tokens

The tokens `{{params.<name>}}` of a chain's text and the substitution of
parameter values for them: a string that is one token becomes the value itself, any
other token the value's text. A parameter without a value reads as the empty string.
-/

namespace OpenWop.Chain

open OpenWop.Js OpenWop.Template

/-- A letter or an underscore. -/
def isNameStart (u : UInt16) : Bool :=
  (65 ≤ u && u ≤ 90) || (97 ≤ u && u ≤ 122) || u = 95

/-- A letter, a digit or an underscore. -/
def isNameUnit (u : UInt16) : Bool := isNameStart u || (48 ≤ u && u ≤ 57)

/-- `PARAM_PATTERN`. -/
def paramPattern : Marker UInt16 where
  opening := js "\x7b\x7bparams."
  closing := js "\x7d\x7d"
  isStart := isNameStart
  isUnit := isNameUnit
  isUnit_of_isStart u h := by simp [isNameUnit, h]
  closing_ends := ⟨125, [125], by decide, by decide⟩

/-- `WHOLE_VALUE_PATTERN.exec(value)`: the name when the value is one token. -/
def wholeValue? (s : JsString) : Option JsString :=
  (paramPattern.nameAt? s).filter fun name => s = paramPattern.token name

/-- The parameter values, by name. -/
abbrev Params := Record JsString Json

/-- The text put in place of an embedded token. -/
def embeddedText (params : Params) (name : JsString) : JsString :=
  ((Record.get? params name).map Json.text).getD []

/-- `substitute` on a string. -/
def substituteText (params : Params) (s : JsString) : Json :=
  match wholeValue? s with
  | some name => (Record.get? params name).getD (.str [])
  | none => .str (paramPattern.fill (embeddedText params) s)

/-- `substitute`. -/
def substitute (params : Params) (value : Json) : Json := value.mapStrings (substituteText params)

/-- The parameters a value mentions. -/
def mentions (value : Json) : List JsString := value.leaves.flatMap paramPattern.names

section Dependence

variable {p q : Params}

/-- The assignment of one text to one parameter. -/
def single (name text : JsString) : Params := [(name, .str text)]

end Dependence

end OpenWop.Chain
