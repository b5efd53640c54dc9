import Mathlib.Tactic.MkIffOfInductiveProp
import OpenWop.Js.Canonical
import OpenWop.Schema.Census

/-!
# What a schema accepts

The meaning of the keywords `type`, `enum`, `const`, `required`, `minItems`, `properties`,
`additionalProperties`, `items`, `allOf`, `anyOf`, `oneOf`, `if`, `then`, `else` and `$ref`.
What a reference accepts is a parameter. A name may be exempt: no `required` of the object,
of its clauses and arms, or of the members that `properties` names asks for it.
-/

namespace OpenWop.Schema

open OpenWop.Js

section Assertions

/-- The number is an integer. -/
def isInteger : JsNumber → Bool
  | .finite d => 0 ≤ d.exponent
  | _ => false

/-- The value has the type of a name. -/
def hasType (v : Json) (name : JsString) : Bool :=
  match v with
  | .null => name = js "null"
  | .bool _ => name = js "boolean"
  | .num n => name = js "number" ∨ (name = js "integer" ∧ isInteger n = true)
  | .str _ => name = js "string"
  | .arr _ => name = js "array"
  | .obj _ => name = js "object"

/-- The strings among the items of a keyword. -/
def stringItems (v : Option Json) : List JsString :=
  ((Json.items? v).getD []).filterMap fun
    | .str s => some s
    | _ => none

/-- The members of a value, if it is an object. -/
def membersOf (v : Option Json) : List (JsString × Json) :=
  match v with
  | some (.obj members) => members
  | _ => []

instance (v w : Json) : Decidable (Json.Same v w) := inferInstanceAs (Decidable (_ = _))

variable (members : List (JsString × Json)) (exempt : List JsString) (v : Json)

/-- `type`. -/
def typeHolds : Bool :=
  (keyword members (js "type")).all fun _ => (typeNames members).any (hasType v)

/-- `enum`. -/
def enumHolds : Bool :=
  (Json.items? (keyword members (js "enum"))).all fun values => values.any fun w => Json.Same v w

/-- `const`. -/
def constHolds : Bool := (keyword members (js "const")).all fun w => Json.Same v w

/-- `required`, for the names that are not exempt. -/
def requiredHolds : Bool :=
  match v with
  | .obj vs => (stringItems (keyword members (js "required"))).all fun k =>
      k ∈ exempt ∨ k ∈ Record.keys vs
  | _ => true

/-- `minItems`. -/
def minItemsHolds : Bool :=
  match v, keyword members (js "minItems") with
  | .arr xs, some (.num n) => n.toNat?.all fun least => least ≤ xs.length
  | _, _ => true

/-- The keywords that look at the value alone. -/
def asserts : Bool :=
  typeHolds members v && enumHolds members v && constHolds members v &&
    requiredHolds members exempt v && minItemsHolds members v

/-- The items of `required`. -/
def requiredItems : List Json := (Json.items? (keyword members (js "required"))).getD []

variable {members exempt v}

/-- The values of type `object`. -/
theorem exists_of_hasType_object (h : hasType v (js "object") = true) : ∃ vs, v = .obj vs := by
  cases v with
  | obj vs => exact ⟨vs, rfl⟩
  | num n =>
    simp only [hasType, decide_eq_true_eq] at h
    obtain h | ⟨h, -⟩ := h
    · exact absurd h (by decide)
    · exact absurd h (by decide)
  | _ =>
    simp only [hasType, decide_eq_true_eq] at h
    exact absurd h (by decide)

theorem mem_stringItems {w : Option Json} {k : JsString} :
    k ∈ stringItems w ↔ .str k ∈ (Json.items? w).getD [] := by
  simp only [stringItems, List.mem_filterMap]
  constructor
  · rintro ⟨x, hx, hk⟩
    cases x with
    | str s =>
      cases hk
      exact hx
    | _ => cases hk
  · exact fun h => ⟨_, h, rfl⟩

theorem requiredHolds_iff : requiredHolds members exempt v = true ↔ ∀ vs, v = .obj vs →
    ∀ k, .str k ∈ requiredItems members → k ∈ exempt ∨ k ∈ Record.keys vs := by
  cases v with
  | obj vs =>
    simp only [requiredHolds, List.all_eq_true, mem_stringItems, decide_eq_true_eq,
      Json.obj.injEq, forall_eq', requiredItems]
  | _ => simp [requiredHolds]

theorem typeHolds_congr {members' : List (JsString × Json)} {v' : Json}
    (h : keyword members' (js "type") = keyword members (js "type"))
    (hv : ∀ name, hasType v' name = hasType v name) :
    typeHolds members' v' = typeHolds members v := by
  have hfun : hasType v' = hasType v := funext hv
  rw [typeHolds, typeHolds, typeNames, typeNames, h, hfun]

theorem asserts_iff : asserts members exempt v = true ↔ typeHolds members v = true ∧
    enumHolds members v = true ∧ constHolds members v = true ∧
    requiredHolds members exempt v = true ∧ minItemsHolds members v = true := by
  simp only [asserts, Bool.and_eq_true, and_assoc]

end Assertions

section Applicators

/-- Whether a value is accepted, with the exempt names. -/
abbrev Validator := List JsString → Json → Bool

/-- What the value of a keyword accepts: as a schema, as a list of schemas and as schemas by
name. -/
structure Subvalidators where
  whole : Validator
  each : List Validator
  named : Record JsString Validator

variable (subs : Record JsString Subvalidators) (exempt : List JsString) (v : Json)

/-- `properties` and `additionalProperties`. -/
def membersHold : Bool :=
  match v with
  | .obj vs =>
    let named := (Record.get? subs (js "properties")).elim [] Subvalidators.named
    named.all (fun p => (Record.get? vs p.1).all (p.2 exempt)) &&
      (Record.get? subs (js "additionalProperties")).all fun sub =>
        vs.all fun m => m.1 ∈ Record.keys named || sub.whole [] m.2
  | _ => true

/-- `items`. -/
def itemsHold (subs : Record JsString Subvalidators) (v : Json) : Bool :=
  match v with
  | .arr xs => (Record.get? subs (js "items")).all fun sub => xs.all (sub.whole [])
  | _ => true

/-- `allOf`, `anyOf` and `oneOf`. -/
def combinatorsHold : Bool :=
  (Record.get? subs (js "allOf")).all (fun sub => sub.each.all fun f => f exempt v) &&
    (Record.get? subs (js "anyOf")).all (fun sub => sub.each.any fun f => f [] v) &&
    (Record.get? subs (js "oneOf")).all fun sub => sub.each.countP (fun f => f [] v) = 1

/-- `if`, `then` and `else`. -/
def conditionalHolds : Bool :=
  (Record.get? subs (js "if")).all fun sub =>
    (Record.get? subs (if sub.whole [] v then js "then" else js "else")).all fun arm =>
      arm.whole exempt v

end Applicators

section Valid

variable (accepts : JsString → Json → Bool)

mutual

/-- The schema accepts the value, when the references accept what they accept. -/
def valid : Json → Validator
  | .bool b, _, _ => b
  | .obj members, exempt, v =>
    asserts members exempt v && membersHold (subvalidators members) exempt v &&
      itemsHold (subvalidators members) v &&
      combinatorsHold (subvalidators members) exempt v &&
      conditionalHolds (subvalidators members) exempt v &&
      (refOf members).all fun ref => accepts ref v
  | _, _, _ => false

/-- What the keywords accept. -/
def subvalidators : List (JsString × Json) → Record JsString Subvalidators
  | [] => []
  | (k, s) :: ms => (k, ⟨valid s, validEach s, validNamed s⟩) :: subvalidators ms

/-- What the items of a keyword accept. -/
def validEach : Json → List Validator
  | .arr ss => validItems ss
  | _ => []

/-- What the schemas of a list accept. -/
def validItems : List Json → List Validator
  | [] => []
  | s :: ss => valid s :: validItems ss

/-- What the members of a keyword accept. -/
def validNamed : Json → Record JsString Validator
  | .obj ps => validMembers ps
  | _ => []

/-- What the schemas by name accept. -/
def validMembers : List (JsString × Json) → Record JsString Validator
  | [] => []
  | (k, s) :: ps => (k, valid s) :: validMembers ps

end

/-- The schemas of a combinator. -/
def clausesOf (members : List (JsString × Json)) (name : JsString) : List Json :=
  (Json.items? (keyword members name)).getD []

/-- The schemas by name of a keyword. -/
def schemasOf (members : List (JsString × Json)) (name : JsString) : List (JsString × Json) :=
  membersOf (keyword members name)

/-- What it takes for an object schema to accept a value, keyword by keyword. -/
@[mk_iff]
structure Holds (members : List (JsString × Json)) (exempt : List JsString) (v : Json) :
    Prop where
  asserted : asserts members exempt v = true
  properties : ∀ vs, v = .obj vs → ∀ p ∈ schemasOf members (js "properties"),
    ∀ x, Record.get? vs p.1 = some x → valid accepts p.2 exempt x = true
  additional : ∀ vs, v = .obj vs → ∀ s, keyword members (js "additionalProperties") = some s →
    ∀ m ∈ vs, m.1 ∈ Record.keys (schemasOf members (js "properties")) ∨
      valid accepts s [] m.2 = true
  items : ∀ xs, v = .arr xs → ∀ s, keyword members (js "items") = some s →
    ∀ x ∈ xs, valid accepts s [] x = true
  allOf : ∀ c ∈ clausesOf members (js "allOf"), valid accepts c exempt v = true
  anyOf : ∀ s, keyword members (js "anyOf") = some s →
    ∃ c ∈ clausesOf members (js "anyOf"), valid accepts c [] v = true
  oneOf : ∀ s, keyword members (js "oneOf") = some s →
    (clausesOf members (js "oneOf")).countP (fun c => valid accepts c [] v) = 1
  conditional : ∀ i, keyword members (js "if") = some i → ∀ arm,
    keyword members (if valid accepts i [] v then js "then" else js "else") = some arm →
    valid accepts arm exempt v = true
  ref : ∀ r, refOf members = some r → accepts r v = true

variable {accepts} {members : List (JsString × Json)} {exempt : List JsString} {v : Json}

theorem get?_subvalidators (members : List (JsString × Json)) (name : JsString) :
    Record.get? (subvalidators accepts members) name = (keyword members name).map fun s =>
      ⟨valid accepts s, validEach accepts s, validNamed accepts s⟩ := by
  unfold keyword
  induction members with
  | nil => rw [subvalidators, Record.get?_nil, Record.get?_nil, Option.map_none]
  | cons m ms ih =>
    obtain ⟨k, s⟩ := m
    rw [subvalidators, Record.get?_cons, Record.get?_cons, ih]
    split <;> rfl

theorem validItems_eq (ss : List Json) : validItems accepts ss = ss.map (valid accepts) := by
  induction ss with
  | nil => rw [validItems, List.map_nil]
  | cons s ss ih => rw [validItems, ih, List.map_cons]

theorem validMembers_eq (ps : List (JsString × Json)) :
    validMembers accepts ps = ps.map fun p => (p.1, valid accepts p.2) := by
  induction ps with
  | nil => rw [validMembers, List.map_nil]
  | cons p ps ih =>
    obtain ⟨k, s⟩ := p
    rw [validMembers, ih, List.map_cons]

theorem validEach_eq (s : Json) :
    validEach accepts s = ((Json.items? (some s)).getD []).map (valid accepts) := by
  cases s with
  | arr ss => rw [validEach, validItems_eq, Json.items?, Option.getD_some]
  | _ => simp [validEach, Json.items?]

theorem validNamed_eq (s : Json) :
    validNamed accepts s = (membersOf (some s)).map fun p => (p.1, valid accepts p.2) := by
  cases s with
  | obj ps => rw [validNamed, validMembers_eq, membersOf]
  | _ => simp [validNamed, membersOf]

theorem named_subvalidators (members : List (JsString × Json)) (name : JsString) :
    (Record.get? (subvalidators accepts members) name).elim [] Subvalidators.named =
      (schemasOf members name).map fun p => (p.1, valid accepts p.2) := by
  rw [get?_subvalidators, schemasOf]
  cases keyword members name with
  | none => rfl
  | some s => exact validNamed_eq s

theorem membersHold_iff : membersHold (subvalidators accepts members) exempt v = true ↔
    (∀ vs, v = .obj vs → ∀ p ∈ schemasOf members (js "properties"),
      ∀ x, Record.get? vs p.1 = some x → valid accepts p.2 exempt x = true) ∧
    ∀ vs, v = .obj vs → ∀ s, keyword members (js "additionalProperties") = some s →
      ∀ m ∈ vs, m.1 ∈ Record.keys (schemasOf members (js "properties")) ∨
        valid accepts s [] m.2 = true := by
  cases v with
  | obj vs =>
    simp only [membersHold]
    rw [named_subvalidators, get?_subvalidators, Bool.and_eq_true, List.all_eq_true]
    have hkeys : Record.keys ((schemasOf members (js "properties")).map fun p =>
        (p.1, valid accepts p.2)) = Record.keys (schemasOf members (js "properties")) := by
      simp [Record.keys, Function.comp_def]
    simp only [hkeys, Json.obj.injEq, forall_eq', List.forall_mem_map, Option.all_map,
      Option.all_eq_true, List.all_eq_true, Bool.or_eq_true,
      decide_eq_true_eq]
  | _ => simp [membersHold]

theorem itemsHold_iff : itemsHold (subvalidators accepts members) v = true ↔
    ∀ xs, v = .arr xs → ∀ s, keyword members (js "items") = some s →
      ∀ x ∈ xs, valid accepts s [] x = true := by
  cases v with
  | arr xs => simp [itemsHold, get?_subvalidators, Option.all_map, Option.all_eq_true]
  | _ => simp [itemsHold]

theorem combinatorsHold_iff : combinatorsHold (subvalidators accepts members) exempt v = true ↔
    (∀ c ∈ clausesOf members (js "allOf"), valid accepts c exempt v = true) ∧
    (∀ s, keyword members (js "anyOf") = some s →
      ∃ c ∈ clausesOf members (js "anyOf"), valid accepts c [] v = true) ∧
    ∀ s, keyword members (js "oneOf") = some s →
      (clausesOf members (js "oneOf")).countP (fun c => valid accepts c [] v) = 1 := by
  simp only [combinatorsHold, clausesOf, get?_subvalidators, Bool.and_eq_true, and_assoc]
  refine and_congr ?_ (and_congr ?_ ?_)
  · cases keyword members (js "allOf") <;> simp [validEach_eq, Json.items?]
  · cases keyword members (js "anyOf") <;> simp [validEach_eq]
  · cases keyword members (js "oneOf") <;>
      simp [validEach_eq, List.countP_map, Function.comp_def]

theorem conditionalHolds_iff :
    conditionalHolds (subvalidators accepts members) exempt v = true ↔
      ∀ i, keyword members (js "if") = some i → ∀ arm,
        keyword members (if valid accepts i [] v then js "then" else js "else") = some arm →
        valid accepts arm exempt v = true := by
  simp [conditionalHolds, get?_subvalidators, Option.all_map, Option.all_eq_true]

/-- An object schema accepts what all of its keywords accept. -/
theorem valid_obj_iff : valid accepts (.obj members) exempt v = true ↔
    Holds accepts members exempt v := by
  rw [valid]
  simp only [Bool.and_eq_true, membersHold_iff, itemsHold_iff, combinatorsHold_iff,
    conditionalHolds_iff, Option.all_eq_true]
  constructor
  · rintro ⟨⟨⟨⟨⟨ha, hp, had⟩, hi⟩, hall, hany, hone⟩, hc⟩, hr⟩
    exact ⟨ha, hp, had, hi, hall, hany, hone, hc, hr⟩
  · rintro ⟨ha, hp, had, hi, hall, hany, hone, hc, hr⟩
    exact ⟨⟨⟨⟨⟨ha, hp, had⟩, hi⟩, hall, hany, hone⟩, hc⟩, hr⟩

end Valid

end OpenWop.Schema
