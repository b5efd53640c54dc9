import OpenWop.Schema.Validity

/-!
# Schemas with references

A reference accepts what its target accepts. The number of references that may be
followed is bounded, and a document is valid when every large enough bound accepts it. A
node settles on the first node without a reference that its references lead to.
-/

namespace OpenWop.Schema

open OpenWop.Js

section Targets

/-- The node a reference of a schema leads to. -/
def targetOf (root : Json) (ref : JsString) : Option Json :=
  if ref = js "#" then some root else resolvePointer root ref

/-- What a reference accepts, when so many references may be followed. -/
def acceptsRef (root : Json) : Nat → JsString → Json → Bool
  | 0, _, _ => false
  | bound + 1, ref, v =>
    match targetOf root ref with
    | some target => valid (acceptsRef root bound) target [] v
    | none => false

/-- The node of a schema accepts the document. -/
def ValidAt (root node v : Json) : Prop :=
  ∃ least, ∀ bound, least ≤ bound → valid (acceptsRef root bound) node [] v = true

/-- The schema accepts the document. -/
def Valid (root v : Json) : Prop := ValidAt root root v

/-- The keywords that stand for something beside a reference. -/
def siblingKeywords : List JsString :=
  [js "type", js "enum", js "const", js "required", js "minItems", js "properties",
    js "additionalProperties", js "items", js "allOf", js "anyOf", js "oneOf", js "if"]

/-- A node with nothing beside its reference. -/
def Lone (members : List (JsString × Json)) : Prop :=
  ∀ k ∈ siblingKeywords, keyword members k = none

/-- The node without a reference that the references of a node lead to. -/
inductive Settles (root : Json) : Json → List (JsString × Json) → Prop
  | here {members : List (JsString × Json)} (h : refOf members = none) :
      Settles root (.obj members) members
  | ref {members settled : List (JsString × Json)} {ref : JsString} {target : Json}
      (href : refOf members = some ref) (hlone : Lone members)
      (htarget : targetOf root ref = some target) (h : Settles root target settled) :
      Settles root (.obj members) settled

variable {root node v : Json} {members settled settled' : List (JsString × Json)}
  {bound : Nat}

/-- A node settles on one node. -/
theorem Settles.unique (h : Settles root node settled) (h' : Settles root node settled') :
    settled = settled' := by
  induction h with
  | here hnone =>
    cases h' with
    | here => rfl
    | ref href => exact absurd (hnone.symm.trans href) (Option.some_ne_none _).symm
  | ref href _ htarget _ ih =>
    cases h' with
    | here hnone => exact absurd (hnone.symm.trans href) (Option.some_ne_none _).symm
    | ref href' _ htarget' h' =>
      obtain rfl := Option.some.inj (href.symm.trans href')
      obtain rfl := Option.some.inj (htarget.symm.trans htarget')
      exact ih h'

theorem targetOf_of_resolvePointer {ref : JsString} {target : Json}
    (h : resolvePointer root ref = some target) : targetOf root ref = some target := by
  rw [targetOf, if_neg, h]
  rintro rfl
  rw [resolvePointer, if_neg (by decide)] at h
  cases h

/-- A lone reference accepts what its target accepts. -/
theorem valid_lone (hlone : Lone members) {ref : JsString} (href : refOf members = some ref)
    {accepts : JsString → Json → Bool} :
    valid accepts (.obj members) [] v = true ↔ accepts ref v = true := by
  rw [valid_obj_iff]
  refine ⟨fun h => h.ref ref href, fun h => ?_⟩
  have hmin : minItemsHolds members v = true := by
    unfold minItemsHolds
    rw [hlone (js "minItems") (by decide)]
    cases v <;> rfl
  have hreq : requiredHolds members [] v = true := by
    rw [requiredHolds_iff, requiredItems, hlone (js "required") (by decide)]
    rintro _ _ _ ⟨⟩
  exact {
    asserted := by
      simp [asserts, typeHolds, enumHolds, constHolds, hlone (js "type") (by decide),
        hlone (js "enum") (by decide), hlone (js "const") (by decide), hreq, hmin, Json.items?]
    properties := by simp [schemasOf, hlone (js "properties") (by decide), membersOf]
    additional := by simp [hlone (js "additionalProperties") (by decide)]
    items := by simp [hlone (js "items") (by decide)]
    allOf := by simp [clausesOf, hlone (js "allOf") (by decide), Json.items?]
    anyOf := by simp [hlone (js "anyOf") (by decide)]
    oneOf := by simp [hlone (js "oneOf") (by decide)]
    conditional := by simp [hlone (js "if") (by decide)]
    ref := fun r hr => by rwa [← Option.some.inj (href.symm.trans hr)] }

/-- What a node accepts, the node it settles on accepts, with fewer references to follow. -/
theorem Settles.accepts (h : Settles root node settled)
    (hv : valid (acceptsRef root bound) node [] v = true) :
    ∃ bound', valid (acceptsRef root bound') (.obj settled) [] v = true := by
  induction h generalizing bound with
  | here => exact ⟨bound, hv⟩
  | ref href hlone htarget _ ih =>
    rw [valid_lone hlone href] at hv
    cases bound with
    | zero => cases hv
    | succ bound =>
      rw [acceptsRef, htarget] at hv
      exact ih hv

end Targets

end OpenWop.Schema
