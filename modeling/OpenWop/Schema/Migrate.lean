import OpenWop.Schema.Project

/-!
# What survives the projection of a facet

A document of the record stands for the facet of the first version with `supported: true`.
The projection keeps an obligation when the clause that carries it is not dropped, or
asks for members only, and when what selects it reads the same before and after. The
conditions on a schema are collected as `Migrated`.
-/

namespace OpenWop.Schema

open OpenWop.Js

section Documents

/-- The names no document of the second version has to give: the record says them otherwise. -/
def exemptNames : List JsString := [js "tier", js "experimentalUntil"]

/-- How a document of the second version relates to one of the first, at a place of it. -/
inductive Mode where
  /-- The facet itself: without retired members, and then with `supported: true`. -/
  | flagged
  /-- An object that has no retired member. -/
  | bare
  /-- Any value. -/
  | any
  deriving DecidableEq, Repr

/-- The document of the first version that a document of the second stands for. -/
def Mode.Fits (mode : Mode) (v w : Json) : Prop :=
  match mode with
  | .flagged => ∃ vs, v = .obj vs ∧ (∀ k ∈ retiredNames, k ∉ Record.keys vs) ∧
      w = .obj (Record.set vs (js "supported") (.bool true))
  | .bare => w = v ∧ ∃ vs, v = .obj vs ∧ ∀ k ∈ retiredNames, k ∉ Record.keys vs
  | .any => w = v

variable {mode : Mode} {v w : Json} {k : JsString} {vs ws : List (JsString × Json)}

/-- Both documents are objects, or they are the same value. -/
theorem Mode.Fits.cases (h : mode.Fits v w) :
    (mode = .flagged ∧ ∃ vs, v = .obj vs ∧ w = .obj (Record.set vs (js "supported") (.bool true))) ∨
      (mode ≠ .flagged ∧ w = v) := by
  cases mode with
  | flagged =>
    obtain ⟨vs, hv, -, hw⟩ := h
    exact Or.inl ⟨rfl, vs, hv, hw⟩
  | bare => exact Or.inr ⟨by decide, h.1⟩
  | any => exact Or.inr ⟨by decide, h⟩

theorem Mode.Fits.keys_subset (h : mode.Fits (.obj vs) (.obj ws)) (hk : k ∈ Record.keys vs) :
    k ∈ Record.keys ws := by
  obtain ⟨-, us, hu, hw⟩ | ⟨-, hw⟩ := h.cases
  · cases hu
    cases hw
    exact (Record.mem_keys_set _).mpr (Or.inr hk)
  · cases hw
    exact hk

theorem Mode.Fits.hasType_eq (h : mode.Fits v w) (name : JsString) :
    hasType w name = hasType v name := by
  obtain ⟨-, vs, hv, hw⟩ | ⟨-, hw⟩ := h.cases
  · cases hv
    cases hw
    rfl
  · rw [hw]

end Documents

section Conditions

/-- The schema of an object that takes no member it does not name. -/
def Closes (members : List (JsString × Json)) : Prop :=
  keyword members (js "type") = some (.str (js "object")) ∧
    (keyword members (js "additionalProperties") = none ∨
      keyword members (js "additionalProperties") = some (.bool false))

instance (members : List (JsString × Json)) : Decidable (Closes members) :=
  inferInstanceAs (Decidable (_ ∧ _))

/-- A closed object has no retired member. -/
def Mode.inner (mode : Mode) (members : List (JsString × Json)) : Mode :=
  if mode = .any ∧ Closes members then .bare else mode

/-- A selector that reads the same in both versions: it names no retired member, closes no object
silently and, at the facet itself, does not look at other members. -/
inductive Plain : Mode → Json → Prop
  | other {mode : Mode} {schema : Json} (h : ∀ members, schema ≠ .obj members) : Plain mode schema
  | object {mode : Mode} {members : List (JsString × Json)}
      (keywords : ∀ name ∈ [js "anyOf", js "oneOf", js "if", js "then", js "else", js "$ref"],
        keyword members name = none)
      (stated : keyword members (js "type") = some (.str (js "object")) →
        keyword members (js "additionalProperties") ≠ none)
      (open_ : mode = .flagged → (keyword members (js "additionalProperties")).all
        (fun s => s = .bool true) = true ∧ keyword members (js "enum") = none ∧
        keyword members (js "const") = none)
      (names : ∀ k ∈ retiredNames, k ∉ Record.keys (schemasOf members (js "properties")) ∧
        .str k ∉ requiredItems members)
      (properties : ∀ p ∈ schemasOf members (js "properties"), Plain .any p.2)
      (ungated : ∀ c ∈ clausesOf members (js "allOf"), gatesOnSupported (some c) = false)
      (clauses : ∀ c ∈ clausesOf members (js "allOf"), Plain mode c) :
      Plain mode (.obj members)

variable (accepts : JsString → Json → Bool)

end Conditions

section Selectors

variable {accepts : JsString → Json → Bool} {rewrite : JsString → JsString} {mode : Mode}
  {members : List (JsString × Json)} {exempt : List JsString} {v w : Json}

theorem keyword_fixed {k : JsString}
    (hk : k ∈ [js "type", js "enum", js "const", js "minItems", js "items", js "$ref"]) :
    keyword (projected rewrite members) k = keyword members k := by
  have hall : ∀ c ∈ [js "type", js "enum", js "const", js "minItems", js "items", js "$ref"],
      c ∉ assembledKeywords ∧ c ≠ js "description" ∧ c ≠ js "properties" := by decide
  obtain ⟨ha, hd, hp⟩ := hall k hk
  exact keyword_projected ha hd hp

theorem typeHolds_projected (hfits : mode.Fits v w) :
    typeHolds (projected rewrite members) v = typeHolds members w :=
  typeHolds_congr (keyword_fixed (by decide)) fun name => (hfits.hasType_eq name).symm

end Selectors

section Main

variable {accepts : JsString → Json → Bool} {rewrite : JsString → JsString} {mode : Mode}
  {members vs ws : List (JsString × Json)} {v w : Json}

theorem mem_keys_projected {k : JsString} :
    k ∈ Record.keys (schemasOf (projected rewrite members) (js "properties")) ↔
      k ∈ Record.keys (schemasOf members (js "properties")) ∧ k ∉ retiredNames := by
  rw [schemasOf_projected]
  simp only [Record.keys, List.map_map, List.mem_map, List.mem_filter, decide_eq_true_eq,
    Function.comp_apply]
  constructor
  · rintro ⟨p, ⟨hp, hr⟩, rfl⟩
    exact ⟨⟨p, hp, rfl⟩, hr⟩
  · rintro ⟨⟨p, hp, rfl⟩, hr⟩
    exact ⟨p, ⟨hp, hr⟩, rfl⟩

/-- A document the projection accepts fits the inner mode too. -/
theorem Mode.Fits.inner (hfits : mode.Fits v w)
    (hv : Holds accepts (projected rewrite members) [] v) : (mode.inner members).Fits v w := by
  unfold Mode.inner
  split
  · next hmode =>
    obtain ⟨rfl, htype, hclosed⟩ := hmode
    refine ⟨hfits, ?_⟩
    have hobj : hasType v (js "object") = true := by
      have h := (asserts_iff.mp hv.asserted).1
      rw [typeHolds_projected hfits, show w = v from hfits] at h
      simpa [typeHolds, typeNames, htype, Json.text] using h
    obtain ⟨vs, rfl⟩ := exists_of_hasType_object hobj
    refine ⟨vs, rfl, ?_⟩
    intro k hk hmem
    obtain ⟨m, hm, rfl⟩ := List.mem_map.mp hmem
    have hadd : keyword (projected rewrite members) (js "additionalProperties") =
        some (.bool false) := by
      rw [keyword_projected_additional]
      obtain hnone | hfalse := hclosed
      · rw [if_pos ⟨htype, hnone⟩]
      · rw [if_neg (by simp [hfalse]), hfalse]
    obtain hnamed | hvalid := hv.additional vs rfl _ hadd m hm
    · exact (mem_keys_projected.mp hnamed).2 hk
    · rw [valid] at hvalid
      cases hvalid
  · exact hfits

/-- What is required is there, when the document of the second version has all of it but the
retired names. -/
theorem Mode.Fits.requiredHolds (hfits : mode.Fits v w)
    (hflag : .str (js "supported") ∈ requiredItems members → mode = .flagged)
    (hkeys : ∀ vs, v = .obj vs → ∀ k, .str k ∈ requiredItems members → k ∉ retiredNames →
      k ∈ Record.keys vs) : requiredHolds members exemptNames w = true := by
  rw [requiredHolds_iff]
  intro ws hws k hk
  by_cases hexempt : k ∈ exemptNames
  · exact Or.inl hexempt
  right
  by_cases hsupported : k = js "supported"
  · subst hsupported
    obtain ⟨-, vs, -, hw⟩ | ⟨hne, -⟩ := hfits.cases
    · rw [hws, Json.obj.injEq] at hw
      rw [hw, Record.mem_keys_set]
      exact Or.inl rfl
    · exact absurd (hflag hk) hne
  · have hr : k ∉ retiredNames := by
      intro hr
      obtain he | hr := List.mem_cons.mp hr
      · exact hsupported he
      · exact hexempt hr
    subst hws
    obtain ⟨-, vs, rfl, -⟩ | ⟨-, hw⟩ := hfits.cases
    · exact hfits.keys_subset (hkeys vs rfl k hk hr)
    · exact hkeys ws hw.symm k hk hr

end Main

section Facets

variable {accepts : JsString → Json → Bool} {schema : Json}

end Facets

end OpenWop.Schema
