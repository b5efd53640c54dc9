import OpenWop.Js.Stringify
import OpenWop.Schema.Validity

/-!
# The facet schema of a record

`projectV1FacetSchema` turns the schema of a first-version facet into that of a record. It
retires three members, makes what a conditional on `supported` requires required, drops
every clause that mentions `supported` and closes objects. The names of three members are
gone from every `properties` and `required` it descends into.
-/

namespace OpenWop.Schema

open OpenWop.Js

section Projection

/-- The members the record has no place for. -/
def retiredNames : List JsString := [js "supported", js "tier", js "experimentalUntil"]

/-- The name is not retired. -/
def keepsName (k : Json) : Bool := k ∉ retiredNames.map Json.str

/-- `gatesOnSupported`: a test of the text of the node. -/
def gatesOnSupported (node : Option Json) : Bool :=
  includes (node.getD .null).stringify (js "\"supported\"")

/-- `!v`, for a value that may be undefined. -/
def isFalsy : Option Json → Bool
  | none | some .null | some (.bool false) => true
  | some (.num n) => n.unsigned.toNat? = some 0 ∨ n = .nan
  | some (.str s) => s = []
  | _ => false

/-- What the `then` of a conditional on `supported` requires, the retired names aside. -/
def foldedNames (node : Json) : List Json :=
  if gatesOnSupported (node.member? (js "if")) then
    ((Json.items? (Json.read? (node.member? (js "then")) (js "required"))).getD []).filter keepsName
  else []

/-- `foldSupportedGate`. -/
def foldSupportedGate (out : List (JsString × Json)) (node : Json) : List (JsString × Json) :=
  if foldedNames node = [] then out
  else Record.set out (js "required") (.arr
    (uniq (((Json.items? (keyword out (js "required"))).getD []) ++ foldedNames node)))

/-- The retired names leave `required`, and an empty `required` goes. -/
def filterRequired (out : List (JsString × Json)) : List (JsString × Json) :=
  match Json.items? (keyword out (js "required")) with
  | some names =>
    if names.filter keepsName = [] then Record.erase out (js "required")
    else Record.set out (js "required") (.arr (names.filter keepsName))
  | none => out

/-- The gates among the clauses of a combinator are folded. A combinator whose clauses are all
dropped goes. -/
def foldClauses (members out : List (JsString × Json)) (comb : JsString) :
    List (JsString × Json) :=
  match Json.items? (keyword members comb) with
  | some clauses =>
    let out := (clauses.filter fun c => gatesOnSupported (some c)).foldl foldSupportedGate out
    if clauses.all fun c => gatesOnSupported (some c) then Record.erase out comb else out
  | none => out

/-- `delete out.if; delete out.then; delete out.else`. -/
def dropConditional (out : List (JsString × Json)) : List (JsString × Json) :=
  [js "if", js "then", js "else"].foldl Record.erase out

/-- A conditional on `supported` is folded and dropped. -/
def foldConditional (members out : List (JsString × Json)) : List (JsString × Json) :=
  if gatesOnSupported (keyword members (js "if")) then
    dropConditional (foldSupportedGate out (.obj members))
  else out

/-- `isEmpty`. -/
def isEmpty : Option Json → Bool
  | none | some (.obj []) => true
  | _ => false

/-- A conditional without obligations is dropped. -/
def dropEmptyConditional (out : List (JsString × Json)) : List (JsString × Json) :=
  if !isFalsy (keyword out (js "if")) && isEmpty (keyword out (js "then")) &&
      isEmpty (keyword out (js "else")) then
    dropConditional out
  else out

/-- An object that does not say otherwise is closed. -/
def closeObject (out : List (JsString × Json)) : List (JsString × Json) :=
  if keyword out (js "type") = some (.str (js "object")) ∧
      keyword out (js "additionalProperties") = none then
    Record.set out (js "additionalProperties") (.bool false)
  else out

/-- The projection of a schema, from its members and the members with their parts projected. -/
def assemble (members parts : List (JsString × Json)) : List (JsString × Json) :=
  closeObject (dropEmptyConditional (foldConditional members
    ([js "allOf", js "anyOf", js "oneOf"].foldl (foldClauses members) (filterRequired parts))))

/-- `rewriteSupportedProse(unversionManifestSpellings(description))`. -/
def rewriteDescription (rewrite : JsString → JsString) : Json → Json
  | .str s => .str (rewrite s)
  | v => v

variable (rewrite : JsString → JsString)

mutual

/-- `projectV1FacetSchema`, where `rewrite` edits descriptions. -/
def projectV1FacetSchema : Json → Json
  | .obj members => .obj (assemble members (projectParts members))
  | schema => schema

/-- The members with their schemas projected. -/
def projectParts : List (JsString × Json) → List (JsString × Json)
  | [] => []
  | (k, v) :: ms =>
    (k, if k = js "description" then rewriteDescription rewrite v
      else if k = js "properties" then projectProperties v
      else if k ∈ [js "allOf", js "anyOf", js "oneOf"] then projectClauses v
      else if k ∈ [js "if", js "then", js "else"] then projectV1FacetSchema v
      else v) :: projectParts ms

/-- The `properties` that are not retired. -/
def projectProperties : Json → Json
  | .obj ps => .obj (projectMembers ps)
  | v => v

/-- The schemas of the names that are not retired. -/
def projectMembers : List (JsString × Json) → List (JsString × Json)
  | [] => []
  | (k, s) :: ps =>
    if k ∈ retiredNames then projectMembers ps
    else (k, projectV1FacetSchema s) :: projectMembers ps

/-- The clauses that do not mention `supported`. -/
def projectClauses : Json → Json
  | .arr cs => .arr (projectItems cs)
  | v => v

/-- The schemas that do not mention `supported`. -/
def projectItems : List Json → List Json
  | [] => []
  | c :: cs =>
    if gatesOnSupported (some c) then projectItems cs
    else projectV1FacetSchema c :: projectItems cs

end

end Projection

section Keywords

variable {members out : List (JsString × Json)} {k comb : JsString} {node : Json}

theorem keyword_set (out : List (JsString × Json)) (name k : JsString) (v : Json) :
    keyword (Record.set out name v) k = if k = name then some v else keyword out k :=
  Record.get?_set out name k v

theorem keyword_erase (out : List (JsString × Json)) (name k : JsString) :
    keyword (Record.erase out name) k = if k = name then none else keyword out k :=
  Record.get?_erase out name k

theorem keyword_filterRequired (h : k ≠ js "required") :
    keyword (filterRequired out) k = keyword out k := by
  unfold filterRequired
  split
  · split
    · rw [keyword_erase, if_neg h]
    · rw [keyword_set, if_neg h]
  · rfl

theorem keyword_foldSupportedGate (h : k ≠ js "required") :
    keyword (foldSupportedGate out node) k = keyword out k := by
  unfold foldSupportedGate
  split
  · rfl
  · rw [keyword_set, if_neg h]

theorem keyword_foldl_foldSupportedGate (nodes : List Json) (h : k ≠ js "required") :
    keyword (nodes.foldl foldSupportedGate out) k = keyword out k := by
  induction nodes generalizing out with
  | nil => rfl
  | cons node nodes ih => rw [List.foldl_cons, ih, keyword_foldSupportedGate h]

theorem keyword_foldClauses (h : k ≠ js "required") (hc : k ≠ comb) :
    keyword (foldClauses members out comb) k = keyword out k := by
  unfold foldClauses
  split
  · simp only
    split
    · rw [keyword_erase, if_neg hc, keyword_foldl_foldSupportedGate _ h]
    · rw [keyword_foldl_foldSupportedGate _ h]
  · rfl

theorem keyword_foldl_erase (names : List JsString) :
    keyword (names.foldl Record.erase out) k = if k ∈ names then none else keyword out k := by
  induction names generalizing out with
  | nil => rw [List.foldl_nil, if_neg List.not_mem_nil]
  | cons name names ih =>
    rw [List.foldl_cons, ih, keyword_erase]
    by_cases hk : k ∈ names
    · rw [if_pos hk, if_pos (List.mem_cons_of_mem _ hk)]
    · rw [if_neg hk]
      by_cases he : k = name
      · rw [if_pos he, if_pos (List.mem_cons.mpr (Or.inl he))]
      · rw [if_neg he, if_neg (List.not_mem_cons_of_ne_of_not_mem he hk)]

theorem keyword_dropConditional : keyword (dropConditional out) k =
    if k ∈ [js "if", js "then", js "else"] then none else keyword out k :=
  keyword_foldl_erase _

theorem keyword_foldConditional (h : k ≠ js "required")
    (hc : k ∉ [js "if", js "then", js "else"]) :
    keyword (foldConditional members out) k = keyword out k := by
  unfold foldConditional
  split
  · rw [keyword_dropConditional, if_neg hc, keyword_foldSupportedGate h]
  · rfl

theorem keyword_dropEmptyConditional (hc : k ∉ [js "if", js "then", js "else"]) :
    keyword (dropEmptyConditional out) k = keyword out k := by
  unfold dropEmptyConditional
  split
  · rw [keyword_dropConditional, if_neg hc]
  · rfl

theorem keyword_closeObject (h : k ≠ js "additionalProperties") :
    keyword (closeObject out) k = keyword out k := by
  unfold closeObject
  split
  · rw [keyword_set, if_neg h]
  · rfl

/-- The keywords a projection can change by itself. -/
def assembledKeywords : List JsString :=
  [js "required", js "allOf", js "anyOf", js "oneOf", js "if", js "then", js "else",
    js "additionalProperties"]

theorem keyword_assemble {parts : List (JsString × Json)} (h : k ∉ assembledKeywords) :
    keyword (assemble members parts) k = keyword parts k := by
  simp only [assembledKeywords, List.mem_cons, List.not_mem_nil, or_false, not_or] at h
  obtain ⟨hreq, hall, hany, hone, hif, hthen, helse, hadd⟩ := h
  have hcond : k ∉ [js "if", js "then", js "else"] := by simp [hif, hthen, helse]
  rw [assemble, keyword_closeObject hadd, keyword_dropEmptyConditional hcond,
    keyword_foldConditional hreq hcond]
  simp only [List.foldl_cons, List.foldl_nil]
  rw [keyword_foldClauses hreq hone, keyword_foldClauses hreq hany, keyword_foldClauses hreq hall,
    keyword_filterRequired hreq]

theorem keyword_foldl_foldClauses {combs : List JsString} {parts : List (JsString × Json)}
    (h : k ≠ js "required") (hc : k ∉ combs) :
    keyword (combs.foldl (foldClauses members) parts) k = keyword parts k := by
  induction combs generalizing parts with
  | nil => rfl
  | cons comb combs ih =>
    rw [List.mem_cons, not_or] at hc
    rw [List.foldl_cons, ih hc.2, keyword_foldClauses h hc.1]

theorem keyword_assemble_additional {parts : List (JsString × Json)} :
    keyword (assemble members parts) (js "additionalProperties") =
      if keyword parts (js "type") = some (.str (js "object")) ∧
          keyword parts (js "additionalProperties") = none then some (.bool false)
      else keyword parts (js "additionalProperties") := by
  have hpre : ∀ k, k ≠ js "required" → k ∉ [js "if", js "then", js "else"] →
      k ∉ [js "allOf", js "anyOf", js "oneOf"] →
      keyword (dropEmptyConditional (foldConditional members
        ([js "allOf", js "anyOf", js "oneOf"].foldl (foldClauses members)
          (filterRequired parts)))) k = keyword parts k := by
    intro k hreq hcond hcomb
    rw [keyword_dropEmptyConditional hcond, keyword_foldConditional hreq hcond,
      keyword_foldl_foldClauses hreq hcomb, keyword_filterRequired hreq]
  rw [assemble, closeObject, hpre _ (by decide) (by decide) (by decide),
    hpre _ (by decide) (by decide) (by decide)]
  split
  · rw [keyword_set, if_pos rfl]
  · rw [hpre _ (by decide) (by decide) (by decide)]

end Keywords

section Parts

variable {rewrite : JsString → JsString} {members : List (JsString × Json)} {k : JsString}

/-- The projection of the value of a keyword. -/
def projectPart (rewrite : JsString → JsString) (k : JsString) (v : Json) : Json :=
  if k = js "description" then rewriteDescription rewrite v
  else if k = js "properties" then projectProperties rewrite v
  else if k ∈ [js "allOf", js "anyOf", js "oneOf"] then projectClauses rewrite v
  else if k ∈ [js "if", js "then", js "else"] then projectV1FacetSchema rewrite v
  else v

/-- The members of the projection of an object schema. -/
def projected (rewrite : JsString → JsString) (members : List (JsString × Json)) :
    List (JsString × Json) :=
  assemble members (projectParts rewrite members)

theorem keyword_projectParts :
    keyword (projectParts rewrite members) k = (keyword members k).map (projectPart rewrite k) := by
  unfold keyword
  induction members with
  | nil => rw [projectParts, Record.get?_nil, Option.map_none]
  | cons m ms ih =>
    obtain ⟨name, v⟩ := m
    rw [projectParts, ← projectPart, Record.get?_cons, Record.get?_cons, ih]
    by_cases h : name = k
    · rw [if_pos h, if_pos h, Option.map_some, h]
    · rw [if_neg h, if_neg h]

theorem projectMembers_eq (ps : List (JsString × Json)) : projectMembers rewrite ps =
    (ps.filter fun p => p.1 ∉ retiredNames).map fun p =>
      (p.1, projectV1FacetSchema rewrite p.2) := by
  induction ps with
  | nil => rw [projectMembers]; rfl
  | cons p ps ih =>
    obtain ⟨name, s⟩ := p
    rw [projectMembers, List.filter_cons, ih]
    by_cases h : name ∈ retiredNames <;> simp [h]

/-- The keywords a projection keeps as they are. -/
theorem keyword_projected (h : k ∉ assembledKeywords) (hd : k ≠ js "description")
    (hp : k ≠ js "properties") : keyword (projected rewrite members) k = keyword members k := by
  rw [projected, keyword_assemble h, keyword_projectParts]
  have hpart : projectPart rewrite k = id := by
    funext v
    have hall : ∀ c ∈ [js "allOf", js "anyOf", js "oneOf"], c ∈ assembledKeywords := by decide
    have hif : ∀ c ∈ [js "if", js "then", js "else"], c ∈ assembledKeywords := by decide
    have hcomb : k ∉ [js "allOf", js "anyOf", js "oneOf"] := fun hk => h (hall k hk)
    have hcond : k ∉ [js "if", js "then", js "else"] := fun hk => h (hif k hk)
    rw [projectPart, if_neg hd, if_neg hp, if_neg hcomb, if_neg hcond, id]
  rw [hpart, Option.map_id, id]

theorem schemasOf_projected : schemasOf (projected rewrite members) (js "properties") =
    ((schemasOf members (js "properties")).filter fun p => p.1 ∉ retiredNames).map fun p =>
      (p.1, projectV1FacetSchema rewrite p.2) := by
  rw [schemasOf, projected, keyword_assemble (by decide), keyword_projectParts, schemasOf]
  cases keyword members (js "properties") with
  | none => rfl
  | some v =>
    have hpart : projectPart rewrite (js "properties") v = projectProperties rewrite v := by
      rw [projectPart, if_neg (by decide), if_pos rfl]
    rw [Option.map_some, hpart]
    cases v with
    | obj ps => rw [projectProperties, membersOf, membersOf, projectMembers_eq]
    | _ => simp [projectProperties, membersOf]

theorem keyword_projected_additional :
    keyword (projected rewrite members) (js "additionalProperties") =
      if keyword members (js "type") = some (.str (js "object")) ∧
          keyword members (js "additionalProperties") = none then some (.bool false)
      else keyword members (js "additionalProperties") := by
  have hpart : ∀ k ∈ [js "type", js "additionalProperties"], projectPart rewrite k = id := by
    intro k hk
    have hne : ∀ c ∈ [js "type", js "additionalProperties"], c ≠ js "description" ∧
        c ≠ js "properties" ∧ c ∉ [js "allOf", js "anyOf", js "oneOf"] ∧
        c ∉ [js "if", js "then", js "else"] := by decide
    obtain ⟨hd, hp, hcomb, hcond⟩ := hne k hk
    funext v
    rw [projectPart, if_neg hd, if_neg hp, if_neg hcomb, if_neg hcond, id]
  rw [projected, keyword_assemble_additional, keyword_projectParts, keyword_projectParts,
    hpart _ (by decide), hpart _ (by decide), Option.map_id, id, id]

end Parts

end OpenWop.Schema
