import OpenWop.Otlp.Collector

/-!
# Payloads of the expected form

A payload whose lists are lists, whose keys are strings and whose values have the form of
their variant is walked to its end, and what it pushes is read off it level by level. What
the protobuf decoders return has that form.
-/

namespace OpenWop.Otlp

open OpenWop.Js

section Forms

/-- The items of a list that may be absent. -/
def itemsOf (v : Option Json) : List Json := (Json.items? v).getD []

/-- The items of the member with that name. -/
def itemsAt (v : Json) (name : JsString) : List Json := itemsOf (v.member? name)

/-- The items two members below. -/
def nestedItems (v : Json) (name inner : JsString) : List Json :=
  ((v.member? name).map (itemsAt · inner)).getD []

/-- A list of values of a form, or no list. -/
def IsListOf (form : Json → Prop) (v : Option Json) : Prop :=
  Json.isNullish v = true ∨ ∃ items, v = some (.arr items) ∧ ∀ w ∈ items, form w

/-- An object, or nothing. -/
def IsObjectOrNone (form : Json → Prop) (v : Option Json) : Prop :=
  Json.isNullish v = true ∨ ∃ members, v = some (.obj members) ∧ form (.obj members)

/-- An attribute value: its array, if it has one, is an object with a list of values, and its
key-value list one with a list of keys and values. -/
inductive WellFormedAny : Json → Prop where
  | mk {members} :
      (Record.get? members (js "arrayValue") = none ∨ ∃ ms,
        Record.get? members (js "arrayValue") = some (.obj ms) ∧
          (Json.isNullish (Record.get? ms (js "values")) = true ∨
            ∃ items, Record.get? ms (js "values") = some (.arr items))) →
      (∀ w ∈ nestedItems (.obj members) (js "arrayValue") (js "values"), WellFormedAny w) →
      WellFormedAny (.obj members)

/-- An attribute: a key that is a string, and a value if there is one. -/
def WellFormedAttribute (a : Json) : Prop :=
  (∃ key, a.member? (js "key") = some (.str key)) ∧
    ∀ v, a.member? (js "value") = some v → WellFormedAny v

def WellFormedAttributes : Option Json → Prop := IsListOf WellFormedAttribute

/-- A text, or none. -/
def IsText (v : Option Json) : Prop := v = none ∨ ∃ s, v = some (.str s)

structure WellFormedSpan (sp : Json) : Prop where
  isObject : ∃ members, sp = .obj members
  name : IsText (sp.member? (js "name"))
  attributes : WellFormedAttributes (sp.member? (js "attributes"))

structure WellFormedScopeSpans (s : Json) : Prop where
  isObject : ∃ members, s = .obj members
  spans : IsListOf WellFormedSpan (s.member? (js "spans"))

/-- A resource has well-formed attributes. -/
def WellFormedResource (v : Json) : Prop := WellFormedAttributes (v.member? (js "attributes"))

structure WellFormedResourceSpans (r : Json) : Prop where
  isObject : ∃ members, r = .obj members
  resource : IsObjectOrNone WellFormedResource (r.member? (js "resource"))
  scopeSpans : IsListOf WellFormedScopeSpans (r.member? (js "scopeSpans"))

/-- A trace export. -/
structure WellFormedTraces (payload : Json) : Prop where
  isObject : ∃ members, payload = .obj members
  resourceSpans : IsListOf WellFormedResourceSpans (payload.member? (js "resourceSpans"))

structure WellFormedDataPoint (v : Json) : Prop where
  isObject : ∃ members, v = .obj members
  attributes : WellFormedAttributes (v.member? (js "attributes"))

/-- The data of a metric, of any kind. -/
def WellFormedData (v : Json) : Prop := IsListOf WellFormedDataPoint (v.member? (js "dataPoints"))

structure WellFormedMetric (m : Json) : Prop where
  isObject : ∃ members, m = .obj members
  data : ∀ kind : MetricKind, IsObjectOrNone WellFormedData (m.member? kind.slot)

structure WellFormedScopeMetrics (s : Json) : Prop where
  isObject : ∃ members, s = .obj members
  metrics : IsListOf WellFormedMetric (s.member? (js "metrics"))

structure WellFormedResourceMetrics (r : Json) : Prop where
  isObject : ∃ members, r = .obj members
  resource : IsObjectOrNone WellFormedResource (r.member? (js "resource"))
  scopeMetrics : IsListOf WellFormedScopeMetrics (r.member? (js "scopeMetrics"))

/-- A metric export. -/
structure WellFormedMetrics (payload : Json) : Prop where
  isObject : ∃ members, payload = .obj members
  resourceMetrics : IsListOf WellFormedResourceMetrics (payload.member? (js "resourceMetrics"))

end Forms

section Walks

variable {α β : Type}

namespace Pushed

theorem each_of_completed {f : α → Pushed β} {g : α → List β} {l : List α}
    (h : ∀ a ∈ l, f a = ⟨g a, true⟩) : each f l = ⟨l.flatMap g, true⟩ := by
  induction l with
  | nil => rfl
  | cons a l ih =>
    rw [List.forall_mem_cons] at h
    rw [each, h.1, if_pos rfl, ih h.2, List.flatMap_cons]

end Pushed

theorem isNullish_iff {v : Option Json} : Json.isNullish v = true ↔ v = none ∨ v = some .null := by
  cases v with
  | none => simp [Json.isNullish]
  | some w => cases w <;> simp [Json.isNullish]

theorem itemsOf_nullish {v : Option Json} (h : Json.isNullish v = true) : itemsOf v = [] := by
  obtain rfl | rfl := isNullish_iff.mp h <;> rfl

theorem iterateOrEmpty_of_isListOf {form : Json → Prop} {v : Option Json} (h : IsListOf form v) :
    iterateOrEmpty v = some (itemsOf v) ∧ ∀ w ∈ itemsOf v, form w := by
  obtain h | ⟨items, rfl, h⟩ := h
  · rw [iterateOrEmpty, if_pos h, itemsOf_nullish h]
    exact ⟨rfl, by simp⟩
  · exact ⟨rfl, h⟩

theorem listOf_of_isListOf {form : Json → Prop} {v : Json} {name : JsString}
    (hobj : ∃ members, v = .obj members) (h : IsListOf form (v.member? name)) :
    listOf v name = some (itemsAt v name) ∧ ∀ w ∈ itemsAt v name, form w := by
  obtain ⟨members, rfl⟩ := hobj
  obtain ⟨hi, hall⟩ := iterateOrEmpty_of_isListOf h
  exact ⟨hi, hall⟩

theorem arrayShape_ne_throws {members : List (JsString × Json)}
    (h : WellFormedAny (.obj members)) :
    arrayShape (Record.get? members (js "arrayValue")) ≠ .throws := by
  obtain ⟨h, _⟩ := h
  obtain h | ⟨ms, h, hn | ⟨items, hi⟩⟩ := h
  · rw [h]
    rintro ⟨⟩
  · rw [h, arrayShape]
    obtain hv | hv := isNullish_iff.mp hn <;> rw [hv] <;> rintro ⟨⟩
  · rw [h, arrayShape, hi]
    rintro ⟨⟩

theorem attrShape_ne_throws {v : Json} (h : WellFormedAny v) : attrShape v ≠ .throws := by
  obtain ⟨members, rfl⟩ : ∃ members, v = .obj members := by
    cases h
    exact ⟨_, rfl⟩
  unfold attrShape
  split
  · exact nofun
  split
  · exact nofun
  · exact nofun
  split
  · exact nofun
  split
  · exact nofun
  · exact arrayShape_ne_throws h

theorem wellFormed_item {v w : Json} {items : List Json} (h : WellFormedAny v)
    (hs : attrShape v = .array items) (hw : w ∈ items) : WellFormedAny w := by
  obtain ⟨_, hitems⟩ := h
  obtain rfl | ⟨a, ha, hv⟩ := attrShape_array hs
  · simp at hw
  · refine hitems w ?_
    rw [nestedItems, ha, Option.map_some, Option.getD_some, itemsAt, hv]
    exact hw

/-- The items of an array value are decoded one by one. -/
theorem decodeAttrValue_array {v : Json} {items : List Json} (h : attrShape v = .array items) :
    decodeAttrValue v = (items.mapM decodeAttrValue).map .arr := by
  rw [decodeAttrValue]
  split
  · next hs => cases h.symm.trans hs
  · next items' hs =>
    cases h.symm.trans hs
    rw [List.mapM_subtype (fun _ _ => rfl), List.unattach_attach]
  · next hs => cases h.symm.trans hs
  · next hs => cases h.symm.trans hs

theorem decodeAttrValue_primitive {v w : Json} (h : attrShape v = .primitive w) :
    decodeAttrValue v = some w := by
  rw [decodeAttrValue]
  split
  · next hs =>
    cases h.symm.trans hs
    rfl
  · next hs => cases h.symm.trans hs
  · next hs => cases h.symm.trans hs
  · next hs => cases h.symm.trans hs

theorem decodeAttrValue_unrecognized {v : Json} (h : attrShape v = .unrecognized) :
    decodeAttrValue v = some .null := by
  rw [decodeAttrValue]
  split
  · next hs => cases h.symm.trans hs
  · next hs => cases h.symm.trans hs
  · rfl
  · next hs => cases h.symm.trans hs

end Walks

section Attributes

theorem mapM_of_forall {α β : Type} {f : α → Option β} {l : List α}
    (h : ∀ a ∈ l, ∃ b, f a = some b) : ∃ bs, l.mapM f = some bs := by
  induction l with
  | nil => exact ⟨[], rfl⟩
  | cons a l ih =>
    rw [List.forall_mem_cons] at h
    obtain ⟨b, hb⟩ := h.1
    obtain ⟨bs, hbs⟩ := ih h.2
    exact ⟨b :: bs, by simp [List.mapM_cons, hb, hbs]⟩

/-- A value of the expected form is decoded, at any depth. -/
theorem decodeAttrValue_of_wellFormed {v : Json} (h : WellFormedAny v) :
    ∃ w, decodeAttrValue v = some w := by
  induction h with
  | mk ha hitems ih =>
    have hwf := WellFormedAny.mk ha hitems
    cases hs : attrShape _ with
    | primitive w => exact ⟨w, decodeAttrValue_primitive hs⟩
    | array items =>
      have hdecode : ∀ w ∈ items, ∃ x, decodeAttrValue w = some x := by
        intro w hw
        obtain rfl | ⟨a, haa, hv⟩ := attrShape_array hs
        · simp at hw
        · refine ih w ?_
          rw [nestedItems, haa, Option.map_some, Option.getD_some, itemsAt, hv]
          exact hw
      obtain ⟨ws, hws⟩ := mapM_of_forall hdecode
      exact ⟨.arr ws, by rw [decodeAttrValue_array hs, hws]; rfl⟩
    | unrecognized => exact ⟨.null, decodeAttrValue_unrecognized hs⟩
    | throws => exact absurd hs (attrShape_ne_throws hwf)

/-- The key of an attribute. -/
def keyOf (a : Json) : JsString := (stringOf (a.member? (js "key"))).getD []

/-- The decoded value of an attribute. -/
def decodedOf (a : Json) : Json := ((a.member? (js "value")).bind decodeAttrValue).getD .null

/-- The attributes of a list, the last value of each key. -/
def attributesOf (attrs : Option Json) : Attributes :=
  (itemsOf attrs).foldl (fun out a => out.set (keyOf a) (decodedOf a)) Map.empty

theorem setAttribute_of_wellFormed {a : Json} (h : WellFormedAttribute a) (out : Attributes) :
    setAttribute out a = some (out.set (keyOf a) (decodedOf a)) := by
  obtain ⟨⟨key, hkey⟩, hvalue⟩ := h
  obtain ⟨members, rfl⟩ : ∃ members, a = .obj members := by
    cases a with
    | obj members => exact ⟨members, rfl⟩
    | _ => cases hkey
  have hk : keyOf (.obj members) = key := by rw [keyOf, hkey]; rfl
  have hprop : prop (.obj members) (js "key") = some (some (.str key)) := congrArg some hkey
  rw [setAttribute, hprop, hk, decodedOf]
  cases hv : Json.member? (.obj members) (js "value") with
  | none => rfl
  | some v =>
    obtain ⟨w, hw⟩ := decodeAttrValue_of_wellFormed (hvalue v hv)
    simp [hw]

theorem decodeAttributes_of_wellFormed {attrs : Option Json} (h : WellFormedAttributes attrs) :
    decodeAttributes attrs = some (attributesOf attrs) := by
  have hfold : ∀ items : List Json, (∀ a ∈ items, WellFormedAttribute a) → ∀ out : Attributes,
      items.foldlM setAttribute out =
        some (items.foldl (fun out a => out.set (keyOf a) (decodedOf a)) out) := by
    intro items
    induction items with
    | nil => exact fun _ _ => rfl
    | cons a items ih =>
      intro hall out
      rw [List.forall_mem_cons] at hall
      rw [List.foldlM_cons, setAttribute_of_wellFormed hall.1, List.foldl_cons]
      exact ih hall.2 _
  obtain hn | ⟨items, rfl, hall⟩ := h
  · rw [attributesOf, itemsOf_nullish hn]
    obtain rfl | rfl := isNullish_iff.mp hn <;> rfl
  · exact hfold items hall Map.empty

end Attributes

section Captures

variable {payload : Json}

/-- What is recorded of a span. -/
def spanOf (resourceAttributes : Attributes) (sp : Json) : CapturedSpan where
  traceId := textOr [] (sp.member? (js "traceId"))
  spanId := textOr [] (sp.member? (js "spanId"))
  parentSpanId :=
    if truthy (sp.member? (js "parentSpanId")) then
      some (textOr [] (sp.member? (js "parentSpanId")))
    else none
  name := textOr [] (sp.member? (js "name"))
  startTimeUnixNano := textOr (js "0") (sp.member? (js "startTimeUnixNano"))
  endTimeUnixNano := textOr (js "0") (sp.member? (js "endTimeUnixNano"))
  attributes := attributesOf (sp.member? (js "attributes"))
  resourceAttributes := resourceAttributes

/-- The attributes of the resource of an entry. -/
def resourceAttributes (r : Json) : Attributes :=
  attributesOf (resourceAttributesOf (r.member? (js "resource")))

/-- What is recorded of a trace export. -/
def spansOf (payload : Json) : List CapturedSpan :=
  (itemsAt payload (js "resourceSpans")).flatMap fun r =>
    (itemsAt r (js "scopeSpans")).flatMap fun s =>
      (itemsAt s (js "spans")).map (spanOf (resourceAttributes r))

theorem capturedSpan_of_wellFormed {sp : Json} (h : WellFormedSpan sp) (attributes : Attributes) :
    capturedSpan attributes sp = some (spanOf attributes sp) := by
  obtain ⟨⟨members, rfl⟩, _, hattributes⟩ := h
  rw [capturedSpan, decodeAttributes_of_wellFormed hattributes]
  rfl

theorem loop_of_isListOf {β : Type} {form : Json → Prop} {f : Json → Pushed β} {g : Json → List β}
    {v : Json} {name : JsString} (hobj : ∃ members, v = .obj members)
    (h : IsListOf form (v.member? name)) (hf : ∀ w, form w → f w = ⟨g w, true⟩) :
    Pushed.loop f (listOf v name) = ⟨(itemsAt v name).flatMap g, true⟩ := by
  obtain ⟨hl, hall⟩ := listOf_of_isListOf hobj h
  rw [hl]
  exact Pushed.each_of_completed fun w hw => hf w (hall w hw)

theorem ingestScopeSpans_of_wellFormed {s : Json} (h : WellFormedScopeSpans s)
    (attributes : Attributes) :
    ingestScopeSpans attributes s = ⟨(itemsAt s (js "spans")).map (spanOf attributes), true⟩ := by
  rw [List.map_eq_flatMap]
  refine loop_of_isListOf h.isObject h.spans fun sp hsp => ?_
  rw [capturedSpan_of_wellFormed hsp]
  rfl

theorem ingestResourceSpans_of_wellFormed {r : Json} (h : WellFormedResourceSpans r) :
    ingestResourceSpans r = ⟨(itemsAt r (js "scopeSpans")).flatMap fun s =>
      (itemsAt s (js "spans")).map (spanOf (resourceAttributes r)), true⟩ := by
  obtain ⟨⟨members, rfl⟩, hresource, hscopes⟩ := h
  have hattributes : WellFormedAttributes
      (resourceAttributesOf (Json.member? (.obj members) (js "resource"))) := by
    obtain hn | ⟨ms, hm, hform⟩ := hresource
    · obtain hn | hn := isNullish_iff.mp hn <;> rw [hn] <;> exact Or.inl rfl
    · rw [hm]
      exact hform
  have hprop : prop (.obj members) (js "resource") =
      some (Json.member? (.obj members) (js "resource")) := rfl
  rw [ingestResourceSpans, hprop, Option.bind_some, decodeAttributes_of_wellFormed hattributes,
    Option.elim_some]
  exact loop_of_isListOf ⟨members, rfl⟩ hscopes fun s hs => ingestScopeSpans_of_wellFormed hs _

/-- A trace export of the expected form is recorded. -/
theorem ingestTraces_of_wellFormed (h : WellFormedTraces payload) :
    ingestTraces payload = ⟨spansOf payload, true⟩ :=
  loop_of_isListOf h.isObject h.resourceSpans fun _ hr => ingestResourceSpans_of_wellFormed hr

/-- The data points of a kind. -/
def dataPointsOf (m : Json) (kind : MetricKind) : List Json :=
  nestedItems m kind.slot (js "dataPoints")

/-- The data point of a metric that is recorded. -/
def keptDataPoint (m : Json) : Option (MetricKind × Json) :=
  [MetricKind.sum, .gauge, .histogram].findSome? fun kind =>
    (dataPointsOf m kind).head?.map (Prod.mk kind)

/-- What is recorded of a metric. -/
def metricOf (m : Json) : Option CapturedMetric :=
  (keptDataPoint m).map fun p =>
    { name := textOr [] (m.member? (js "name"))
      description := stringOf (m.member? (js "description"))
      unit := stringOf (m.member? (js "unit"))
      kind := p.1
      dataPoint := ⟨attributesOf (p.2.member? (js "attributes")), dataPointValue p.2⟩ }

/-- What is recorded of a metric export. -/
def metricsOf (payload : Json) : List CapturedMetric :=
  (itemsAt payload (js "resourceMetrics")).flatMap fun r =>
    (itemsAt r (js "scopeMetrics")).flatMap fun s =>
      (itemsAt s (js "metrics")).flatMap fun m => (metricOf m).toList

theorem firstDataPoint_of_wellFormed {slot : Option Json} (h : IsObjectOrNone WellFormedData slot) :
    firstDataPoint slot =
      ((slot.map (itemsAt · (js "dataPoints"))).getD []).head?.map some ∧
      ∀ v ∈ (slot.map (itemsAt · (js "dataPoints"))).getD [], WellFormedDataPoint v := by
  obtain hn | ⟨members, rfl, hdata⟩ := h
  · obtain rfl | rfl := isNullish_iff.mp hn
    · exact ⟨rfl, by simp⟩
    · exact ⟨rfl, by simp [itemsAt, itemsOf, Json.items?, Json.member?]⟩
  · obtain hn | ⟨items, hitems, hall⟩ := hdata
    · have hempty : itemsAt (.obj members) (js "dataPoints") = [] := itemsOf_nullish hn
      rw [Option.map_some, Option.getD_some, hempty]
      refine ⟨?_, by simp⟩
      obtain hv | hv := isNullish_iff.mp hn <;>
        simp [firstDataPoint, Json.read?, hv]
    · have hsome : itemsAt (.obj members) (js "dataPoints") = items := by
        rw [itemsAt, hitems]
        rfl
      rw [Option.map_some, Option.getD_some, hsome]
      refine ⟨?_, hall⟩
      simp [firstDataPoint, Json.read?, hitems]

theorem capturedMetric_of_wellFormed {m : Json} (h : WellFormedMetric m) :
    capturedMetric m = some (metricOf m) := by
  obtain ⟨⟨members, rfl⟩, hdata⟩ := h
  have hslot : metricSlot (.obj members) =
      (keptDataPoint (.obj members)).map fun p => (p.1, some p.2) := by
    have hkind : ∀ kind : MetricKind,
        ((firstDataPoint (Json.member? (.obj members) kind.slot)).map fun first => (kind, first)) =
          ((dataPointsOf (.obj members) kind).head?.map (Prod.mk kind)).map
            fun p => (p.1, some p.2) := by
      intro kind
      rw [(firstDataPoint_of_wellFormed (hdata kind)).1]
      simp [dataPointsOf, nestedItems, Function.comp_def]
    simp only [metricSlot, keptDataPoint, hkind, List.findSome?]
    cases (dataPointsOf (.obj members) .sum).head? <;>
      cases (dataPointsOf (.obj members) .gauge).head? <;>
      cases (dataPointsOf (.obj members) .histogram).head? <;> rfl
  have hprop : prop (.obj members) (js "sum") = some (Json.member? (.obj members) (js "sum")) := rfl
  rw [capturedMetric, hprop, hslot, metricOf]
  cases hk : keptDataPoint (.obj members) with
  | none => rfl
  | some p =>
    have hmem : WellFormedDataPoint p.2 := by
      obtain ⟨kind, _, hfirst⟩ := List.exists_of_findSome?_eq_some hk
      obtain ⟨v, hv, rfl⟩ := Option.map_eq_some_iff.mp hfirst
      exact (firstDataPoint_of_wellFormed (hdata kind)).2 v (List.mem_of_head? hv)
    obtain ⟨kind, v⟩ := p
    obtain ⟨⟨ms, rfl⟩, hattributes⟩ := hmem
    have hpoint : capturedDataPoint (some (.obj ms)) =
        some ⟨attributesOf (Json.member? (.obj ms) (js "attributes")),
          dataPointValue (.obj ms)⟩ := by
      have hprop : prop (.obj ms) (js "attributes") =
          some (Json.member? (.obj ms) (js "attributes")) := rfl
      rw [capturedDataPoint]
      simp [hprop, decodeAttributes_of_wellFormed hattributes]
    simp [hpoint]

/-- A metric export of the expected form is recorded. -/
theorem ingestMetrics_of_wellFormed (h : WellFormedMetrics payload) :
    ingestMetrics payload = ⟨metricsOf payload, true⟩ := by
  refine loop_of_isListOf h.isObject h.resourceMetrics fun r hr => ?_
  refine loop_of_isListOf hr.isObject hr.scopeMetrics fun s hs => ?_
  refine loop_of_isListOf hs.isObject hs.metrics fun m hm => ?_
  rw [capturedMetric_of_wellFormed hm]
  rfl

end Captures

section Objects

/-- An object whose undefined members are left out. -/
def objectOf (members : List (JsString × Option Json)) : Json :=
  .obj (members.filterMap fun m => m.2.map (Prod.mk m.1))

variable {members : List (JsString × Option Json)} {key name : JsString}

@[simp] theorem member?_objectOf_nil : (objectOf []).member? name = none := rfl

theorem member?_objectOf_of_ne (v : Option Json) (h : key ≠ name) :
    (objectOf ((key, v) :: members)).member? name = (objectOf members).member? name := by
  cases v with
  | none => rfl
  | some w => exact if_neg h

theorem member?_objectOf_self (v : Option Json) :
    (objectOf ((key, v) :: members)).member? key = v.or ((objectOf members).member? key) := by
  cases v with
  | none => rfl
  | some w => exact if_pos rfl

mutual

/-- An attribute value as the decoders return it. -/
def JsonAnyValue.toJson : JsonAnyValue → Json
  | .empty => .obj []
  | .stringValue s => .obj [(js "stringValue", .str s)]
  | .intValue s => .obj [(js "intValue", .str s)]
  | .doubleValue x => .obj [(js "doubleValue", .num x)]
  | .boolValue b => .obj [(js "boolValue", .bool b)]
  | .arrayValue values =>
    .obj [(js "arrayValue", .obj [(js "values", .arr (anyValuesJson values))])]
  | .kvlistValue values =>
    .obj [(js "kvlistValue", .obj [(js "values", .arr (keyValuesJson values))])]
  | .bytesValue s => .obj [(js "bytesValue", .str s)]

def anyValuesJson : List JsonAnyValue → List Json
  | [] => []
  | v :: vs => v.toJson :: anyValuesJson vs

def keyValuesJson : List (JsString × JsonAnyValue) → List Json
  | [] => []
  | (key, v) :: kvs => .obj [(js "key", .str key), (js "value", v.toJson)] :: keyValuesJson kvs

end

/-- A list of attributes as the decoders return it. -/
def attributesJson (attributes : List JsonKeyValue) : Json := .arr (keyValuesJson attributes)

def JsonResource.toJson (r : JsonResource) : Json :=
  objectOf [(js "attributes", some (attributesJson r.attributes))]

def JsonSpan.toJson (sp : JsonSpan) : Json :=
  objectOf [(js "traceId", sp.traceId.map .str), (js "spanId", sp.spanId.map .str),
    (js "parentSpanId", sp.parentSpanId.map .str), (js "name", sp.name.map .str),
    (js "startTimeUnixNano", sp.startTimeUnixNano.map .str),
    (js "endTimeUnixNano", sp.endTimeUnixNano.map .str),
    (js "attributes", sp.attributes.map attributesJson)]

def JsonScopeSpans.toJson (s : JsonScopeSpans) : Json :=
  objectOf [(js "spans", some (.arr (s.spans.map JsonSpan.toJson)))]

def JsonResourceSpans.toJson (r : JsonResourceSpans) : Json :=
  objectOf [(js "scopeSpans", some (.arr (r.scopeSpans.map JsonScopeSpans.toJson))),
    (js "resource", r.resource.map JsonResource.toJson)]

def JsonExportTraceServiceRequest.toJson (request : JsonExportTraceServiceRequest) : Json :=
  objectOf [(js "resourceSpans", some (.arr (request.resourceSpans.map JsonResourceSpans.toJson)))]

def JsonNumberDataPoint.toJson (dp : JsonNumberDataPoint) : Json :=
  objectOf [(js "asDouble", dp.asDouble.map .num), (js "asInt", dp.asInt.map .str),
    (js "attributes", dp.attributes.map attributesJson)]

def JsonDataPoints.toJson (d : JsonDataPoints) : Json :=
  objectOf [(js "dataPoints", some (.arr (d.dataPoints.map JsonNumberDataPoint.toJson)))]

def JsonMetric.toJson (m : JsonMetric) : Json :=
  objectOf [(js "name", m.name.map .str), (js "description", m.description.map .str),
    (js "unit", m.unit.map .str), (js "gauge", m.gauge.map JsonDataPoints.toJson),
    (js "sum", m.sum.map JsonDataPoints.toJson),
    (js "histogram", m.histogram.map JsonDataPoints.toJson)]

def JsonScopeMetrics.toJson (s : JsonScopeMetrics) : Json :=
  objectOf [(js "metrics", some (.arr (s.metrics.map JsonMetric.toJson)))]

def JsonResourceMetrics.toJson (r : JsonResourceMetrics) : Json :=
  objectOf [(js "scopeMetrics", some (.arr (r.scopeMetrics.map JsonScopeMetrics.toJson))),
    (js "resource", r.resource.map JsonResource.toJson)]

def JsonExportMetricsServiceRequest.toJson (request : JsonExportMetricsServiceRequest) : Json :=
  objectOf [(js "resourceMetrics",
    some (.arr (request.resourceMetrics.map JsonResourceMetrics.toJson)))]

end Objects

section Decoded

theorem anyValuesJson_eq_map (values : List JsonAnyValue) :
    anyValuesJson values = values.map JsonAnyValue.toJson := by
  induction values with
  | nil => rfl
  | cons v vs ih => rw [anyValuesJson, ih, List.map_cons]

theorem keyValuesJson_eq_map (kvs : List JsonKeyValue) : keyValuesJson kvs =
    kvs.map fun kv => .obj [(js "key", .str kv.1), (js "value", kv.2.toJson)] := by
  induction kvs with
  | nil => rfl
  | cons kv kvs ih => rw [keyValuesJson, ih, List.map_cons]

mutual

theorem wellFormed_anyValue : ∀ v : JsonAnyValue, WellFormedAny v.toJson
  | .arrayValue values => .mk (Or.inr ⟨_, rfl, Or.inr ⟨_, rfl⟩⟩) (wellFormed_anyValues values)
  | .empty | .stringValue _ | .intValue _ | .doubleValue _ | .boolValue _ | .kvlistValue _
  | .bytesValue _ => .mk (Or.inl rfl) nofun

theorem wellFormed_anyValues : ∀ values : List JsonAnyValue,
    ∀ w ∈ anyValuesJson values, WellFormedAny w
  | [] => nofun
  | v :: vs => List.forall_mem_cons.mpr ⟨wellFormed_anyValue v, wellFormed_anyValues vs⟩

end

theorem wellFormed_attributes (attributes : List JsonKeyValue) :
    WellFormedAttributes (some (attributesJson attributes)) := by
  refine Or.inr ⟨_, rfl, ?_⟩
  rw [keyValuesJson_eq_map, List.forall_mem_map]
  intro kv _
  refine ⟨⟨kv.1, rfl⟩, fun v hv => ?_⟩
  cases hv
  exact wellFormed_anyValue kv.2

theorem isListOf_none {form : Json → Prop} : IsListOf form none := Or.inl rfl

theorem isListOf_map {α : Type} {form : Json → Prop} {g : α → Json} {l : List α}
    (h : ∀ a, form (g a)) : IsListOf form (some (.arr (l.map g))) :=
  Or.inr ⟨_, rfl, List.forall_mem_map.mpr fun a _ => h a⟩

theorem optAttributes_wellFormed (attributes : Option (List JsonKeyValue)) :
    WellFormedAttributes (attributes.map attributesJson) := by
  cases attributes with
  | none => exact isListOf_none
  | some l => exact wellFormed_attributes l

theorem wellFormed_span (sp : JsonSpan) : WellFormedSpan sp.toJson where
  isObject := ⟨_, rfl⟩
  name := by
    have hname : sp.toJson.member? (js "name") = sp.name.map .str := by
      simp (disch := decide) only [JsonSpan.toJson, member?_objectOf_of_ne, member?_objectOf_self,
        member?_objectOf_nil, Option.or_none]
    rw [hname]
    cases sp.name with
    | none => exact Or.inl rfl
    | some name => exact Or.inr ⟨name, rfl⟩
  attributes := by
    have hattributes : sp.toJson.member? (js "attributes") = sp.attributes.map attributesJson := by
      simp (disch := decide) only [JsonSpan.toJson, member?_objectOf_of_ne, member?_objectOf_self,
        member?_objectOf_nil, Option.or_none]
    rw [hattributes]
    exact optAttributes_wellFormed sp.attributes

theorem wellFormed_scopeSpans (s : JsonScopeSpans) : WellFormedScopeSpans s.toJson where
  isObject := ⟨_, rfl⟩
  spans := isListOf_map wellFormed_span

theorem isObjectOrNone_resource (resource : Option JsonResource) :
    IsObjectOrNone WellFormedResource (resource.map JsonResource.toJson) := by
  cases resource with
  | none => exact Or.inl rfl
  | some resource => exact Or.inr ⟨_, rfl, wellFormed_attributes resource.attributes⟩

theorem wellFormed_resourceSpans (r : JsonResourceSpans) : WellFormedResourceSpans r.toJson where
  isObject := ⟨_, rfl⟩
  resource := by
    have hresource : r.toJson.member? (js "resource") = r.resource.map JsonResource.toJson := by
      simp (disch := decide) only [JsonResourceSpans.toJson, member?_objectOf_of_ne,
        member?_objectOf_self, member?_objectOf_nil, Option.or_none]
    rw [hresource]
    exact isObjectOrNone_resource r.resource
  scopeSpans := isListOf_map wellFormed_scopeSpans

/-- What the trace decoder returns has the form of a trace export. -/
theorem wellFormed_traces (request : JsonExportTraceServiceRequest) :
    WellFormedTraces request.toJson where
  isObject := ⟨_, rfl⟩
  resourceSpans := isListOf_map wellFormed_resourceSpans

theorem wellFormed_dataPoint (dp : JsonNumberDataPoint) : WellFormedDataPoint dp.toJson where
  isObject := ⟨_, rfl⟩
  attributes := by
    have hattributes : dp.toJson.member? (js "attributes") = dp.attributes.map attributesJson := by
      simp (disch := decide) only [JsonNumberDataPoint.toJson, member?_objectOf_of_ne,
        member?_objectOf_self, member?_objectOf_nil, Option.or_none]
    rw [hattributes]
    exact optAttributes_wellFormed dp.attributes

/-- The data of a kind. -/
def JsonMetric.data (m : JsonMetric) : MetricKind → Option JsonDataPoints
  | .sum => m.sum
  | .gauge => m.gauge
  | .histogram => m.histogram

theorem member?_slot (m : JsonMetric) (kind : MetricKind) :
    m.toJson.member? kind.slot = (m.data kind).map JsonDataPoints.toJson := by
  cases kind <;>
    simp (disch := decide) only [JsonMetric.toJson, MetricKind.slot, JsonMetric.data,
      member?_objectOf_of_ne, member?_objectOf_self, member?_objectOf_nil, Option.or_none]

theorem wellFormed_metric (m : JsonMetric) : WellFormedMetric m.toJson where
  isObject := ⟨_, rfl⟩
  data kind := by
    rw [member?_slot]
    cases m.data kind with
    | none => exact Or.inl rfl
    | some d => exact Or.inr ⟨_, rfl, isListOf_map wellFormed_dataPoint⟩

theorem wellFormed_scopeMetrics (s : JsonScopeMetrics) : WellFormedScopeMetrics s.toJson where
  isObject := ⟨_, rfl⟩
  metrics := isListOf_map wellFormed_metric

theorem wellFormed_resourceMetrics (r : JsonResourceMetrics) :
    WellFormedResourceMetrics r.toJson where
  isObject := ⟨_, rfl⟩
  resource := by
    have hresource : r.toJson.member? (js "resource") = r.resource.map JsonResource.toJson := by
      simp (disch := decide) only [JsonResourceMetrics.toJson, member?_objectOf_of_ne,
        member?_objectOf_self, member?_objectOf_nil, Option.or_none]
    rw [hresource]
    exact isObjectOrNone_resource r.resource
  scopeMetrics := isListOf_map wellFormed_scopeMetrics

/-- What the metric decoder returns has the form of a metric export. -/
theorem wellFormed_metrics (request : JsonExportMetricsServiceRequest) :
    WellFormedMetrics request.toJson where
  isObject := ⟨_, rfl⟩
  resourceMetrics := isListOf_map wellFormed_resourceMetrics

end Decoded

end OpenWop.Otlp
