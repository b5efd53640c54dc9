import OpenWop.Js.Canonical
import OpenWop.Otlp.Grpc
import OpenWop.Otlp.Shape

/-!
# Searching the records for a canary

The search sees what was recorded: the names and attributes of spans, those of their
resources, and the attributes of one data point of a metric. Between an export and its
records stand the variants that are not recognized, the keys written twice and the lists of
which one item is kept, so a canary that was exported is found only where its text is kept.
-/

namespace OpenWop.Otlp

open OpenWop.Js

section Search

inductive Surface where
  | spanName
  | spanAttribute
  | spanResourceAttribute
  | metricAttribute
  deriving DecidableEq, Repr

def Surface.text : Surface → JsString
  | .spanName => js "span.name"
  | .spanAttribute => js "span.attribute"
  | .spanResourceAttribute => js "span.resourceAttribute"
  | .metricAttribute => js "metric.attribute"

structure CanaryLeak where
  surface : Surface
  emitterName : JsString
  key : Option JsString
  value : JsString

/-- The text of a recorded value that is searched. -/
def searchedText : Json → JsString
  | .str s => s
  | v => v.stringify

/-- The text of an attribute in which the canary is found. -/
def attributeMatch (canary key : JsString) (v : Json) : Option JsString :=
  if includes (searchedText v) canary then some (searchedText v)
  else if includes key canary then some key
  else none

/-- The hits of the attributes of a surface, with the key by which each is reported once. -/
def attributeHits (canary : JsString) (surface : Surface) (emitterName : JsString)
    (dedupPrefix : JsString) (attributes : Attributes) : List (CanaryLeak × JsString) :=
  attributes.entries.filterMap fun entry =>
    (attributeMatch canary entry.1 entry.2).map fun m =>
      (⟨surface, emitterName, some entry.1, m⟩,
        dedupPrefix ++ entry.1 ++ js "|" ++ m)

def spanHits (canary : JsString) (sp : CapturedSpan) : List (CanaryLeak × JsString) :=
  (if includes sp.name canary then
    [(⟨.spanName, sp.name, none, sp.name⟩, Surface.spanName.text ++ js "|" ++ sp.name)]
  else []) ++
  attributeHits canary .spanAttribute sp.name
    (Surface.spanAttribute.text ++ js "|" ++ sp.name ++ js "|") sp.attributes ++
  attributeHits canary .spanResourceAttribute sp.name
    (Surface.spanResourceAttribute.text ++ js "|") sp.resourceAttributes

def metricHits (canary : JsString) (metric : CapturedMetric) : List (CanaryLeak × JsString) :=
  attributeHits canary .metricAttribute metric.name
    (Surface.metricAttribute.text ++ js "|" ++ metric.name ++ js "|") metric.dataPoint.attributes

/-- Each hit once, by its key. -/
def recordOnce : List JsString → List (CanaryLeak × JsString) → List CanaryLeak
  | _, [] => []
  | seen, (leak, key) :: hits =>
    if key ∈ seen then recordOnce seen hits else leak :: recordOnce (key :: seen) hits

def findCanaryLeakage (records : Records) (canary : JsString) : List CanaryLeak :=
  if trim canary = [] then []
  else recordOnce [] (records.spans.flatMap (spanHits canary) ++
    records.metrics.flatMap (metricHits canary))

end Search

section Found

variable {canary : JsString}

theorem recordOnce_eq_nil_iff (hits : List (CanaryLeak × JsString)) :
    recordOnce [] hits = [] ↔ hits = [] := by
  cases hits with
  | nil => simp [recordOnce]
  | cons hit hits => simp [recordOnce]

/-- The canary is found in a key or a value. -/
def InAttributes (canary : JsString) (attributes : Attributes) : Prop :=
  ∃ entry ∈ attributes.entries, canary <:+: entry.1 ∨ canary <:+: searchedText entry.2

theorem attributeHits_ne_nil_iff (surface : Surface) (emitterName dedupPrefix : JsString)
    (attributes : Attributes) :
    attributeHits canary surface emitterName dedupPrefix attributes ≠ [] ↔
      InAttributes canary attributes := by
  have hmatch : ∀ entry : JsString × Json, attributeMatch canary entry.1 entry.2 ≠ none ↔
      canary <:+: entry.1 ∨ canary <:+: searchedText entry.2 := by
    intro entry
    rw [attributeMatch, ← includes_iff, ← includes_iff]
    split
    · next h => simp [h]
    · next h => split <;> simp_all
  simp only [attributeHits, InAttributes, ne_eq, List.filterMap_eq_nil_iff, Option.map_eq_none_iff,
    not_forall, exists_prop, ← hmatch]

/-- The canary is in what is recorded of a span. -/
def InSpan (canary : JsString) (sp : CapturedSpan) : Prop :=
  canary <:+: sp.name ∨ InAttributes canary sp.attributes ∨
    InAttributes canary sp.resourceAttributes

theorem spanHits_ne_nil_iff (sp : CapturedSpan) : spanHits canary sp ≠ [] ↔ InSpan canary sp := by
  rw [InSpan, ← attributeHits_ne_nil_iff, ← attributeHits_ne_nil_iff, ← includes_iff, spanHits]
  simp only [ne_eq, List.append_eq_nil_iff, not_and_or]
  rw [or_assoc]
  refine or_congr ?_ Iff.rfl
  split <;> simp_all

/-- A leak is reported exactly where the canary is in a span or metric that is recorded. -/
theorem findCanaryLeakage_ne_nil_iff (records : Records) (h : trim canary ≠ []) :
    findCanaryLeakage records canary ≠ [] ↔ (∃ sp ∈ records.spans, InSpan canary sp) ∨
      ∃ metric ∈ records.metrics, InAttributes canary metric.dataPoint.attributes := by
  have hmetric : ∀ metric : CapturedMetric, metricHits canary metric ≠ [] ↔
      InAttributes canary metric.dataPoint.attributes := fun metric =>
    attributeHits_ne_nil_iff _ _ _ _
  rw [findCanaryLeakage, if_neg h, ne_eq, recordOnce_eq_nil_iff, List.append_eq_nil_iff, not_and_or]
  simp only [List.flatMap_eq_nil_iff, not_forall, exists_prop, ← spanHits_ne_nil_iff, ← hmetric,
    ne_eq]

end Found

section Texts

/-- The text of a value inside an array. -/
def nestedText (v : Json) : JsString :=
  match _h : attrShape v with
  | .primitive w => w.stringify
  | .array items =>
    unit '[' :: (join [unit ','] (items.attach.map fun w => nestedText w.1) ++ [unit ']'])
  | .unrecognized | .throws => js "null"
termination_by sizeOf v
decreasing_by exact sizeOf_of_attrShape ‹_› w.2

/-- The text of an attribute value: a string as it is, a number or a boolean as JSON, an array
as the JSON of its texts. Key-value lists, bytes and what has no variant are shown as `null`. -/
def valueText (v : Json) : JsString :=
  match attrShape v with
  | .primitive (.str s) => s
  | _ => nestedText v

theorem nestedText_array {v : Json} {items : List Json} (h : attrShape v = .array items) :
    nestedText v = unit '[' :: (join [unit ','] (items.map nestedText) ++ [unit ']']) := by
  rw [nestedText]
  split
  · next hs => cases h.symm.trans hs
  · next items' hs =>
    cases h.symm.trans hs
    rw [List.attach_map_val]
  · next hs => cases h.symm.trans hs
  · next hs => cases h.symm.trans hs

theorem nestedText_primitive {v w : Json} (h : attrShape v = .primitive w) :
    nestedText v = w.stringify := by
  rw [nestedText]
  split
  · next hs =>
    cases h.symm.trans hs
    rfl
  · next hs => cases h.symm.trans hs
  · next hs => cases h.symm.trans hs
  · next hs => cases h.symm.trans hs

theorem nestedText_unrecognized {v : Json} (h : attrShape v = .unrecognized) :
    nestedText v = js "null" := by
  rw [nestedText]
  split
  · next hs => cases h.symm.trans hs
  · next hs => cases h.symm.trans hs
  · rfl
  · next hs => cases h.symm.trans hs

theorem mapM_eq_some_iff {α β : Type} {f : α → Option β} {l : List α} {bs : List β} :
    l.mapM f = some bs ↔ List.Forall₂ (fun a b => f a = some b) l bs := by
  induction l generalizing bs with
  | nil => cases bs <;> simp
  | cons a l ih =>
    cases bs with
    | nil => simp [List.mapM_cons, Option.bind_eq_some_iff]
    | cons b bs =>
      simp [List.mapM_cons, Option.bind_eq_some_iff, ih]

/-- The JSON of a decoded value is its text. -/
theorem stringify_of_decode {v w : Json} (h : decodeAttrValue v = some w) :
    w.stringify = nestedText v := by
  induction hn : sizeOf v using Nat.strongRecOn generalizing v w with
  | ind n ih =>
    subst hn
    cases hs : attrShape v with
    | primitive x =>
      rw [decodeAttrValue_primitive hs, Option.some.injEq] at h
      rw [nestedText_primitive hs, h]
    | unrecognized =>
      rw [decodeAttrValue_unrecognized hs, Option.some.injEq] at h
      rw [nestedText_unrecognized hs, ← h]
      rfl
    | throws =>
      rw [decodeAttrValue] at h
      split at h
      · next hs' => cases hs.symm.trans hs'
      · next hs' => cases hs.symm.trans hs'
      · next hs' => cases hs.symm.trans hs'
      · cases h
    | array items =>
      rw [decodeAttrValue_array hs] at h
      obtain ⟨ws, hws, rfl⟩ := Option.map_eq_some_iff.mp h
      have htexts : ws.map Json.stringify = items.map nestedText := by
        have hforall := mapM_eq_some_iff.mp hws
        have hless : ∀ x ∈ items, sizeOf x < sizeOf v := fun x hx => sizeOf_of_attrShape hs hx
        clear hws h hs
        induction hforall with
        | nil => rfl
        | cons hx _ ihs =>
          rw [List.forall_mem_cons] at hless
          rw [List.map_cons, List.map_cons, ihs hless.2, ih _ hless.1 hx rfl]
      rw [nestedText_array hs, Json.stringify, Json.stringifyItems_eq, htexts]

/-- A decoded value is searched in its text. -/
theorem searchedText_of_decode {v w : Json} (h : decodeAttrValue v = some w) :
    searchedText w = valueText v := by
  have hnested := stringify_of_decode h
  rw [valueText]
  split
  · next s hs =>
    rw [decodeAttrValue_primitive hs, Option.some.injEq] at h
    rw [← h]
    rfl
  · next hs =>
    cases w with
    | str s =>
      exfalso
      cases hshape : attrShape v with
      | primitive x =>
        rw [decodeAttrValue_primitive hshape, Option.some.injEq] at h
        exact hs s (h ▸ hshape)
      | array items =>
        rw [decodeAttrValue_array hshape] at h
        simp at h
      | unrecognized =>
        rw [decodeAttrValue_unrecognized hshape] at h
        cases h
      | throws =>
        rw [decodeAttrValue] at h
        split at h
        · next hs' => cases hshape.symm.trans hs'
        · next hs' => cases hshape.symm.trans hs'
        · next hs' => cases hshape.symm.trans hs'
        · cases h
    | _ => exact hnested

end Texts

section Kept

/-- The text of the value of an attribute. -/
def attributeText (a : Json) : JsString := (a.member? (js "value")).elim (js "null") valueText

/-- The canary is in an attribute that no later one of its key replaces. -/
def KeptInAttributes (canary : JsString) (attrs : Option Json) : Prop :=
  ∃ pre a post, itemsOf attrs = pre ++ a :: post ∧ (∀ b ∈ post, keyOf b ≠ keyOf a) ∧
    (canary <:+: keyOf a ∨ canary <:+: attributeText a)

/-- The attributes of the resource of an entry. -/
def resourceList (r : Json) : Option Json := resourceAttributesOf (r.member? (js "resource"))

/-- The canary is in a span that is recorded, or in a resource that has one. -/
def KeptInTraces (canary : JsString) (payload : Json) : Prop :=
  ∃ r ∈ itemsAt payload (js "resourceSpans"), ∃ s ∈ itemsAt r (js "scopeSpans"),
    ∃ sp ∈ itemsAt s (js "spans"), canary <:+: textOr [] (sp.member? (js "name")) ∨
      KeptInAttributes canary (sp.member? (js "attributes")) ∨
      KeptInAttributes canary (resourceList r)

/-- The canary is in the first data point of the first kind of a metric that has data points. -/
def KeptInMetrics (canary : JsString) (payload : Json) : Prop :=
  ∃ r ∈ itemsAt payload (js "resourceMetrics"), ∃ s ∈ itemsAt r (js "scopeMetrics"),
    ∃ m ∈ itemsAt s (js "metrics"), ∃ first ∈ (keptDataPoint m).map Prod.snd,
      KeptInAttributes canary (first.member? (js "attributes"))

variable {canary : JsString} {attrs : Option Json}

/-- The entries of a map of attributes are the last ones of each key. -/
theorem mem_attributesOf_iff {key : JsString} {w : Json} :
    (key, w) ∈ (attributesOf attrs).entries ↔ ∃ pre a post, itemsOf attrs = pre ++ a :: post ∧
      (∀ b ∈ post, keyOf b ≠ key) ∧ keyOf a = key ∧ decodedOf a = w := by
  rw [Map.mem_entries_iff, attributesOf]
  induction itemsOf attrs using List.reverseRecOn with
  | nil => simp
  | append_singleton items a ih =>
    rw [List.foldl_append, List.foldl_cons, List.foldl_nil, Map.get?_set]
    split
    · next hkey =>
      subst hkey
      constructor
      · intro h
        exact ⟨items, a, [], rfl, by simp, rfl, Option.some.inj h⟩
      · rintro ⟨pre, b, post, hsplit, hpost, hkey, hw⟩
        rcases List.eq_nil_or_concat post with rfl | ⟨post', c, rfl⟩
        · obtain ⟨_, rfl⟩ := List.append_inj' hsplit rfl |>.imp id List.singleton_inj.mp
          rw [hw]
        · rw [List.concat_eq_append, ← List.cons_append, ← List.append_assoc] at hsplit
          obtain ⟨_, rfl⟩ := List.append_inj' hsplit rfl |>.imp id List.singleton_inj.mp
          exact absurd rfl (hpost a (by simp))
    · next hkey =>
      rw [ih]
      constructor
      · rintro ⟨pre, b, post, hsplit, hpost, hb⟩
        refine ⟨pre, b, post ++ [a], by rw [hsplit]; simp, ?_, hb⟩
        simpa [or_imp, forall_and] using ⟨hpost, fun h => hkey h.symm⟩
      · rintro ⟨pre, b, post, hsplit, hpost, hkb, hw⟩
        rcases List.eq_nil_or_concat post with rfl | ⟨post', c, rfl⟩
        · obtain ⟨_, rfl⟩ := List.append_inj' hsplit rfl |>.imp id List.singleton_inj.mp
          exact absurd hkb.symm hkey
        · rw [List.concat_eq_append, ← List.cons_append, ← List.append_assoc] at hsplit
          obtain ⟨rfl, rfl⟩ := List.append_inj' hsplit rfl |>.imp id List.singleton_inj.mp
          exact ⟨pre, b, post', rfl, fun x hx => hpost x (by simp [hx]), hkb, hw⟩

theorem searchedText_decodedOf {a : Json} (h : WellFormedAttribute a) :
    searchedText (decodedOf a) = attributeText a := by
  rw [decodedOf, attributeText]
  cases hv : a.member? (js "value") with
  | none => rfl
  | some v =>
    obtain ⟨w, hw⟩ := decodeAttrValue_of_wellFormed (h.2 v hv)
    rw [Option.bind_some, hw, Option.getD_some, Option.elim_some]
    exact searchedText_of_decode hw

theorem inAttributes_iff (h : WellFormedAttributes attrs) :
    InAttributes canary (attributesOf attrs) ↔ KeptInAttributes canary attrs := by
  have hwf : ∀ a ∈ itemsOf attrs, WellFormedAttribute a := (iterateOrEmpty_of_isListOf h).2
  constructor
  · rintro ⟨⟨key, w⟩, hentry, hfound⟩
    obtain ⟨pre, a, post, hsplit, hpost, rfl, rfl⟩ := mem_attributesOf_iff.mp hentry
    rw [searchedText_decodedOf (hwf a (by simp [hsplit]))] at hfound
    exact ⟨pre, a, post, hsplit, hpost, hfound⟩
  · rintro ⟨pre, a, post, hsplit, hpost, hfound⟩
    rw [← searchedText_decodedOf (hwf a (by simp [hsplit]))] at hfound
    exact ⟨_, mem_attributesOf_iff.mpr ⟨pre, a, post, hsplit, hpost, rfl, rfl⟩, hfound⟩

theorem wellFormed_resourceList {r : Json}
    (h : IsObjectOrNone WellFormedResource (r.member? (js "resource"))) :
    WellFormedAttributes (resourceList r) := by
  rw [resourceList]
  obtain hn | ⟨members, hm, hform⟩ := h
  · obtain hn | hn := isNullish_iff.mp hn <;> rw [hn] <;> exact Or.inl rfl
  · rw [hm]
    exact hform

/-- What is recorded of a trace export has the canary exactly where the export keeps it. -/
theorem inSpans_iff {payload : Json} (h : WellFormedTraces payload) :
    (∃ sp ∈ spansOf payload, InSpan canary sp) ↔ KeptInTraces canary payload := by
  have hspan : ∀ r ∈ itemsAt payload (js "resourceSpans"), ∀ s ∈ itemsAt r (js "scopeSpans"),
      ∀ sp ∈ itemsAt s (js "spans"), (InSpan canary (spanOf (resourceAttributes r) sp) ↔
        canary <:+: textOr [] (sp.member? (js "name")) ∨
          KeptInAttributes canary (sp.member? (js "attributes")) ∨
          KeptInAttributes canary (resourceList r)) := by
    intro r hr s hs sp hsp
    have hwr := (listOf_of_isListOf h.isObject h.resourceSpans).2 r hr
    have hws := (listOf_of_isListOf hwr.isObject hwr.scopeSpans).2 s hs
    have hwsp := (listOf_of_isListOf hws.isObject hws.spans).2 sp hsp
    rw [InSpan, ← inAttributes_iff hwsp.attributes,
      ← inAttributes_iff (wellFormed_resourceList hwr.resource)]
    rfl
  constructor
  · rintro ⟨c, hc, hfound⟩
    obtain ⟨r, hr, hc⟩ := List.mem_flatMap.mp hc
    obtain ⟨s, hs, hc⟩ := List.mem_flatMap.mp hc
    obtain ⟨sp, hsp, rfl⟩ := List.mem_map.mp hc
    exact ⟨r, hr, s, hs, sp, hsp, (hspan r hr s hs sp hsp).mp hfound⟩
  · rintro ⟨r, hr, s, hs, sp, hsp, hfound⟩
    refine ⟨spanOf (resourceAttributes r) sp, ?_, (hspan r hr s hs sp hsp).mpr hfound⟩
    exact List.mem_flatMap.mpr ⟨r, hr, List.mem_flatMap.mpr ⟨s, hs, List.mem_map_of_mem hsp⟩⟩

theorem wellFormed_keptDataPoint {m : Json} (h : WellFormedMetric m) {p : MetricKind × Json}
    (hp : keptDataPoint m = some p) : WellFormedDataPoint p.2 := by
  obtain ⟨kind, _, hfirst⟩ := List.exists_of_findSome?_eq_some hp
  obtain ⟨v, hv, rfl⟩ := Option.map_eq_some_iff.mp hfirst
  exact (firstDataPoint_of_wellFormed (h.data kind)).2 v (List.mem_of_head? hv)

/-- What is recorded of a metric export has the canary exactly where the export keeps it. -/
theorem inMetrics_iff {payload : Json} (h : WellFormedMetrics payload) :
    (∃ metric ∈ metricsOf payload, InAttributes canary metric.dataPoint.attributes) ↔
      KeptInMetrics canary payload := by
  have hmetric : ∀ r ∈ itemsAt payload (js "resourceMetrics"),
      ∀ s ∈ itemsAt r (js "scopeMetrics"), ∀ m ∈ itemsAt s (js "metrics"),
      ((∃ metric ∈ (metricOf m).toList, InAttributes canary metric.dataPoint.attributes) ↔
        ∃ first ∈ (keptDataPoint m).map Prod.snd,
          KeptInAttributes canary (first.member? (js "attributes"))) := by
    intro r hr s hs m hm
    have hwr := (listOf_of_isListOf h.isObject h.resourceMetrics).2 r hr
    have hws := (listOf_of_isListOf hwr.isObject hwr.scopeMetrics).2 s hs
    have hwm := (listOf_of_isListOf hws.isObject hws.metrics).2 m hm
    rw [metricOf]
    cases hk : keptDataPoint m with
    | none => simp
    | some p =>
      have hpoint : InAttributes canary (attributesOf (p.2.member? (js "attributes"))) ↔
          KeptInAttributes canary (p.2.member? (js "attributes")) :=
        inAttributes_iff (wellFormed_keptDataPoint hwm hk).attributes
      simpa using hpoint
  constructor
  · rintro ⟨c, hc, hfound⟩
    obtain ⟨r, hr, hc⟩ := List.mem_flatMap.mp hc
    obtain ⟨s, hs, hc⟩ := List.mem_flatMap.mp hc
    obtain ⟨m, hm, hc⟩ := List.mem_flatMap.mp hc
    exact ⟨r, hr, s, hs, m, hm, (hmetric r hr s hs m hm).mp ⟨c, hc, hfound⟩⟩
  · rintro ⟨r, hr, s, hs, m, hm, hfound⟩
    obtain ⟨c, hc, hin⟩ := (hmetric r hr s hs m hm).mpr hfound
    exact ⟨c, List.mem_flatMap.mpr ⟨r, hr, List.mem_flatMap.mpr ⟨s, hs,
      List.mem_flatMap.mpr ⟨m, hm, hc⟩⟩⟩, hin⟩

end Kept

section Exports

/-- A request to the HTTP collector: the parsed body and its size, or the bytes. -/
inductive Export where
  | json (route : Route) (size : Nat) (payload : Json)
  | protobuf (route : Route) (buf : Uint8Array)

/-- What is ingested of an export. A body that is too large or does not decode is refused. -/
def Export.payload : Export → Option (Route × Json)
  | .json route size payload => if maxBodyBytes < size then none else some (route, payload)
  | .protobuf .traces buf =>
    if maxBodyBytes < buf.bytes.length then none
    else (decodeExportTraceServiceRequest buf).toOption.map fun p => (.traces, p.toJson)
  | .protobuf .metrics buf =>
    if maxBodyBytes < buf.bytes.length then none
    else (decodeExportMetricsServiceRequest buf).toOption.map fun p => (.metrics, p.toJson)

/-- `_handle` of a `POST` to a route, with a content type of the export. -/
def handleExport (s : Records) (e : Export) : Records :=
  match e.payload with
  | none => s
  | some (.traces, payload) => { s with spans := s.spans ++ (ingestTraces payload).items }
  | some (.metrics, payload) => { s with metrics := s.metrics ++ (ingestMetrics payload).items }

/-- The records of a collector after some exports. -/
def recordsAfter (exports : List Export) : Records := exports.foldl handleExport ⟨[], []⟩

def WellFormedPayload : Route → Json → Prop
  | .traces, payload => WellFormedTraces payload
  | .metrics, payload => WellFormedMetrics payload

/-- A JSON body has the form of an export. -/
def Export.WellFormed : Export → Prop
  | .json route _ payload => WellFormedPayload route payload
  | .protobuf _ _ => True

def KeptInPayload (canary : JsString) : Route → Json → Prop
  | .traces, payload => KeptInTraces canary payload
  | .metrics, payload => KeptInMetrics canary payload

/-- The canary is in a text that is kept of what arrives. -/
def Export.Keeps (canary : JsString) (e : Export) : Prop :=
  ∃ p ∈ e.payload, KeptInPayload canary p.1 p.2

variable {canary : JsString}

theorem wellFormed_payload {e : Export} (h : e.WellFormed) {p : Route × Json}
    (hp : e.payload = some p) : WellFormedPayload p.1 p.2 := by
  cases e with
  | json route size payload =>
    simp only [Export.payload] at hp
    split at hp
    · cases hp
    · cases hp
      exact h
  | protobuf route buf =>
    cases route with
    | traces =>
      simp only [Export.payload] at hp
      split at hp
      · cases hp
      · obtain ⟨request, _, rfl⟩ := Option.map_eq_some_iff.mp hp
        exact wellFormed_traces request
    | metrics =>
      simp only [Export.payload] at hp
      split at hp
      · cases hp
      · obtain ⟨request, _, rfl⟩ := Option.map_eq_some_iff.mp hp
        exact wellFormed_metrics request

/-- The canary is in the records. -/
def InRecords (canary : JsString) (s : Records) : Prop :=
  (∃ sp ∈ s.spans, InSpan canary sp) ∨
    ∃ metric ∈ s.metrics, InAttributes canary metric.dataPoint.attributes

/-- An export adds the canary to the records exactly where it keeps it. -/
theorem inRecords_handleExport (s : Records) {e : Export} (h : e.WellFormed) :
    InRecords canary (handleExport s e) ↔ InRecords canary s ∨ e.Keeps canary := by
  rw [handleExport, Export.Keeps]
  cases hp : e.payload with
  | none => simp
  | some p =>
    obtain ⟨route, payload⟩ := p
    have hwf := wellFormed_payload h hp
    cases route with
    | traces =>
      have hkept : (∃ sp ∈ spansOf payload, InSpan canary sp) ↔ KeptInTraces canary payload :=
        inSpans_iff hwf
      simp only [InRecords, ingestTraces_of_wellFormed hwf, List.mem_append, or_and_right,
        exists_or, hkept, Option.mem_some_iff, exists_eq_left', KeptInPayload]
      exact or_right_comm
    | metrics =>
      have hkept : (∃ metric ∈ metricsOf payload,
          InAttributes canary metric.dataPoint.attributes) ↔ KeptInMetrics canary payload :=
        inMetrics_iff hwf
      simp only [InRecords, ingestMetrics_of_wellFormed hwf, List.mem_append, or_and_right,
        exists_or, hkept, Option.mem_some_iff, exists_eq_left', KeptInPayload]
      exact or_assoc.symm

theorem inRecords_recordsAfter {exports : List Export} (h : ∀ e ∈ exports, e.WellFormed) :
    InRecords canary (recordsAfter exports) ↔ ∃ e ∈ exports, e.Keeps canary := by
  induction exports using List.reverseRecOn with
  | nil => simp [recordsAfter, InRecords]
  | append_singleton exports e ih =>
    rw [List.forall_mem_append] at h
    rw [recordsAfter, List.foldl_append, List.foldl_cons, List.foldl_nil,
      inRecords_handleExport _ (h.2 e (List.mem_singleton_self e)), ← recordsAfter, ih h.1]
    simp [or_and_right, exists_or]

end Exports

section Exported

/-- The variants of an attribute value that hold no other value. -/
def scalarVariants : List JsString :=
  [js "stringValue", js "intValue", js "doubleValue", js "boolValue", js "bytesValue"]

/-- The canary is in a value, at any depth. -/
inductive InValue (canary : JsString) : Json → Prop where
  | scalar {v name w} : name ∈ scalarVariants → v.member? name = some w → canary <:+: w.text →
      InValue canary v
  | item {v w} : w ∈ nestedItems v (js "arrayValue") (js "values") → InValue canary w →
      InValue canary v
  | key {v kv key} : kv ∈ nestedItems v (js "kvlistValue") (js "values") →
      kv.member? (js "key") = some (.str key) → canary <:+: key → InValue canary v
  | value {v kv w} : kv ∈ nestedItems v (js "kvlistValue") (js "values") →
      kv.member? (js "value") = some w → InValue canary w → InValue canary v

/-- The canary is in the key or the value of an attribute. -/
def InAttribute (canary : JsString) (a : Json) : Prop :=
  (∃ key, a.member? (js "key") = some (.str key) ∧ canary <:+: key) ∨
    ∃ v, a.member? (js "value") = some v ∧ InValue canary v

/-- The canary is in a trace export. -/
def InTraces (canary : JsString) (payload : Json) : Prop :=
  ∃ r ∈ itemsAt payload (js "resourceSpans"),
    (∃ a ∈ itemsOf (resourceList r), InAttribute canary a) ∨
    ∃ s ∈ itemsAt r (js "scopeSpans"), ∃ sp ∈ itemsAt s (js "spans"),
      (∃ name, sp.member? (js "name") = some (.str name) ∧ canary <:+: name) ∨
        ∃ a ∈ itemsAt sp (js "attributes"), InAttribute canary a

/-- The kinds of data of a metric. -/
def dataKinds : List JsString :=
  [js "gauge", js "sum", js "histogram", js "exponentialHistogram", js "summary"]

/-- The canary is in a metric export. -/
def InMetrics (canary : JsString) (payload : Json) : Prop :=
  ∃ r ∈ itemsAt payload (js "resourceMetrics"),
    (∃ a ∈ itemsOf (resourceList r), InAttribute canary a) ∨
    ∃ s ∈ itemsAt r (js "scopeMetrics"), ∃ m ∈ itemsAt s (js "metrics"), ∃ kind ∈ dataKinds,
      ∃ point ∈ nestedItems m kind (js "dataPoints"),
        ∃ a ∈ itemsAt point (js "attributes"), InAttribute canary a

/-- The field numbers of the kinds of data, and of the attributes of their data points. -/
def dataNumbers : List (Nat × Nat) := [(5, 7), (7, 7), (9, 9), (10, 1), (11, 7)]

/-- The canary is in the key or the value of an encoded attribute. -/
def InAttributeBytes (canary : JsString) (m : List UInt8) : Prop :=
  canary <:+: (keyValueShape proto3 m).1 ∨ InValue canary (keyValueShape proto3 m).2.toJson

/-- The canary is in an encoded metric export. -/
def InMetricsBytes (canary : JsString) (m : List UInt8) : Prop :=
  ∃ r ∈ messages 1 m,
    (∃ resource ∈ (messages 1 r).getLast?, ∃ kv ∈ messages 1 resource, InAttributeBytes canary kv) ∨
    ∃ s ∈ messages 2 r, ∃ metric ∈ messages 2 s, ∃ kind ∈ dataNumbers,
      ∃ data ∈ (messages kind.1 metric).getLast?, ∃ point ∈ messages 1 data,
        ∃ kv ∈ messages kind.2 point, InAttributeBytes canary kv

/-- The canary is in a span name or an attribute that is exported. -/
def Export.Has (canary : JsString) : Export → Prop
  | .json .traces _ payload => InTraces canary payload
  | .json .metrics _ payload => InMetrics canary payload
  | .protobuf .traces buf => InTraces canary (traceShape proto3 buf.bytes).toJson
  | .protobuf .metrics buf => InMetricsBytes canary buf.bytes

/-- The canary is reported where it is exported. -/
def Reported (exports : List Export) (canary : JsString) : Prop :=
  (∃ e ∈ exports, e.Has canary) → findCanaryLeakage (recordsAfter exports) canary ≠ []

theorem reported_iff_inRecords (exports : List Export) {canary : JsString} (h : trim canary ≠ []) :
    Reported exports canary ↔
      ((∃ e ∈ exports, e.Has canary) → InRecords canary (recordsAfter exports)) := by
  rw [Reported, findCanaryLeakage_ne_nil_iff _ h, InRecords]

/-- A span with an attribute. -/
def attributeSpan (value : Json) : Json :=
  .obj [(js "attributes", .arr [.obj [(js "key", .str (js "k")), (js "value", value)]])]

/-- The export of one such span. -/
def attributeExport (value : Json) : Export :=
  .json .traces 200 (.obj [(js "resourceSpans", .arr [.obj [(js "scopeSpans",
    .arr [.obj [(js "spans", .arr [attributeSpan value])]])]])])

theorem wellFormed_attributeExport {value : Json} (h : WellFormedAny value) :
    (attributeExport value).WellFormed := by
  have hone : ∀ {form : Json → Prop} {v : Json}, form v → IsListOf form (some (.arr [v])) :=
    fun hv => Or.inr ⟨_, rfl, by simpa using hv⟩
  have hattribute : WellFormedAttribute
      (.obj [(js "key", .str (js "k")), (js "value", value)]) := by
    refine ⟨⟨_, rfl⟩, fun v hv => ?_⟩
    cases hv
    exact h
  have hspan : WellFormedSpan (attributeSpan value) := ⟨⟨_, rfl⟩, Or.inl rfl, hone hattribute⟩
  have hscope : WellFormedScopeSpans (.obj [(js "spans", .arr [attributeSpan value])]) :=
    ⟨⟨_, rfl⟩, hone hspan⟩
  exact ⟨⟨_, rfl⟩, hone ⟨⟨_, rfl⟩, Or.inl rfl, hone hscope⟩⟩

/-- Of such an export only the value matters to a canary that is not in the key. -/
theorem has_attributeExport {value : Json} {canary : JsString} (h : InValue canary value) :
    (attributeExport value).Has canary :=
  ⟨_, List.mem_singleton_self _, Or.inr ⟨_, List.mem_singleton_self _, _,
    List.mem_singleton_self _, Or.inr ⟨_, List.mem_singleton_self _, Or.inr ⟨_, rfl, h⟩⟩⟩⟩

theorem keptInAttributes_nil {attrs : Option Json} {canary : JsString} (h : itemsOf attrs = []) :
    ¬ KeptInAttributes canary attrs := by
  rintro ⟨pre, a, post, hsplit, _⟩
  simp [h] at hsplit

theorem keptInAttributes_singleton {attrs : Option Json} {canary : JsString} {a : Json}
    (h : itemsOf attrs = [a]) :
    KeptInAttributes canary attrs ↔ canary <:+: keyOf a ∨ canary <:+: attributeText a := by
  constructor
  · rintro ⟨pre, b, post, hsplit, _, hfound⟩
    rw [h] at hsplit
    cases pre with
    | nil =>
      cases hsplit
      exact hfound
    | cons c pre => simp at hsplit
  · exact fun hfound => ⟨[], a, [], h, by simp, hfound⟩

/-- Of such an export the text of the value is kept. -/
theorem keeps_attributeExport {value : Json} {canary : JsString} (hempty : canary ≠ [])
    (hkey : ¬ canary <:+: js "k") :
    (attributeExport value).Keeps canary ↔ canary <:+: valueText value := by
  have hattributes : KeptInAttributes canary ((attributeSpan value).member? (js "attributes")) ↔
      canary <:+: valueText value := by
    have hone : itemsOf ((attributeSpan value).member? (js "attributes")) =
        [.obj [(js "key", .str (js "k")), (js "value", value)]] := rfl
    exact (keptInAttributes_singleton hone).trans (or_iff_right hkey)
  have hspan : ∀ r, resourceList r = none →
      (canary <:+: textOr [] ((attributeSpan value).member? (js "name")) ∨
        KeptInAttributes canary ((attributeSpan value).member? (js "attributes")) ∨
        KeptInAttributes canary (resourceList r) ↔ canary <:+: valueText value) := by
    intro r hr
    have hname : ¬ canary <:+: textOr [] ((attributeSpan value).member? (js "name")) :=
      fun hn => hempty (List.infix_nil.mp hn)
    rw [hattributes, or_iff_right hname, hr]
    exact or_iff_left (keptInAttributes_nil rfl)
  constructor
  · rintro ⟨p, hp, hkept⟩
    cases hp
    obtain ⟨r, hr, s, hs, sp, hsp, hkept⟩ := hkept
    obtain rfl := List.mem_singleton.mp hr
    obtain rfl := List.mem_singleton.mp hs
    obtain rfl := List.mem_singleton.mp hsp
    exact (hspan _ rfl).mp hkept
  · intro hfound
    exact ⟨_, rfl, _, List.mem_singleton_self _, _, List.mem_singleton_self _, _,
      List.mem_singleton_self _, (hspan _ rfl).mpr hfound⟩

/-- A canary that is exported is reported in exactly these cases. -/
theorem reported_iff (exports : List Export) (canary : JsString)
    (hexports : ∀ e ∈ exports, e.WellFormed) (hcanary : trim canary ≠ []) :
    Reported exports canary ↔
      ((∃ e ∈ exports, e.Has canary) → ∃ e ∈ exports, e.Keeps canary) := by
  rw [reported_iff_inRecords exports hcanary, inRecords_recordsAfter hexports]

/-- An attribute with a string. -/
def stringSecret : Json := .obj [(js "stringValue", .str (js "secret-1"))]

theorem reported_stringSecret :
    findCanaryLeakage (recordsAfter [attributeExport stringSecret]) (js "secret-1") ≠ [] := by
  have hwf : WellFormedAny stringSecret := .mk (Or.inl rfl) nofun
  have htext : valueText stringSecret = js "secret-1" := rfl
  have hkeeps : (attributeExport stringSecret).Keeps (js "secret-1") := by
    rw [keeps_attributeExport (by decide) (by decide), htext]
  refine (reported_iff [attributeExport stringSecret] (js "secret-1") ?_ (by decide)).mpr
    (fun _ => ⟨_, List.mem_singleton_self _, hkeeps⟩) ⟨_, List.mem_singleton_self _, ?_⟩
  · simpa using wellFormed_attributeExport hwf
  · exact has_attributeExport (.scalar (List.mem_cons_self ..) rfl (List.infix_refl _))

/-- An attribute with a key-value list of one string. -/
def nestedSecret : Json :=
  .obj [(js "kvlistValue", .obj [(js "values", .arr [.obj [(js "key", .str (js "token")),
    (js "value", .obj [(js "stringValue", .str (js "secret-1"))])]])])]

/-- A key-value list is recorded as `null`. -/
theorem not_reported : ¬ ∀ (exports : List Export) (canary : JsString),
    (∀ e ∈ exports, e.WellFormed) → trim canary ≠ [] → Reported exports canary := by
  intro h
  have hwf : WellFormedAny nestedSecret := .mk (Or.inl rfl) nofun
  have hshape : attrShape nestedSecret = .unrecognized := rfl
  have hkeeps : ¬ (attributeExport nestedSecret).Keeps (js "secret-1") := by
    rw [keeps_attributeExport (by decide) (by decide)]
    have htext : valueText nestedSecret = js "null" := by
      rw [valueText, hshape]
      exact nestedText_unrecognized hshape
    rw [htext]
    decide
  have hexports : ∀ e ∈ [attributeExport nestedSecret], e.WellFormed := by
    simpa using wellFormed_attributeExport hwf
  have hhas : InValue (js "secret-1") nestedSecret :=
    .value (List.mem_singleton_self _) rfl
      (.scalar (List.mem_cons_self ..) rfl (List.infix_refl _))
  have hreported := h _ (js "secret-1") hexports (by decide)
  rw [reported_iff_inRecords _ (by decide), inRecords_recordsAfter hexports] at hreported
  obtain ⟨e, he, hk⟩ := hreported ⟨_, List.mem_singleton_self _, has_attributeExport hhas⟩
  exact hkeeps (List.mem_singleton.mp he ▸ hk)

end Exported

end OpenWop.Otlp
