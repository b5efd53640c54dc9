import OpenWop.Js.Stringify
import OpenWop.Js.ToNumber
import OpenWop.Otlp.Decode

/-!
# The OTLP collector

Exports are JSON values, parsed or decoded from protobuf. They are walked level by level,
and every span and the first data point of every metric is pushed where it is met. A value
of an unexpected form throws in the middle of the walk, and what was pushed stays.
-/

namespace OpenWop.Otlp

open OpenWop.Js

section Reading

/-- `v.name`. Reading a member of `null` throws. -/
def prop (v : Json) (name : JsString) : Option (Option Json) :=
  match v with
  | .null => none
  | _ => some (v.member? name)

/-- The value in a condition. -/
def truthy : Option Json → Bool
  | none | some .null | some (.bool false) | some (.num .nan) | some (.str []) => false
  | some (.num (.finite d)) => d.coefficient != 0
  | some _ => true

/-- `String(v ?? orElse)`. -/
def textOr (orElse : JsString) : Option Json → JsString
  | none | some .null => orElse
  | some v => v.text

/-- The code points of a string. -/
def codePoints : JsString → List JsString
  | [] => []
  | [u] => [[u]]
  | u :: v :: rest =>
    if isHighSurrogate u && isLowSurrogate v then [u, v] :: codePoints rest
    else [u] :: codePoints (v :: rest)

/-- `for (const item of v)`, where it is iterable. -/
def iterate : Option Json → Option (List Json)
  | some (.arr items) => some items
  | some (.str s) => some ((codePoints s).map .str)
  | _ => none

/-- `for (const item of v ?? [])`. -/
def iterateOrEmpty (v : Option Json) : Option (List Json) :=
  if Json.isNullish v then some [] else iterate v

end Reading

section Attributes

/-- How an attribute value is recognized. -/
inductive AttrShape where
  | primitive (v : Json)
  | array (items : List Json)
  | unrecognized
  | throws

/-- The items of `arrayValue.values ?? []`, on which `map` is called. The `values` of an array
is a method, which has no `map`. -/
def arrayShape : Option Json → AttrShape
  | some (.obj members) =>
    match Record.get? members (js "values") with
    | none | some .null => .array []
    | some (.arr items) => .array items
    | some _ => .throws
  | some (.arr _) => .throws
  | _ => .unrecognized

/-- The variants of `decodeAttrValue`, in its order. -/
def attrShape (v : Json) : AttrShape :=
  match v.member? (js "stringValue") with
  | some (.str s) => .primitive (.str s)
  | _ =>
    match v.member? (js "intValue") with
    | some (.str s) => .primitive (.num (stringToNumber s))
    | some (.num n) => .primitive (.num n)
    | _ =>
      match v.member? (js "doubleValue") with
      | some (.num n) => .primitive (.num n)
      | _ =>
        match v.member? (js "boolValue") with
        | some (.bool b) => .primitive (.bool b)
        | _ => arrayShape (v.member? (js "arrayValue"))

theorem sizeOf_get? {members : List (JsString × Json)} {name : JsString} {w : Json}
    (h : Record.get? members name = some w) : sizeOf w < sizeOf (Json.obj members) := by
  have hm := List.sizeOf_lt_of_mem (Record.mem_of_get? h)
  simp only [Json.obj.sizeOf_spec, Prod.mk.sizeOf_spec] at hm ⊢
  omega

theorem sizeOf_member? {v w : Json} {name : JsString} (h : v.member? name = some w) :
    sizeOf w < sizeOf v := by
  cases v with
  | obj members => exact sizeOf_get? h
  | _ => cases h

theorem arrayShape_array {v : Json} {items : List Json} (h : arrayShape (some v) = .array items) :
    items = [] ∨ v.member? (js "values") = some (.arr items) := by
  unfold arrayShape at h
  split at h
  · next members heq =>
    cases heq
    split at h
    · cases h
      exact Or.inl rfl
    · cases h
      exact Or.inl rfl
    · next hget =>
      cases h
      exact Or.inr hget
    · cases h
  · cases h
  · cases h

/-- The items of an array value stand below it. -/
theorem attrShape_array {v : Json} {items : List Json} (h : attrShape v = .array items) :
    items = [] ∨ ∃ w, v.member? (js "arrayValue") = some w ∧
      w.member? (js "values") = some (.arr items) := by
  unfold attrShape at h
  split at h
  · cases h
  split at h
  · cases h
  · cases h
  split at h
  · cases h
  split at h
  · cases h
  cases ha : v.member? (js "arrayValue") with
  | none => simp [ha, arrayShape] at h
  | some w =>
    rw [ha] at h
    exact (arrayShape_array h).imp id fun hv => ⟨w, rfl, hv⟩

theorem sizeOf_of_attrShape {v w : Json} {items : List Json} (h : attrShape v = .array items)
    (hw : w ∈ items) : sizeOf w < sizeOf v := by
  obtain rfl | ⟨a, ha, hitems⟩ := attrShape_array h
  · simp at hw
  · have h1 := sizeOf_member? ha
    have h2 := sizeOf_member? hitems
    have h3 := List.sizeOf_lt_of_mem hw
    simp only [Json.arr.sizeOf_spec] at h2
    omega

/-- `decodeAttrValue`, where it does not throw. -/
def decodeAttrValue (v : Json) : Option Json :=
  match _h : attrShape v with
  | .primitive w => some w
  | .array items => (items.attach.mapM fun w => decodeAttrValue w.1).map .arr
  | .unrecognized => some .null
  | .throws => none
termination_by sizeOf v
decreasing_by exact sizeOf_of_attrShape ‹_› w.2

/-- The attributes of a map, by key. -/
abbrev Attributes := Map JsString Json

/-- One turn of `decodeAttributes`. -/
def setAttribute (out : Attributes) (a : Json) : Option Attributes := do
  match ← prop a (js "key") with
  | some (.str key) =>
    return out.set key (← (a.member? (js "value")).elim (some .null) decodeAttrValue)
  | _ => return out

/-- `decodeAttributes`. -/
def decodeAttributes (attrs : Option Json) : Option Attributes :=
  if truthy attrs then (iterate attrs).bind fun items => items.foldlM setAttribute Map.empty
  else some Map.empty

end Attributes

section Records

structure CapturedSpan where
  traceId : JsString
  spanId : JsString
  parentSpanId : Option JsString
  name : JsString
  startTimeUnixNano : JsString
  endTimeUnixNano : JsString
  attributes : Attributes
  resourceAttributes : Attributes

inductive MetricKind where
  | sum
  | gauge
  | histogram
  deriving DecidableEq, Repr

/-- The member of a metric with the data points of a kind. -/
def MetricKind.slot : MetricKind → JsString
  | .sum => js "sum"
  | .gauge => js "gauge"
  | .histogram => js "histogram"

structure CapturedDataPoint where
  attributes : Attributes
  value : Option JsNumber

structure CapturedMetric where
  name : JsString
  description : Option JsString
  unit : Option JsString
  kind : MetricKind
  dataPoint : CapturedDataPoint

/-- What the collector has recorded. -/
structure Records where
  spans : List CapturedSpan
  metrics : List CapturedMetric

/-- What a walk has pushed, and whether it came to its end. -/
structure Pushed (β : Type) where
  items : List β
  completed : Bool

namespace Pushed

variable {α β : Type}

/-- One item at most, unless making it throws. -/
def one (x : Option (Option β)) : Pushed β := x.elim ⟨[], false⟩ fun item => ⟨item.toList, true⟩

/-- `for (const a of as)`, up to the first one that throws. -/
def each (f : α → Pushed β) : List α → Pushed β
  | [] => ⟨[], true⟩
  | a :: as =>
    if (f a).completed then ⟨(f a).items ++ (each f as).items, (each f as).completed⟩
    else ⟨(f a).items, false⟩

/-- A loop over what may not be iterable. -/
def loop (f : α → Pushed β) (items : Option (List α)) : Pushed β :=
  items.elim ⟨[], false⟩ (each f)

end Pushed

end Records

section Ingest

/-- The span that is pushed. -/
def capturedSpan (resourceAttributes : Attributes) (sp : Json) : Option CapturedSpan := do
  let traceId ← prop sp (js "traceId")
  let attributes ← decodeAttributes (sp.member? (js "attributes"))
  let parent := sp.member? (js "parentSpanId")
  return {
    traceId := textOr [] traceId
    spanId := textOr [] (sp.member? (js "spanId"))
    parentSpanId := if truthy parent then some (textOr [] parent) else none
    name := textOr [] (sp.member? (js "name"))
    startTimeUnixNano := textOr (js "0") (sp.member? (js "startTimeUnixNano"))
    endTimeUnixNano := textOr (js "0") (sp.member? (js "endTimeUnixNano"))
    attributes := attributes
    resourceAttributes := resourceAttributes }

/-- `v.name ?? []`, to be looped over. -/
def listOf (v : Json) (name : JsString) : Option (List Json) :=
  (prop v name).bind iterateOrEmpty

def ingestScopeSpans (resourceAttributes : Attributes) (s : Json) : Pushed CapturedSpan :=
  Pushed.loop (fun sp => Pushed.one ((capturedSpan resourceAttributes sp).map some))
    (listOf s (js "spans"))

/-- `(r.resource ?? {}).attributes`. -/
def resourceAttributesOf (resource : Option Json) : Option Json :=
  resource.bind fun v => v.member? (js "attributes")

def ingestResourceSpans (r : Json) : Pushed CapturedSpan :=
  ((prop r (js "resource")).bind fun resource =>
    decodeAttributes (resourceAttributesOf resource)).elim ⟨[], false⟩ fun attributes =>
      Pushed.loop (ingestScopeSpans attributes) (listOf r (js "scopeSpans"))

/-- What `_ingestTraces` pushes. -/
def ingestTraces (payload : Json) : Pushed CapturedSpan :=
  Pushed.loop ingestResourceSpans (listOf payload (js "resourceSpans"))

/-- The first of the data points, where there are any. -/
def firstDataPoint (slot : Option Json) : Option (Option Json) :=
  match Json.read? slot (js "dataPoints") with
  | some (.arr items) => items.head?.map some
  | some (.str s) => s.head?.map fun u => some (.str [u])
  | some (.obj members) =>
    if truthy (Record.get? members (js "length")) then some (Record.get? members (js "0")) else none
  | _ => none

def dataPointValue (first : Json) : Option JsNumber :=
  match first.member? (js "asDouble") with
  | some (.num x) => some x
  | _ =>
    match first.member? (js "asInt") with
    | some (.str s) => some (stringToNumber s)
    | some (.num n) => some n
    | _ => none

/-- The data point that is kept. A first one without a value throws. -/
def capturedDataPoint (first : Option Json) : Option CapturedDataPoint := do
  let first ← first
  let attributes ← (prop first (js "attributes")).bind decodeAttributes
  return ⟨attributes, dataPointValue first⟩

/-- The first kind of data points a metric has. -/
def metricSlot (m : Json) : Option (MetricKind × Option Json) :=
  [MetricKind.sum, .gauge, .histogram].findSome? fun kind =>
    (firstDataPoint (m.member? kind.slot)).map fun first => (kind, first)

def stringOf : Option Json → Option JsString
  | some (.str s) => some s
  | _ => none

/-- The metric that is pushed, if it has data points. -/
def capturedMetric (m : Json) : Option (Option CapturedMetric) := do
  let _ ← prop m (js "sum")
  match metricSlot m with
  | none => return none
  | some (kind, first) =>
    return some {
      name := textOr [] (m.member? (js "name"))
      description := stringOf (m.member? (js "description"))
      unit := stringOf (m.member? (js "unit"))
      kind := kind
      dataPoint := ← capturedDataPoint first }

def ingestScopeMetrics (s : Json) : Pushed CapturedMetric :=
  Pushed.loop (fun m => Pushed.one (capturedMetric m)) (listOf s (js "metrics"))

def ingestResourceMetrics (r : Json) : Pushed CapturedMetric :=
  Pushed.loop ingestScopeMetrics (listOf r (js "scopeMetrics"))

/-- What `_ingestMetrics` pushes. -/
def ingestMetrics (payload : Json) : Pushed CapturedMetric :=
  Pushed.loop ingestResourceMetrics (listOf payload (js "resourceMetrics"))

end Ingest

end OpenWop.Otlp
