import OpenWop.Otlp.Framing
import OpenWop.Otlp.Wire

/-!
# The OTLP decoders

Trace and metric exports, message by message. Most messages push what they read from one
kind of field and skip the rest; the others switch on the field number alone.
-/

namespace OpenWop.Otlp

open OpenWop.Js PbReader

section Shapes

/-- `JsonAnyValue`. -/
inductive JsonAnyValue where
  | empty
  | stringValue (s : JsString)
  | intValue (s : JsString)
  | doubleValue (x : JsNumber)
  | boolValue (b : Bool)
  | arrayValue (values : List JsonAnyValue)
  | kvlistValue (values : List (JsString × JsonAnyValue))
  | bytesValue (s : JsString)

/-- `JsonKeyValue`, the key and the value. -/
abbrev JsonKeyValue := JsString × JsonAnyValue

structure JsonResource where
  attributes : List JsonKeyValue

structure JsonSpan where
  traceId : Option JsString
  spanId : Option JsString
  parentSpanId : Option JsString
  name : Option JsString
  startTimeUnixNano : Option JsString
  endTimeUnixNano : Option JsString
  attributes : Option (List JsonKeyValue)

structure JsonScopeSpans where
  spans : List JsonSpan

structure JsonResourceSpans where
  resource : Option JsonResource
  scopeSpans : List JsonScopeSpans

structure JsonExportTraceServiceRequest where
  resourceSpans : List JsonResourceSpans

structure JsonNumberDataPoint where
  attributes : Option (List JsonKeyValue)
  asDouble : Option JsNumber
  asInt : Option JsString

structure JsonDataPoints where
  dataPoints : List JsonNumberDataPoint

structure JsonMetric where
  name : Option JsString
  description : Option JsString
  unit : Option JsString
  gauge : Option JsonDataPoints
  sum : Option JsonDataPoints
  histogram : Option JsonDataPoints

structure JsonScopeMetrics where
  metrics : List JsonMetric

structure JsonResourceMetrics where
  resource : Option JsonResource
  scopeMetrics : List JsonScopeMetrics

structure JsonExportMetricsServiceRequest where
  resourceMetrics : List JsonResourceMetrics

end Shapes

section Handlers

variable {α σ : Type}

/-- A read, and where it leaves the decoder's state. -/
def continuing (read : Except DecodeError (α × PbReader)) (set : α → σ) :
    Except DecodeError (Turn σ) :=
  read.map fun p => .next (set p.1) p.2

/-- A read, and what the decoder returns with. -/
def returning (read : Except DecodeError (α × PbReader)) (set : α → σ) :
    Except DecodeError (Turn σ) :=
  read.map fun p => .stop (set p.1)

def skipping (s : σ) (tag : Tag) (r : PbReader) : Except DecodeError (Turn σ) :=
  (r.skip tag.wireType).map (.next s)

/-- `decode(r.readMessage())`. -/
def embedded (decode : PbReader → Except DecodeError α) (r : PbReader) :
    Except DecodeError (α × PbReader) := do
  let (m, r) ← r.readMessage
  return (← decode m, r)

/-- Push what is read from each LEN field with that number, and skip the rest. -/
def pushing (number : Nat) (decode : PbReader → Except DecodeError α) : Handler (List α) :=
  fun values tag r =>
    if tag.fieldNumber = number ∧ tag.wireType = wireLen then
      continuing (embedded decode r) fun v => values ++ [v]
    else skipping values tag r

def decodeAll (number : Nat) (decode : PbReader → Except DecodeError α) (r : PbReader) :
    Except DecodeError (List α) :=
  each (pushing number decode) [] r

end Handlers

section Attributes

/-- The turns of `decodeKeyValue`. -/
def keyValueField (decodeAny : PbReader → Except DecodeError JsonAnyValue) : Handler JsonKeyValue :=
  fun kv tag r =>
    if tag.fieldNumber = 1 ∧ tag.wireType = wireLen then
      continuing r.readString fun key => (key, kv.2)
    else if tag.fieldNumber = 2 ∧ tag.wireType = wireLen then
      continuing (embedded decodeAny r) fun value => (kv.1, value)
    else skipping kv tag r

/-- `decodeKeyValue`, given how the value is read. -/
def decodeKeyValueWith (decodeAny : PbReader → Except DecodeError JsonAnyValue) (r : PbReader) :
    Except DecodeError JsonKeyValue :=
  each (keyValueField decodeAny) ([], .empty) r

/-- The turns of `decodeAnyValue`. It returns with the first field it knows. -/
def anyValueField (decodeAny : PbReader → Except DecodeError JsonAnyValue) : Handler JsonAnyValue :=
  fun v tag r =>
    match tag.fieldNumber with
    | 1 => returning r.readString .stringValue
    | 2 => returning r.readVarintNumber fun n => .boolValue (n != 0)
    | 3 => returning r.readVarint fun n => .intValue (integerText n)
    | 4 => returning r.readDouble .doubleValue
    | 5 => returning (embedded (decodeAll 1 decodeAny) r) .arrayValue
    | 6 => returning (embedded (decodeAll 1 (decodeKeyValueWith decodeAny)) r) .kvlistValue
    | 7 => returning r.readBytesAsHex .bytesValue
    | _ => skipping v tag r

/-- `decodeAnyValue`, nested so many times at most. -/
def decodeAnyValueUpTo : Nat → PbReader → Except DecodeError JsonAnyValue
  | 0, _ => .error .exhausted
  | depth + 1, r => each (anyValueField (decodeAnyValueUpTo depth)) .empty r

/-- `decodeAnyValue`. A message nests fewer times than it has bytes. -/
def decodeAnyValue (r : PbReader) : Except DecodeError JsonAnyValue :=
  decodeAnyValueUpTo (r.finish - r.offset + 1) r

def decodeKeyValue (r : PbReader) : Except DecodeError JsonKeyValue :=
  decodeKeyValueWith decodeAnyValue r

def decodeResource (r : PbReader) : Except DecodeError JsonResource :=
  (decodeAll 1 decodeKeyValue r).map .mk

/-- The attributes a decoder sets when there are any. -/
def someAttributes (attributes : List JsonKeyValue) : Option (List JsonKeyValue) :=
  if attributes.isEmpty then none else some attributes

end Attributes

section Traces

/-- What `decodeSpan` has read. -/
structure SpanState where
  span : JsonSpan
  attributes : List JsonKeyValue

def emptySpan : JsonSpan := ⟨none, none, none, none, none, none, none⟩

/-- The turns of `decodeSpan`. The wire type of a known field is not looked at. -/
def spanField : Handler SpanState := fun s tag r =>
  match tag.fieldNumber with
  | 1 => continuing r.readBytesAsHex fun hex => { s with span := { s.span with traceId := hex } }
  | 2 => continuing r.readBytesAsHex fun hex => { s with span := { s.span with spanId := hex } }
  | 4 => continuing r.readBytesAsHex fun hex =>
      if hex.length > 0 then { s with span := { s.span with parentSpanId := hex } } else s
  | 5 => continuing r.readString fun name => { s with span := { s.span with name := name } }
  | 7 => continuing r.readFixed64Uint fun n =>
      { s with span := { s.span with startTimeUnixNano := decimal n } }
  | 8 => continuing r.readFixed64Uint fun n =>
      { s with span := { s.span with endTimeUnixNano := decimal n } }
  | 9 => continuing (embedded decodeKeyValue r) fun kv =>
      { s with attributes := s.attributes ++ [kv] }
  | _ => skipping s tag r

def decodeSpan (r : PbReader) : Except DecodeError JsonSpan :=
  (each spanField ⟨emptySpan, []⟩ r).map fun s =>
    { s.span with attributes := someAttributes s.attributes }

def decodeScopeSpans (r : PbReader) : Except DecodeError JsonScopeSpans :=
  (decodeAll 2 decodeSpan r).map .mk

def resourceSpansField : Handler JsonResourceSpans := fun s tag r =>
  if tag.fieldNumber = 1 ∧ tag.wireType = wireLen then
    continuing (embedded decodeResource r) fun resource => { s with resource := resource }
  else if tag.fieldNumber = 2 ∧ tag.wireType = wireLen then
    continuing (embedded decodeScopeSpans r) fun v => { s with scopeSpans := s.scopeSpans ++ [v] }
  else skipping s tag r

def decodeResourceSpans (r : PbReader) : Except DecodeError JsonResourceSpans :=
  each resourceSpansField ⟨none, []⟩ r

end Traces

section Metrics

/-- What `decodeNumberDataPoint` has read. -/
structure DataPointState where
  dp : JsonNumberDataPoint
  attributes : List JsonKeyValue

def dataPointField : Handler DataPointState := fun s tag r =>
  match tag.fieldNumber with
  | 4 => continuing r.readDouble fun x => { s with dp := { s.dp with asDouble := x } }
  | 6 => continuing r.readFixed64Int fun n => { s with dp := { s.dp with asInt := integerText n } }
  | 7 => continuing (embedded decodeKeyValue r) fun kv =>
      { s with attributes := s.attributes ++ [kv] }
  | _ => skipping s tag r

def decodeNumberDataPoint (r : PbReader) : Except DecodeError JsonNumberDataPoint :=
  (each dataPointField ⟨⟨none, none, none⟩, []⟩ r).map fun s =>
    { s.dp with attributes := someAttributes s.attributes }

def decodeDataPointContainer (r : PbReader) : Except DecodeError JsonDataPoints :=
  (decodeAll 1 decodeNumberDataPoint r).map .mk

def metricField : Handler JsonMetric := fun m tag r =>
  match tag.fieldNumber with
  | 1 => continuing r.readString fun s => { m with name := s }
  | 2 => continuing r.readString fun s => { m with description := s }
  | 3 => continuing r.readString fun s => { m with unit := s }
  | 5 => continuing (embedded decodeDataPointContainer r) fun d => { m with gauge := d }
  | 7 => continuing (embedded decodeDataPointContainer r) fun d => { m with sum := d }
  | 9 => continuing (embedded decodeDataPointContainer r) fun d => { m with histogram := d }
  | _ => skipping m tag r

def decodeMetric (r : PbReader) : Except DecodeError JsonMetric :=
  each metricField ⟨none, none, none, none, none, none⟩ r

def decodeScopeMetrics (r : PbReader) : Except DecodeError JsonScopeMetrics :=
  (decodeAll 2 decodeMetric r).map .mk

def resourceMetricsField : Handler JsonResourceMetrics := fun s tag r =>
  if tag.fieldNumber = 1 ∧ tag.wireType = wireLen then
    continuing (embedded decodeResource r) fun resource => { s with resource := resource }
  else if tag.fieldNumber = 2 ∧ tag.wireType = wireLen then
    continuing (embedded decodeScopeMetrics r) fun v =>
      { s with scopeMetrics := s.scopeMetrics ++ [v] }
  else skipping s tag r

def decodeResourceMetrics (r : PbReader) : Except DecodeError JsonResourceMetrics :=
  each resourceMetricsField ⟨none, []⟩ r

end Metrics

section Requests

/-- The bytes of a request. No buffer has 2^53 bytes. -/
structure Uint8Array where
  bytes : List UInt8
  bounded : bytes.length < 2 ^ 53

/-- `new PbReader(buf)`. -/
def Uint8Array.reader (buf : Uint8Array) : PbReader := ⟨fun i => buf.bytes[i]?, 0, buf.bytes.length⟩

def decodeExportTraceServiceRequest (buf : Uint8Array) :
    Except DecodeError JsonExportTraceServiceRequest :=
  (decodeAll 1 decodeResourceSpans buf.reader).map .mk

def decodeExportMetricsServiceRequest (buf : Uint8Array) :
    Except DecodeError JsonExportMetricsServiceRequest :=
  (decodeAll 1 decodeResourceMetrics buf.reader).map .mk

theorem Uint8Array.holds (buf : Uint8Array) : buf.reader.Holds buf.bytes where
  size := rfl
  bounded := buf.bounded
  byte i _ := by simp [Uint8Array.reader]

end Requests

end OpenWop.Otlp
