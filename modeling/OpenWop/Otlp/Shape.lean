import OpenWop.Otlp.Decode

/-!
# What a message says

A message is a list of fields, and its value in the shape of the decoder is read off the
list. The rules of proto3 and those of the decoder differ in four things only: which of
several fields of a oneof counts, how an integer and a text are read, and which parent a
span has. On the messages that are valid the decoder computes the shape under its rules.
-/

namespace OpenWop.Otlp

open OpenWop.Js PbReader

section Fields

/-- The fields of a message that has no flaw. -/
def fields (m : List UInt8) : List Field := (fieldsOf m).toOption.getD []

/-- The bytes of a LEN field with that number. -/
def lenBytes (number : Nat) (f : Field) : Option (List UInt8) :=
  if f.number = number then
    match f.payload with
    | .len bytes => some bytes
    | _ => none
  else none

/-- The bytes of an I64 field with that number. -/
def i64Bytes (number : Nat) (f : Field) : Option (List UInt8) :=
  if f.number = number then
    match f.payload with
    | .i64 bytes => some bytes
    | _ => none
  else none

/-- The LEN fields with that number. -/
def messages (number : Nat) (m : List UInt8) : List (List UInt8) :=
  (fields m).filterMap (lenBytes number)

/-- The unsigned words with that number. -/
def words (number : Nat) (m : List UInt8) : List Nat :=
  ((fields m).filterMap (i64Bytes number)).map littleEndian

end Fields

/-- The signed word of an unsigned one. -/
def signedWord (n : Nat) : Int := if 2 ^ 63 ≤ n then (n : Int) - 2 ^ 64 else n

/-- How the fields are read where proto3 and the decoder differ. -/
structure Dialect where
  pick : List JsonAnyValue → Option JsonAnyValue
  int : Nat → Int
  text : List UInt8 → JsString
  parent : List JsString → Option JsString

/-- Of a field that is not repeated the last one counts, an int64 is signed, and a span
without a parent has the empty one. -/
def proto3 : Dialect where
  pick := List.getLast?
  int := signedWord
  text := utf8Text
  parent ids := ids.getLast?.filter (! ·.isEmpty)

/-- The first field of a oneof counts, an int64 is not signed, a byte order mark is dropped,
and an empty parent does not count. -/
def decoderDialect : Dialect where
  pick := List.head?
  int n := n
  text := textDecode
  parent ids := (ids.filter (! ·.isEmpty)).getLast?

section Shapes

variable (D : Dialect)

def keyValueShapeWith (anyShape : List UInt8 → JsonAnyValue) (m : List UInt8) : JsonKeyValue :=
  (((messages 1 m).getLast?.map D.text).getD [], anyShape ((messages 2 m).getLast?.getD []))

/-- What a field says of an attribute value. -/
def anyValueContent (anyShape : List UInt8 → JsonAnyValue) (f : Field) : Option JsonAnyValue :=
  match f.number, f.payload with
  | 1, .len s => some (.stringValue (D.text s))
  | 2, .varint n => some (.boolValue (n != 0))
  | 3, .varint n => some (.intValue (integerText (D.int n)))
  | 4, .i64 b => some (.doubleValue (doubleOfBits (littleEndian b)))
  | 5, .len m => some (.arrayValue ((messages 1 m).map anyShape))
  | 6, .len m => some (.kvlistValue ((messages 1 m).map (keyValueShapeWith D anyShape)))
  | 7, .len b => some (.bytesValue (hexText b))
  | _, _ => none

def anyValueShapeUpTo : Nat → List UInt8 → JsonAnyValue
  | 0, _ => .empty
  | depth + 1, m =>
    (D.pick ((fields m).filterMap (anyValueContent D (anyValueShapeUpTo depth)))).getD .empty

def anyValueShape (m : List UInt8) : JsonAnyValue := anyValueShapeUpTo D (m.length + 1) m

def keyValueShape (m : List UInt8) : JsonKeyValue := keyValueShapeWith D (anyValueShape D) m

def resourceShape (m : List UInt8) : JsonResource := ⟨(messages 1 m).map (keyValueShape D)⟩

def spanShape (m : List UInt8) : JsonSpan where
  traceId := (messages 1 m).getLast?.map hexText
  spanId := (messages 2 m).getLast?.map hexText
  parentSpanId := D.parent ((messages 4 m).map hexText)
  name := (messages 5 m).getLast?.map D.text
  startTimeUnixNano := (words 7 m).getLast?.map decimal
  endTimeUnixNano := (words 8 m).getLast?.map decimal
  attributes := someAttributes ((messages 9 m).map (keyValueShape D))

def scopeSpansShape (m : List UInt8) : JsonScopeSpans := ⟨(messages 2 m).map (spanShape D)⟩

def resourceSpansShape (m : List UInt8) : JsonResourceSpans where
  resource := (messages 1 m).getLast?.map (resourceShape D)
  scopeSpans := (messages 2 m).map (scopeSpansShape D)

/-- The value of a trace export. -/
def traceShape (m : List UInt8) : JsonExportTraceServiceRequest :=
  ⟨(messages 1 m).map (resourceSpansShape D)⟩

def dataPointShape (m : List UInt8) : JsonNumberDataPoint where
  attributes := someAttributes ((messages 7 m).map (keyValueShape D))
  asDouble := (words 4 m).getLast?.map doubleOfBits
  asInt := (words 6 m).getLast?.map fun n => integerText (signedWord n)

def dataPointsShape (m : List UInt8) : JsonDataPoints := ⟨(messages 1 m).map (dataPointShape D)⟩

def metricShape (m : List UInt8) : JsonMetric where
  name := (messages 1 m).getLast?.map D.text
  description := (messages 2 m).getLast?.map D.text
  unit := (messages 3 m).getLast?.map D.text
  gauge := (messages 5 m).getLast?.map (dataPointsShape D)
  sum := (messages 7 m).getLast?.map (dataPointsShape D)
  histogram := (messages 9 m).getLast?.map (dataPointsShape D)

def scopeMetricsShape (m : List UInt8) : JsonScopeMetrics := ⟨(messages 2 m).map (metricShape D)⟩

def resourceMetricsShape (m : List UInt8) : JsonResourceMetrics where
  resource := (messages 1 m).getLast?.map (resourceShape D)
  scopeMetrics := (messages 2 m).map (scopeMetricsShape D)

/-- The value of a metric export. -/
def metricsShape (m : List UInt8) : JsonExportMetricsServiceRequest :=
  ⟨(messages 1 m).map (resourceMetricsShape D)⟩

end Shapes

section Valid

/-- The message has no flaw, and its fields meet the schema. -/
def ValidMessage (schema : Field → Prop) (m : List UInt8) : Prop :=
  ∃ fs, fieldsOf m = .ok fs ∧ ∀ f ∈ fs, schema f

def IsVarint (f : Field) : Prop := ∃ n, f.payload = .varint n

def IsI64 (f : Field) : Prop := ∃ bytes, f.payload = .i64 bytes

/-- A LEN field whose bytes meet the condition. -/
def IsLen (valid : List UInt8 → Prop) (f : Field) : Prop :=
  ∃ bytes, f.payload = .len bytes ∧ valid bytes

/-- The bytes are the UTF-8 of a text. -/
def IsUtf8 (bytes : List UInt8) : Prop :=
  (utf8Decode bytes).flatMap String.utf8EncodeChar = bytes

def IsBytes (_ : List UInt8) : Prop := True

/-- Fields with that number are messages of a kind; the message has no other fields it knows. -/
def Repeated (number : Nat) (valid : List UInt8 → Prop) (f : Field) : Prop :=
  f.number = number → IsLen valid f

def keyValueSchema (validAny : List UInt8 → Prop) (f : Field) : Prop :=
  match f.number with
  | 1 => IsLen IsUtf8 f
  | 2 => IsLen validAny f
  | _ => True

def anyValueSchema (validAny : List UInt8 → Prop) (f : Field) : Prop :=
  match f.number with
  | 1 => IsLen IsUtf8 f
  | 2 => IsVarint f
  | 3 => IsVarint f
  | 4 => IsI64 f
  | 5 => IsLen (ValidMessage (Repeated 1 validAny)) f
  | 6 => IsLen (ValidMessage (Repeated 1 (ValidMessage (keyValueSchema validAny)))) f
  | 7 => IsLen IsBytes f
  | _ => True

def ValidAnyValueUpTo : Nat → List UInt8 → Prop
  | 0, _ => False
  | depth + 1, m => ValidMessage (anyValueSchema (ValidAnyValueUpTo depth)) m

def ValidAnyValue (m : List UInt8) : Prop := ValidAnyValueUpTo (m.length + 1) m

def ValidKeyValue : List UInt8 → Prop := ValidMessage (keyValueSchema ValidAnyValue)

def ValidResource : List UInt8 → Prop := ValidMessage (Repeated 1 ValidKeyValue)

def spanSchema (f : Field) : Prop :=
  match f.number with
  | 1 | 2 | 4 => IsLen IsBytes f
  | 5 => IsLen IsUtf8 f
  | 7 | 8 => IsI64 f
  | 9 => IsLen ValidKeyValue f
  | _ => True

def ValidSpan : List UInt8 → Prop := ValidMessage spanSchema

def ValidScopeSpans : List UInt8 → Prop := ValidMessage (Repeated 2 ValidSpan)

def resourceSpansSchema (f : Field) : Prop :=
  match f.number with
  | 1 => IsLen ValidResource f
  | 2 => IsLen ValidScopeSpans f
  | _ => True

def ValidResourceSpans : List UInt8 → Prop := ValidMessage resourceSpansSchema

/-- The bytes are a proto3 encoding of a trace export. -/
def ValidTraceRequest : List UInt8 → Prop := ValidMessage (Repeated 1 ValidResourceSpans)

def dataPointSchema (f : Field) : Prop :=
  match f.number with
  | 4 | 6 => IsI64 f
  | 7 => IsLen ValidKeyValue f
  | _ => True

def ValidDataPoint : List UInt8 → Prop := ValidMessage dataPointSchema

def ValidDataPoints : List UInt8 → Prop := ValidMessage (Repeated 1 ValidDataPoint)

def metricSchema (f : Field) : Prop :=
  match f.number with
  | 1 | 2 | 3 => IsLen IsUtf8 f
  | 5 | 7 | 9 => IsLen ValidDataPoints f
  | _ => True

def ValidMetric : List UInt8 → Prop := ValidMessage metricSchema

def ValidScopeMetrics : List UInt8 → Prop := ValidMessage (Repeated 2 ValidMetric)

def resourceMetricsSchema (f : Field) : Prop :=
  match f.number with
  | 1 => IsLen ValidResource f
  | 2 => IsLen ValidScopeMetrics f
  | _ => True

def ValidResourceMetrics : List UInt8 → Prop := ValidMessage resourceMetricsSchema

/-- The bytes are a proto3 encoding of a metric export. -/
def ValidMetricsRequest : List UInt8 → Prop := ValidMessage (Repeated 1 ValidResourceMetrics)

end Valid

section Fields

variable {m bytes : List UInt8} {f : Field} {p : Field × List UInt8}

theorem fieldOf_cases (h : fieldOf bytes = .ok p) : ∃ tag after payload rest,
    tagOf bytes = .ok (tag, after) ∧ payloadOf tag.wireType after = .ok (payload, rest) ∧
      p = (⟨tag.fieldNumber, payload⟩, rest) := by
  unfold fieldOf at h
  cases ht : tagOf bytes with
  | error e => simp [ht, Except.bind] at h
  | ok q =>
    simp only [ht, Except.bind] at h
    cases hp : payloadOf q.1.wireType q.2 with
    | error e => simp [hp, Except.map] at h
    | ok q' =>
      simp only [hp, Except.map] at h
      cases h
      exact ⟨q.1, q.2, q'.1, q'.2, rfl, hp, rfl⟩

theorem tagOf_length {q : Tag × List UInt8} (h : tagOf bytes = .ok q) :
    q.2.length < bytes.length := by
  unfold tagOf at h
  cases hv : varintOf 10 bytes with
  | error e => simp [hv, Except.bind] at h
  | ok v =>
    simp only [hv, Except.bind] at h
    split at h
    · cases h
      exact varintOf_length hv
    · cases h

theorem fieldOf_length (h : fieldOf bytes = .ok p) : p.2.length < bytes.length := by
  obtain ⟨tag, after, payload, rest, ht, hp, rfl⟩ := fieldOf_cases h
  exact (payloadOf_length hp).trans_lt (tagOf_length ht)

/-- The fields of a message are its first one and those of what follows it. -/
theorem fieldsUpTo_cons {n : Nat} {fs : List Field} (hne : bytes ≠ [])
    (h : fieldsUpTo n bytes = .ok fs) : ∃ k f rest fs', n = k + 1 ∧ fieldOf bytes = .ok (f, rest) ∧
      fieldsUpTo k rest = .ok fs' ∧ fs = f :: fs' := by
  obtain ⟨b, bs, rfl⟩ := List.exists_cons_of_ne_nil hne
  cases n with
  | zero => cases h
  | succ k =>
    rw [fieldsUpTo] at h
    cases hf : fieldOf (b :: bs) with
    | error e => simp [hf, Except.bind] at h
    | ok q =>
      simp only [hf, Except.bind] at h
      cases hr : fieldsUpTo k q.2 with
      | error e => simp [hr, Except.map] at h
      | ok fs' =>
        simp only [hr, Except.map] at h
        cases h
        exact ⟨k, q.1, q.2, fs', rfl, rfl, hr, rfl⟩

theorem fields_eq {fs : List Field} (h : fieldsOf m = .ok fs) : fields m = fs := by
  rw [fields, h]
  rfl

end Fields

section Loop

variable {σ : Type} {r : PbReader} {m : List UInt8}

/-- What the fields of a message do to a state, up to one that ends it. -/
def runFields (step : σ → Field → σ ⊕ σ) : σ → List Field → σ
  | s, [] => s
  | s, f :: fs => (step s f).elim (fun s' => runFields step s' fs) id

/-- The handler does with a field of the format what the step says. -/
def Follows (handle : Handler σ) (step : σ → Field → σ ⊕ σ) (schema : Field → Prop) : Prop :=
  ∀ s tag payload r bytes rest, r.Holds bytes → payloadOf tag.wireType bytes = .ok (payload, rest) →
    schema ⟨tag.fieldNumber, payload⟩ →
    (∃ s' r', step s ⟨tag.fieldNumber, payload⟩ = .inl s' ∧ handle s tag r = .ok (.next s' r') ∧
      r'.Holds rest) ∨
    ∃ s', step s ⟨tag.fieldNumber, payload⟩ = .inr s' ∧ handle s tag r = .ok (.stop s')

theorem turns_eq {handle : Handler σ} {step : σ → Field → σ ⊕ σ} {schema : Field → Prop}
    (hstep : Follows handle step schema) {n : Nat} {s : σ} {fs : List Field} (h : r.Holds m)
    (hf : fieldsUpTo n m = .ok fs) (hs : ∀ f ∈ fs, schema f) :
    turns handle n s r = .ok (runFields step s fs) := by
  induction n generalizing s r m fs with
  | zero =>
    cases m with
    | nil =>
      cases hf
      have hmore : ¬ r.hasMore = true := by simp [h.hasMore]
      rw [turns, if_neg hmore]
      rfl
    | cons b bs => cases hf
  | succ n ih =>
    by_cases hm : m = []
    · subst hm
      cases hf
      have hmore : ¬ r.hasMore = true := by simp [h.hasMore]
      rw [turns, if_neg hmore]
      rfl
    · obtain ⟨k, f, rest, fs', hk, hfield, hrest, rfl⟩ := fieldsUpTo_cons hm hf
      obtain rfl : n = k := by omega
      obtain ⟨tag, after, payload, rest', htag, hpayload, heq⟩ := fieldOf_cases hfield
      cases heq
      obtain ⟨r', hr', hh⟩ := readTag_ok h htag
      rw [List.forall_mem_cons] at hs
      rw [turns, if_pos (h.hasMore.mpr hm), runFields]
      rcases hstep s tag payload r' after rest hh hpayload hs.1 with
        ⟨s', r'', hs', hhandle, hh'⟩ | ⟨s', hs', hhandle⟩
      · simp only [hr', hhandle, hs', bind, Except.bind, Sum.elim_inl]
        exact ih hh' hrest hs.2
      · simp only [hr', hhandle, hs', bind, Except.bind, Sum.elim_inr, id, pure, Except.pure]

/-- The loop over the fields of a valid message. -/
theorem each_eq {handle : Handler σ} {step : σ → Field → σ ⊕ σ} {schema : Field → Prop}
    (hstep : Follows handle step schema) (s : σ) (h : r.Holds m) (hv : ValidMessage schema m) :
    each handle s r = .ok (runFields step s (fields m)) := by
  obtain ⟨fs, hf, hs⟩ := hv
  rw [fields_eq hf, each, ← h.size]
  exact turns_eq hstep h hf hs

end Loop

section Payloads

variable {r : PbReader} {bytes rest b : List UInt8} {wireType n : Nat}

/-- The payload shows the wire type. -/
theorem wireType_of_payload {payload : Payload}
    (h : payloadOf wireType bytes = .ok (payload, rest)) :
    match payload with
    | .varint _ => wireType = wireVarint
    | .i64 _ => wireType = wireI64
    | .len _ => wireType = wireLen
    | .i32 _ => wireType = wireI32 := by
  unfold payloadOf at h
  split at h
  · next hw =>
    cases hv : varintOf 10 bytes with
    | error e => simp [hv, Except.bind] at h
    | ok q =>
      simp only [hv, Except.bind] at h
      split at h
      · cases h
        exact hw
      · cases h
  split at h
  · next hw =>
    cases ht : takeBytes 8 bytes with
    | error e => simp [ht, Except.map] at h
    | ok q =>
      simp only [ht, Except.map] at h
      cases h
      exact hw
  split at h
  · next hw =>
    cases hv : varintOf 10 bytes with
    | error e => simp [hv, Except.bind] at h
    | ok q =>
      cases ht : takeBytes q.1 q.2 with
      | error e => simp [hv, ht, Except.bind, Except.map] at h
      | ok q' =>
        simp only [hv, ht, Except.bind, Except.map] at h
        cases h
        exact hw
  split at h
  · next hw =>
    cases ht : takeBytes 4 bytes with
    | error e => simp [ht, Except.map] at h
    | ok q =>
      simp only [ht, Except.map] at h
      cases h
      exact hw
  · cases h

theorem readVarint_payload (h : r.Holds bytes)
    (hp : payloadOf wireType bytes = .ok (.varint n, rest)) :
    ∃ r', r.readVarint = .ok (n, r') ∧ r'.Holds rest := by
  obtain rfl : wireType = wireVarint := wireType_of_payload hp
  simp only [payloadOf, if_true] at hp
  cases hv : varintOf 10 bytes with
  | error f => simp [hv, Except.bind] at hp
  | ok q =>
    simp only [hv, Except.bind] at hp
    split at hp
    · cases hp
      obtain ⟨r', hr', hh, _⟩ := readVarint_ok h hv
      exact ⟨r', hr', hh⟩
    · cases hp

theorem readLengthDelimited_payload (h : r.Holds bytes)
    (hp : payloadOf wireType bytes = .ok (.len b, rest)) :
    ∃ r', r.readLengthDelimited = .ok (b, r') ∧ r'.Holds rest := by
  obtain rfl : wireType = wireLen := wireType_of_payload hp
  exact readLengthDelimited_ok h hp

theorem bigintNumber_eq_zero : bigintNumber n = 0 ↔ n = 0 := by
  have h : bigintNumber n ≤ 0 ↔ n ≤ 0 := bigintNumber_le_iff (by norm_num)
  simpa using h

end Payloads

section Turns

variable {α σ : Type} {r : PbReader} {bytes rest b : List UInt8} {s : σ}
  {wireType : Nat} {payload : Payload}

/-- The turn goes on with the state, at what follows the field. -/
def GoesOn (x : Except DecodeError (Turn σ)) (s : σ) (rest : List UInt8) : Prop :=
  ∃ r', x = .ok (.next s r') ∧ r'.Holds rest

/-- The read gives what is there, and stands at what follows. -/
def Gives (x : Except DecodeError (α × PbReader)) (a : α) (rest : List UInt8) : Prop :=
  ∃ r', x = .ok (a, r') ∧ r'.Holds rest

theorem Gives.continuing {x : Except DecodeError (α × PbReader)} {a : α} (h : Gives x a rest)
    (set : α → σ) : GoesOn (continuing x set) (set a) rest := by
  obtain ⟨r', rfl, hh⟩ := h
  exact ⟨r', rfl, hh⟩

theorem Gives.returning {x : Except DecodeError (α × PbReader)} {a : α} (h : Gives x a rest)
    (set : α → σ) : returning x set = .ok (.stop (set a)) := by
  obtain ⟨r', rfl, _⟩ := h
  rfl

theorem Gives.map {x : Except DecodeError (α × PbReader)} {a : α} {β : Type} (h : Gives x a rest)
    (g : α → β) : Gives (x.map fun p => (g p.1, p.2)) (g a) rest := by
  obtain ⟨r', rfl, hh⟩ := h
  exact ⟨r', rfl, hh⟩

theorem skipping_goesOn (tag : Tag) (h : r.Holds bytes)
    (hp : payloadOf tag.wireType bytes = .ok (payload, rest)) :
    GoesOn (skipping s tag r) s rest := by
  obtain ⟨r', hr', hh⟩ := skip_ok h hp
  exact ⟨r', by rw [skipping, hr']; rfl, hh⟩

theorem readString_gives (h : r.Holds bytes)
    (hp : payloadOf wireType bytes = .ok (.len b, rest)) :
    Gives r.readString (textDecode b) rest :=
  Gives.map (readLengthDelimited_payload h hp) textDecode

theorem readBytesAsHex_gives (h : r.Holds bytes)
    (hp : payloadOf wireType bytes = .ok (.len b, rest)) :
    Gives r.readBytesAsHex (hexText b) rest :=
  Gives.map (readLengthDelimited_payload h hp) hexText

theorem readFixed64Uint_gives (h : r.Holds bytes)
    (hp : payloadOf wireType bytes = .ok (.i64 b, rest)) :
    Gives r.readFixed64Uint (littleEndian b) rest := by
  obtain rfl : wireType = wireI64 := wireType_of_payload hp
  exact readFixed64Uint_ok h hp

theorem readDouble_gives (h : r.Holds bytes)
    (hp : payloadOf wireType bytes = .ok (.i64 b, rest)) :
    Gives r.readDouble (doubleOfBits (littleEndian b)) rest := by
  obtain rfl : wireType = wireI64 := wireType_of_payload hp
  exact readDouble_ok h hp

/-- The decoder computes the shape of every valid message. -/
def Computes (decode : PbReader → Except DecodeError α) (valid : List UInt8 → Prop)
    (shape : List UInt8 → α) : Prop :=
  ∀ r m, r.Holds m → valid m → decode r = .ok (shape m)

theorem embedded_gives {decode : PbReader → Except DecodeError α} {valid : List UInt8 → Prop}
    {shape : List UInt8 → α} (hd : Computes decode valid shape) (h : r.Holds bytes)
    (hp : payloadOf wireType bytes = .ok (.len b, rest)) (hb : valid b) :
    Gives (embedded decode r) (shape b) rest := by
  obtain rfl : wireType = wireLen := wireType_of_payload hp
  obtain ⟨m, r', hr', hm, hh⟩ := readMessage_ok h hp
  refine ⟨r', ?_, hh⟩
  simp only [embedded, hr', hd m b hm hb, bind, Except.bind, pure, Except.pure]

end Turns

section Steps

variable {α β σ : Type} {r : PbReader} {m : List UInt8}

/-- A state that every field takes further. -/
theorem runFields_inl (g : σ → Field → σ) (s : σ) (fs : List Field) :
    runFields (fun s f => .inl (g s f)) s fs = fs.foldl g s := by
  induction fs generalizing s with
  | nil => rfl
  | cons f fs ih => exact ih _

/-- Every field takes the state further, as the step says. -/
def Advances (handle : Handler σ) (g : σ → Field → σ) (schema : Field → Prop) : Prop :=
  ∀ s tag payload r bytes rest, r.Holds bytes → payloadOf tag.wireType bytes = .ok (payload, rest) →
    schema ⟨tag.fieldNumber, payload⟩ →
    GoesOn (handle s tag r) (g s ⟨tag.fieldNumber, payload⟩) rest

theorem Advances.each_eq {handle : Handler σ} {g : σ → Field → σ} {schema : Field → Prop}
    (hg : Advances handle g schema) (s : σ) (h : r.Holds m) (hv : ValidMessage schema m) :
    each handle s r = .ok ((fields m).foldl g s) := by
  rw [← runFields_inl]
  refine OpenWop.Otlp.each_eq (fun s tag payload r bytes rest hr hp hs => Or.inl ?_) s h hv
  obtain ⟨r', hr', hh⟩ := hg s tag payload r bytes rest hr hp hs
  exact ⟨_, r', rfl, hr', hh⟩

/-- The last of the fields that say something. -/
theorem foldl_later (g : Field → Option β) (init : Option β) (fs : List Field) :
    fs.foldl (fun o f => (g f).or o) init = ((fs.filterMap g).getLast?).or init := by
  induction fs generalizing init with
  | nil => rfl
  | cons f fs ih =>
    rw [List.foldl_cons, ih]
    cases hf : g f with
    | none => simp [hf]
    | some b =>
      rw [List.filterMap_cons_some hf, List.getLast?_cons]
      cases (fs.filterMap g).getLast? <;> rfl

theorem foldl_pushed (g : Field → Option β) (init : List β) (fs : List Field) :
    fs.foldl (fun l f => l ++ (g f).toList) init = init ++ fs.filterMap g := by
  induction fs generalizing init with
  | nil => simp
  | cons f fs ih =>
    rw [List.foldl_cons, ih]
    cases hf : g f with
    | none => simp [hf]
    | some b => simp [hf]

theorem filterMap_map_lenBytes (number : Nat) (g : List UInt8 → β) (m : List UInt8) :
    (fields m).filterMap (fun f => (lenBytes number f).map g) = (messages number m).map g :=
  (List.map_filterMap ..).symm

/-- What each LEN field with that number says, in order. -/
theorem computes_decodeAll {decode : PbReader → Except DecodeError α} {valid : List UInt8 → Prop}
    {shape : List UInt8 → α} (hd : Computes decode valid shape) (number : Nat) :
    Computes (decodeAll number decode) (ValidMessage (Repeated number valid))
      fun m => (messages number m).map shape := by
  intro r m h hv
  have hstep : Advances (pushing number decode)
      (fun values f => values ++ ((lenBytes number f).map shape).toList)
      (Repeated number valid) := by
    intro values tag payload r bytes rest hr hp hs
    unfold pushing
    split
    · next hn =>
      obtain ⟨b, hb, hvalid⟩ := hs hn.1
      dsimp only at hb
      subst hb
      have hread := (embedded_gives hd hr hp hvalid).continuing fun v => values ++ [v]
      simpa [lenBytes, hn.1] using hread
    · next hn =>
      have hnone : lenBytes number ⟨tag.fieldNumber, payload⟩ = none := by
        unfold lenBytes
        split
        · next hnum =>
          cases payload with
          | len b => exact absurd ⟨hnum, wireType_of_payload hp⟩ hn
          | varint n => rfl
          | i64 b => rfl
          | i32 b => rfl
        · rfl
      have hread := skipping_goesOn _ (s := values) hr hp
      simpa [hnone] using hread
  rw [decodeAll, hstep.each_eq [] h hv, foldl_pushed, filterMap_map_lenBytes]
  rfl

end Steps

section Decoders

variable {r : PbReader} {m : List UInt8}

theorem foldl_getD {β : Type} (g : Field → Option β) (init : β) (fs : List Field) :
    fs.foldl (fun o f => (g f).getD o) init = ((fs.filterMap g).getLast?).getD init := by
  induction fs generalizing init with
  | nil => rfl
  | cons f fs ih =>
    rw [List.foldl_cons, ih]
    cases hf : g f with
    | none => simp [hf]
    | some b => simp [hf, List.getLast?_cons]

def keyValueStep (anyShape : List UInt8 → JsonAnyValue) (kv : JsonKeyValue) (f : Field) :
    JsonKeyValue :=
  (((lenBytes 1 f).map textDecode).getD kv.1, ((lenBytes 2 f).map anyShape).getD kv.2)

theorem foldl_keyValueStep (anyShape : List UInt8 → JsonAnyValue) (kv : JsonKeyValue)
    (fs : List Field) : fs.foldl (keyValueStep anyShape) kv =
      (fs.foldl (fun o f => ((lenBytes 1 f).map textDecode).getD o) kv.1,
        fs.foldl (fun o f => ((lenBytes 2 f).map anyShape).getD o) kv.2) := by
  induction fs generalizing kv with
  | nil => rfl
  | cons f fs ih => exact ih _

theorem advances_keyValue {decodeAny : PbReader → Except DecodeError JsonAnyValue}
    {validAny : List UInt8 → Prop} {anyShape : List UInt8 → JsonAnyValue}
    (hany : Computes decodeAny validAny anyShape) :
    Advances (keyValueField decodeAny) (keyValueStep anyShape) (keyValueSchema validAny) := by
  rintro kv ⟨number, wireType⟩ payload r bytes rest hr hp hs
  dsimp only at hp hs ⊢
  unfold keyValueSchema at hs
  dsimp only at hs
  split at hs
  · obtain ⟨b, rfl, _⟩ := hs
    have hw : wireType = wireLen := wireType_of_payload hp
    have hread := (readString_gives hr hp).continuing fun key => (key, kv.2)
    simpa [keyValueField, hw, keyValueStep, lenBytes] using hread
  · obtain ⟨b, rfl, hb⟩ := hs
    have hw : wireType = wireLen := wireType_of_payload hp
    have hread := (embedded_gives hany hr hp hb).continuing
      fun value => (kv.1, value)
    simpa [keyValueField, hw, keyValueStep, lenBytes] using hread
  · next h1 h2 =>
    have h1 : ¬ number = 1 := h1
    have h2 : ¬ number = 2 := h2
    have hread := skipping_goesOn ⟨number, wireType⟩ (s := kv) hr hp
    simpa [keyValueField, h1, h2, keyValueStep, lenBytes] using hread

theorem computes_keyValue {decodeAny : PbReader → Except DecodeError JsonAnyValue}
    {validAny : List UInt8 → Prop} {anyShape : List UInt8 → JsonAnyValue}
    (hany : Computes decodeAny validAny anyShape) (hnil : anyShape [] = .empty) :
    Computes (decodeKeyValueWith decodeAny) (ValidMessage (keyValueSchema validAny))
      (keyValueShapeWith decoderDialect anyShape) := by
  intro r m h hv
  rw [decodeKeyValueWith, (advances_keyValue hany).each_eq _ h hv, foldl_keyValueStep, foldl_getD,
    foldl_getD, filterMap_map_lenBytes, filterMap_map_lenBytes, keyValueShapeWith,
    List.getLast?_map, List.getLast?_map]
  congr 2
  cases (messages 2 m).getLast? with
  | none => exact hnil.symm
  | some b => rfl

/-- The first field that says something. -/
theorem runFields_first (g : Field → Option JsonAnyValue) (fs : List Field) :
    runFields (fun v f => (g f).elim (.inl v) .inr) .empty fs =
      ((fs.filterMap g).head?).getD .empty := by
  induction fs with
  | nil => rfl
  | cons f fs ih =>
    rw [runFields]
    cases hf : g f with
    | none => simpa [hf] using ih
    | some v => simp [hf]

theorem follows_anyValue {decodeAny : PbReader → Except DecodeError JsonAnyValue}
    {validAny : List UInt8 → Prop} {anyShape : List UInt8 → JsonAnyValue}
    (hany : Computes decodeAny validAny anyShape) (hnil : anyShape [] = .empty) :
    Follows (anyValueField decodeAny)
      (fun v f => (anyValueContent decoderDialect anyShape f).elim (.inl v) .inr)
      (anyValueSchema validAny) := by
  rintro v ⟨number, wireType⟩ payload r bytes rest hr hp hs
  dsimp only at hp hs ⊢
  unfold anyValueSchema at hs
  dsimp only at hs
  split at hs
  · obtain ⟨b, rfl, _⟩ := hs
    exact Or.inr ⟨_, rfl, (readString_gives hr hp).returning _⟩
  · obtain ⟨n, hn⟩ := hs
    dsimp only at hn
    subst hn
    obtain ⟨r', hr', hh⟩ := readVarint_payload hr hp
    refine Or.inr ⟨_, rfl, ?_⟩
    have hzero : (bigintNumber n != 0) = (n != 0) := by
      rw [bne, bne, Bool.beq_eq_decide_eq, Bool.beq_eq_decide_eq]
      simp [bigintNumber_eq_zero]
    simp [anyValueField, returning, readVarintNumber, hr', Except.map, hzero]
  · obtain ⟨n, hn⟩ := hs
    dsimp only at hn
    subst hn
    exact Or.inr ⟨_, rfl, Gives.returning (readVarint_payload hr hp)
      fun n => JsonAnyValue.intValue (integerText n)⟩
  · obtain ⟨b, hb⟩ := hs
    dsimp only at hb
    subst hb
    exact Or.inr ⟨_, rfl, (readDouble_gives hr hp).returning _⟩
  · obtain ⟨b, rfl, hb⟩ := hs
    have hread := embedded_gives (computes_decodeAll hany 1) hr hp hb
    exact Or.inr ⟨_, rfl, hread.returning _⟩
  · obtain ⟨b, rfl, hb⟩ := hs
    have hread := embedded_gives
      (computes_decodeAll (computes_keyValue hany hnil) 1) hr hp hb
    exact Or.inr ⟨_, rfl, hread.returning _⟩
  · obtain ⟨b, rfl, _⟩ := hs
    exact Or.inr ⟨_, rfl, (readBytesAsHex_gives hr hp).returning _⟩
  · next h1 h2 h3 h4 h5 h6 h7 =>
    obtain ⟨r', hr', hh⟩ := skipping_goesOn ⟨number, wireType⟩ (s := v) hr hp
    have hnone : anyValueContent decoderDialect anyShape ⟨number, payload⟩ = none := by
      unfold anyValueContent
      split <;> simp_all
    refine Or.inl ⟨v, r', by rw [hnone]; rfl, ?_, hh⟩
    unfold anyValueField
    dsimp only
    split
    all_goals first | exact hr' | contradiction

theorem anyValueShapeUpTo_nil (depth : Nat) :
    anyValueShapeUpTo decoderDialect depth [] = .empty := by
  cases depth <;> rfl

theorem computes_anyValueUpTo (depth : Nat) : Computes (decodeAnyValueUpTo depth)
    (ValidAnyValueUpTo depth) (anyValueShapeUpTo decoderDialect depth) := by
  induction depth with
  | zero => exact fun r m _ hv => hv.elim
  | succ depth ih =>
    intro r m h hv
    rw [decodeAnyValueUpTo, each_eq (follows_anyValue ih (anyValueShapeUpTo_nil depth)) _ h hv,
      runFields_first]
    rfl

theorem computes_anyValue :
    Computes decodeAnyValue ValidAnyValue (anyValueShape decoderDialect) := by
  intro r m h hv
  rw [decodeAnyValue, ← h.size]
  exact computes_anyValueUpTo _ r m h hv

theorem computes_keyValueMessage :
    Computes decodeKeyValue ValidKeyValue (keyValueShape decoderDialect) :=
  computes_keyValue computes_anyValue (anyValueShapeUpTo_nil _)

end Decoders

section Traces

theorem computes_map {α β : Type} {decode : PbReader → Except DecodeError α}
    {valid : List UInt8 → Prop} {shape : List UInt8 → α} (hd : Computes decode valid shape)
    (g : α → β) : Computes (fun r => (decode r).map g) valid fun m => g (shape m) := by
  intro r m h hv
  dsimp only
  rw [hd r m h hv]
  rfl

theorem computes_resource :
    Computes decodeResource ValidResource (resourceShape decoderDialect) :=
  computes_map (computes_decodeAll computes_keyValueMessage 1) _

def spanStep (s : SpanState) (f : Field) : SpanState where
  span :=
    { traceId := ((lenBytes 1 f).map hexText).or s.span.traceId
      spanId := ((lenBytes 2 f).map hexText).or s.span.spanId
      parentSpanId := (((lenBytes 4 f).map hexText).filter (! ·.isEmpty)).or s.span.parentSpanId
      name := ((lenBytes 5 f).map textDecode).or s.span.name
      startTimeUnixNano := ((i64Bytes 7 f).map fun b => decimal (littleEndian b)).or
        s.span.startTimeUnixNano
      endTimeUnixNano := ((i64Bytes 8 f).map fun b => decimal (littleEndian b)).or
        s.span.endTimeUnixNano
      attributes := s.span.attributes }
  attributes := (lenBytes 9 f).elim s.attributes fun b =>
    s.attributes ++ [keyValueShape decoderDialect b]

theorem foldl_spanStep (s : SpanState) (fs : List Field) : fs.foldl spanStep s =
    { span :=
        { traceId := fs.foldl (fun o f => ((lenBytes 1 f).map hexText).or o) s.span.traceId
          spanId := fs.foldl (fun o f => ((lenBytes 2 f).map hexText).or o) s.span.spanId
          parentSpanId := fs.foldl
            (fun o f => (((lenBytes 4 f).map hexText).filter (! ·.isEmpty)).or o)
            s.span.parentSpanId
          name := fs.foldl (fun o f => ((lenBytes 5 f).map textDecode).or o) s.span.name
          startTimeUnixNano := fs.foldl
            (fun o f => ((i64Bytes 7 f).map fun b => decimal (littleEndian b)).or o)
            s.span.startTimeUnixNano
          endTimeUnixNano := fs.foldl
            (fun o f => ((i64Bytes 8 f).map fun b => decimal (littleEndian b)).or o)
            s.span.endTimeUnixNano
          attributes := s.span.attributes }
      attributes := fs.foldl (fun l f => (lenBytes 9 f).elim l fun b =>
        l ++ [keyValueShape decoderDialect b]) s.attributes } := by
  induction fs generalizing s with
  | nil => rfl
  | cons f fs ih => exact ih _

theorem advances_span : Advances spanField spanStep spanSchema := by
  rintro s ⟨number, wireType⟩ payload r bytes rest hr hp hs
  dsimp only at hp hs ⊢
  unfold spanSchema at hs
  dsimp only at hs
  split at hs
  · obtain ⟨b, rfl, _⟩ := hs
    exact (readBytesAsHex_gives hr hp).continuing fun hex =>
      { s with span := { s.span with traceId := hex } }
  · obtain ⟨b, rfl, _⟩ := hs
    exact (readBytesAsHex_gives hr hp).continuing fun hex =>
      { s with span := { s.span with spanId := hex } }
  · obtain ⟨b, rfl, _⟩ := hs
    have hstep : (if (hexText b).length > 0 then
        { s with span := { s.span with parentSpanId := hexText b } } else s) =
          spanStep s ⟨4, .len b⟩ := by
      change _ = { s with span := { s.span with
        parentSpanId := (Option.filter (! List.isEmpty ·) (some (hexText b))).or
          s.span.parentSpanId } }
      cases hexText b with
      | nil => rfl
      | cons u us => rfl
    rw [← hstep]
    exact (readBytesAsHex_gives hr hp).continuing fun hex =>
      if hex.length > 0 then { s with span := { s.span with parentSpanId := hex } } else s
  · obtain ⟨b, rfl, _⟩ := hs
    exact (readString_gives hr hp).continuing fun name =>
      { s with span := { s.span with name := name } }
  · obtain ⟨b, hb⟩ := hs
    dsimp only at hb
    subst hb
    exact (readFixed64Uint_gives hr hp).continuing fun n =>
      { s with span := { s.span with startTimeUnixNano := decimal n } }
  · obtain ⟨b, hb⟩ := hs
    dsimp only at hb
    subst hb
    exact (readFixed64Uint_gives hr hp).continuing fun n =>
      { s with span := { s.span with endTimeUnixNano := decimal n } }
  · obtain ⟨b, rfl, hb⟩ := hs
    exact (embedded_gives computes_keyValueMessage hr hp hb).continuing
      fun kv => { s with attributes := s.attributes ++ [kv] }
  · next h1 h2 h4 h5 h7 h8 h9 =>
    have hstep : spanStep s ⟨number, payload⟩ = s := by
      have hlen : ∀ n, number ≠ n → lenBytes n ⟨number, payload⟩ = none := fun n hn => if_neg hn
      have hi64 : ∀ n, number ≠ n → i64Bytes n ⟨number, payload⟩ = none := fun n hn => if_neg hn
      rw [spanStep, hlen 1 h1, hlen 2 h2, hlen 4 h4, hlen 5 h5, hi64 7 h7, hi64 8 h8, hlen 9 h9]
      rfl
    have hskip := skipping_goesOn ⟨number, wireType⟩ (s := s) hr hp
    rw [hstep]
    unfold spanField
    dsimp only
    split
    all_goals first | exact hskip | contradiction

theorem foldl_elim {β : Type} (g : List UInt8 → β) (number : Nat) (init : List β)
    (fs : List Field) : fs.foldl (fun l f => (lenBytes number f).elim l fun b => l ++ [g b]) init =
      init ++ (fs.filterMap (lenBytes number)).map g := by
  induction fs generalizing init with
  | nil => simp
  | cons f fs ih =>
    rw [List.foldl_cons, ih]
    cases hf : lenBytes number f with
    | none => simp [hf]
    | some b => simp [hf]

theorem filterMap_map_i64Bytes {β : Type} (number : Nat) (g : Nat → β) (m : List UInt8) :
    (fields m).filterMap (fun f => (i64Bytes number f).map fun b => g (littleEndian b)) =
      (words number m).map g := by
  rw [words, List.map_map, List.map_filterMap]
  rfl

theorem computes_span : Computes decodeSpan ValidSpan (spanShape decoderDialect) := by
  intro r m h hv
  have hparent : (fields m).filterMap (fun f => ((lenBytes 4 f).map hexText).filter (! ·.isEmpty)) =
      ((messages 4 m).map hexText).filter (! ·.isEmpty) := by
    rw [← filterMap_map_lenBytes, List.filter_filterMap]
  rw [decodeSpan, advances_span.each_eq _ h hv, foldl_spanStep]
  simp only [foldl_later, foldl_elim, filterMap_map_lenBytes, filterMap_map_i64Bytes, hparent,
    Except.map, emptySpan, Option.or_none, List.nil_append, List.getLast?_map]
  rfl

theorem computes_scopeSpans :
    Computes decodeScopeSpans ValidScopeSpans (scopeSpansShape decoderDialect) :=
  computes_map (computes_decodeAll computes_span 2) _

def resourceSpansStep (s : JsonResourceSpans) (f : Field) : JsonResourceSpans where
  resource := ((lenBytes 1 f).map (resourceShape decoderDialect)).or s.resource
  scopeSpans := (lenBytes 2 f).elim s.scopeSpans fun b =>
    s.scopeSpans ++ [scopeSpansShape decoderDialect b]

theorem foldl_resourceSpansStep (s : JsonResourceSpans) (fs : List Field) :
    fs.foldl resourceSpansStep s =
      { resource := fs.foldl (fun o f => ((lenBytes 1 f).map (resourceShape decoderDialect)).or o)
          s.resource
        scopeSpans := fs.foldl (fun l f => (lenBytes 2 f).elim l fun b =>
          l ++ [scopeSpansShape decoderDialect b]) s.scopeSpans } := by
  induction fs generalizing s with
  | nil => rfl
  | cons f fs ih => exact ih _

theorem advances_resourceSpans :
    Advances resourceSpansField resourceSpansStep resourceSpansSchema := by
  rintro s ⟨number, wireType⟩ payload r bytes rest hr hp hs
  dsimp only at hp hs ⊢
  unfold resourceSpansSchema at hs
  dsimp only at hs
  split at hs
  · obtain ⟨b, rfl, hb⟩ := hs
    have hw : wireType = wireLen := wireType_of_payload hp
    have hread := (embedded_gives computes_resource hr hp hb).continuing
      fun resource => { s with resource := some resource }
    simpa [resourceSpansField, hw, resourceSpansStep, lenBytes] using hread
  · obtain ⟨b, rfl, hb⟩ := hs
    have hw : wireType = wireLen := wireType_of_payload hp
    have hread := (embedded_gives computes_scopeSpans hr hp hb).continuing
      fun v => { s with scopeSpans := s.scopeSpans ++ [v] }
    simpa [resourceSpansField, hw, resourceSpansStep, lenBytes] using hread
  · next h1 h2 =>
    have h1 : ¬ number = 1 := h1
    have h2 : ¬ number = 2 := h2
    have hskip := skipping_goesOn ⟨number, wireType⟩ (s := s) hr hp
    simpa [resourceSpansField, h1, h2, resourceSpansStep, lenBytes] using hskip

theorem computes_resourceSpans :
    Computes decodeResourceSpans ValidResourceSpans (resourceSpansShape decoderDialect) := by
  intro r m h hv
  rw [decodeResourceSpans, advances_resourceSpans.each_eq _ h hv, foldl_resourceSpansStep]
  simp only [foldl_later, foldl_elim, filterMap_map_lenBytes, Option.or_none, List.nil_append,
    List.getLast?_map]
  rfl

/-- The decoder computes the shape of a trace export under its rules. -/
theorem decodeExportTraceServiceRequest_eq (buf : Uint8Array)
    (hv : ValidTraceRequest buf.bytes) :
    decodeExportTraceServiceRequest buf = .ok (traceShape decoderDialect buf.bytes) := by
  rw [decodeExportTraceServiceRequest,
    computes_decodeAll computes_resourceSpans 1 _ _ buf.holds hv]
  rfl

end Traces

section Metrics

def dataPointStep (s : DataPointState) (f : Field) : DataPointState where
  dp :=
    { attributes := s.dp.attributes
      asDouble := ((i64Bytes 4 f).map fun b => doubleOfBits (littleEndian b)).or s.dp.asDouble
      asInt := ((i64Bytes 6 f).map fun b => integerText (signedWord (littleEndian b))).or
        s.dp.asInt }
  attributes := (lenBytes 7 f).elim s.attributes fun b =>
    s.attributes ++ [keyValueShape decoderDialect b]

theorem foldl_dataPointStep (s : DataPointState) (fs : List Field) : fs.foldl dataPointStep s =
    { dp :=
        { attributes := s.dp.attributes
          asDouble := fs.foldl
            (fun o f => ((i64Bytes 4 f).map fun b => doubleOfBits (littleEndian b)).or o)
            s.dp.asDouble
          asInt := fs.foldl
            (fun o f => ((i64Bytes 6 f).map fun b =>
              integerText (signedWord (littleEndian b))).or o) s.dp.asInt }
      attributes := fs.foldl (fun l f => (lenBytes 7 f).elim l fun b =>
        l ++ [keyValueShape decoderDialect b]) s.attributes } := by
  induction fs generalizing s with
  | nil => rfl
  | cons f fs ih => exact ih _

theorem advances_dataPoint : Advances dataPointField dataPointStep dataPointSchema := by
  rintro s ⟨number, wireType⟩ payload r bytes rest hr hp hs
  dsimp only at hp hs ⊢
  unfold dataPointSchema at hs
  dsimp only at hs
  split at hs
  · obtain ⟨b, hb⟩ := hs
    dsimp only at hb
    subst hb
    exact (readDouble_gives hr hp).continuing fun x =>
      { s with dp := { s.dp with asDouble := x } }
  · obtain ⟨b, hb⟩ := hs
    dsimp only at hb
    subst hb
    have hread := (readFixed64Uint_gives hr hp).map signedWord
    exact hread.continuing fun n => { s with dp := { s.dp with asInt := integerText n } }
  · obtain ⟨b, rfl, hb⟩ := hs
    exact (embedded_gives computes_keyValueMessage hr hp hb).continuing
      fun kv => { s with attributes := s.attributes ++ [kv] }
  · next h4 h6 h7 =>
    have hstep : dataPointStep s ⟨number, payload⟩ = s := by
      have hlen : lenBytes 7 ⟨number, payload⟩ = none := if_neg h7
      have hi64 : ∀ n, number ≠ n → i64Bytes n ⟨number, payload⟩ = none := fun n hn => if_neg hn
      rw [dataPointStep, hi64 4 h4, hi64 6 h6, hlen]
      rfl
    have hskip := skipping_goesOn ⟨number, wireType⟩ (s := s) hr hp
    rw [hstep]
    unfold dataPointField
    dsimp only
    split
    all_goals first | exact hskip | contradiction

theorem computes_dataPoint :
    Computes decodeNumberDataPoint ValidDataPoint (dataPointShape decoderDialect) := by
  intro r m h hv
  have hint := filterMap_map_i64Bytes 6 (fun n => integerText (signedWord n)) m
  rw [decodeNumberDataPoint, advances_dataPoint.each_eq _ h hv, foldl_dataPointStep]
  simp only [foldl_later, foldl_elim, filterMap_map_i64Bytes, hint, Except.map, Option.or_none,
    List.nil_append, List.getLast?_map]
  rfl

theorem computes_dataPoints :
    Computes decodeDataPointContainer ValidDataPoints (dataPointsShape decoderDialect) :=
  computes_map (computes_decodeAll computes_dataPoint 1) _

def metricStep (s : JsonMetric) (f : Field) : JsonMetric where
  name := ((lenBytes 1 f).map textDecode).or s.name
  description := ((lenBytes 2 f).map textDecode).or s.description
  unit := ((lenBytes 3 f).map textDecode).or s.unit
  gauge := ((lenBytes 5 f).map (dataPointsShape decoderDialect)).or s.gauge
  sum := ((lenBytes 7 f).map (dataPointsShape decoderDialect)).or s.sum
  histogram := ((lenBytes 9 f).map (dataPointsShape decoderDialect)).or s.histogram

theorem foldl_metricStep (s : JsonMetric) (fs : List Field) : fs.foldl metricStep s =
    { name := fs.foldl (fun o f => ((lenBytes 1 f).map textDecode).or o) s.name
      description := fs.foldl (fun o f => ((lenBytes 2 f).map textDecode).or o) s.description
      unit := fs.foldl (fun o f => ((lenBytes 3 f).map textDecode).or o) s.unit
      gauge := fs.foldl
        (fun o f => ((lenBytes 5 f).map (dataPointsShape decoderDialect)).or o) s.gauge
      sum := fs.foldl
        (fun o f => ((lenBytes 7 f).map (dataPointsShape decoderDialect)).or o) s.sum
      histogram := fs.foldl
        (fun o f => ((lenBytes 9 f).map (dataPointsShape decoderDialect)).or o) s.histogram } := by
  induction fs generalizing s with
  | nil => rfl
  | cons f fs ih => exact ih _

theorem advances_metric : Advances metricField metricStep metricSchema := by
  rintro s ⟨number, wireType⟩ payload r bytes rest hr hp hs
  dsimp only at hp hs ⊢
  unfold metricSchema at hs
  dsimp only at hs
  split at hs
  · obtain ⟨b, rfl, _⟩ := hs
    exact (readString_gives hr hp).continuing fun t => { s with name := t }
  · obtain ⟨b, rfl, _⟩ := hs
    exact (readString_gives hr hp).continuing
      fun t => { s with description := t }
  · obtain ⟨b, rfl, _⟩ := hs
    exact (readString_gives hr hp).continuing fun t => { s with unit := t }
  · obtain ⟨b, rfl, hb⟩ := hs
    exact (embedded_gives computes_dataPoints hr hp hb).continuing
      fun d => { s with gauge := d }
  · obtain ⟨b, rfl, hb⟩ := hs
    exact (embedded_gives computes_dataPoints hr hp hb).continuing
      fun d => { s with sum := d }
  · obtain ⟨b, rfl, hb⟩ := hs
    exact (embedded_gives computes_dataPoints hr hp hb).continuing
      fun d => { s with histogram := d }
  · next h1 h2 h3 h5 h7 h9 =>
    have hstep : metricStep s ⟨number, payload⟩ = s := by
      have hlen : ∀ n, number ≠ n → lenBytes n ⟨number, payload⟩ = none := fun n hn => if_neg hn
      rw [metricStep, hlen 1 h1, hlen 2 h2, hlen 3 h3, hlen 5 h5, hlen 7 h7, hlen 9 h9]
      rfl
    have hskip := skipping_goesOn ⟨number, wireType⟩ (s := s) hr hp
    rw [hstep]
    unfold metricField
    dsimp only
    split
    all_goals first | exact hskip | contradiction

theorem computes_metric : Computes decodeMetric ValidMetric (metricShape decoderDialect) := by
  intro r m h hv
  rw [decodeMetric, advances_metric.each_eq _ h hv, foldl_metricStep]
  simp only [foldl_later, filterMap_map_lenBytes, Option.or_none, List.getLast?_map]
  rfl

theorem computes_scopeMetrics :
    Computes decodeScopeMetrics ValidScopeMetrics (scopeMetricsShape decoderDialect) :=
  computes_map (computes_decodeAll computes_metric 2) _

def resourceMetricsStep (s : JsonResourceMetrics) (f : Field) : JsonResourceMetrics where
  resource := ((lenBytes 1 f).map (resourceShape decoderDialect)).or s.resource
  scopeMetrics := (lenBytes 2 f).elim s.scopeMetrics fun b =>
    s.scopeMetrics ++ [scopeMetricsShape decoderDialect b]

theorem foldl_resourceMetricsStep (s : JsonResourceMetrics) (fs : List Field) :
    fs.foldl resourceMetricsStep s =
      { resource := fs.foldl (fun o f => ((lenBytes 1 f).map (resourceShape decoderDialect)).or o)
          s.resource
        scopeMetrics := fs.foldl (fun l f => (lenBytes 2 f).elim l fun b =>
          l ++ [scopeMetricsShape decoderDialect b]) s.scopeMetrics } := by
  induction fs generalizing s with
  | nil => rfl
  | cons f fs ih => exact ih _

theorem advances_resourceMetrics :
    Advances resourceMetricsField resourceMetricsStep resourceMetricsSchema := by
  rintro s ⟨number, wireType⟩ payload r bytes rest hr hp hs
  dsimp only at hp hs ⊢
  unfold resourceMetricsSchema at hs
  dsimp only at hs
  split at hs
  · obtain ⟨b, rfl, hb⟩ := hs
    have hw : wireType = wireLen := wireType_of_payload hp
    have hread := (embedded_gives computes_resource hr hp hb).continuing
      fun resource => { s with resource := some resource }
    simpa [resourceMetricsField, hw, resourceMetricsStep, lenBytes] using hread
  · obtain ⟨b, rfl, hb⟩ := hs
    have hw : wireType = wireLen := wireType_of_payload hp
    have hread := (embedded_gives computes_scopeMetrics hr hp hb).continuing
      fun v => { s with scopeMetrics := s.scopeMetrics ++ [v] }
    simpa [resourceMetricsField, hw, resourceMetricsStep, lenBytes] using hread
  · next h1 h2 =>
    have h1 : ¬ number = 1 := h1
    have h2 : ¬ number = 2 := h2
    have hskip := skipping_goesOn ⟨number, wireType⟩ (s := s) hr hp
    simpa [resourceMetricsField, h1, h2, resourceMetricsStep, lenBytes] using hskip

theorem computes_resourceMetrics :
    Computes decodeResourceMetrics ValidResourceMetrics (resourceMetricsShape decoderDialect) := by
  intro r m h hv
  rw [decodeResourceMetrics, advances_resourceMetrics.each_eq _ h hv, foldl_resourceMetricsStep]
  simp only [foldl_later, foldl_elim, filterMap_map_lenBytes, Option.or_none, List.nil_append,
    List.getLast?_map]
  rfl

/-- The decoder computes the shape of a metric export under its rules. -/
theorem decodeExportMetricsServiceRequest_eq (buf : Uint8Array)
    (hv : ValidMetricsRequest buf.bytes) :
    decodeExportMetricsServiceRequest buf = .ok (metricsShape decoderDialect buf.bytes) := by
  rw [decodeExportMetricsServiceRequest,
    computes_decodeAll computes_resourceMetrics 1 _ _ buf.holds hv]
  rfl

end Metrics

end OpenWop.Otlp
