import OpenWop.Otlp.Payload

/-!
# Exports over gRPC

A request carries frames, and each is decoded and recorded before the next one is looked at.
A frame that does not decode turns the request away, and what the frames before it recorded
stays.
-/

namespace OpenWop.Otlp

open OpenWop.Core OpenWop.Js

section Requests

def maxBodyBytes : Nat := 16 * 1024 * 1024

/-- The headers that are read, and the chunks of the body. -/
structure GrpcRequest where
  path : Option JsString
  method : Option JsString
  contentType : Option JsString
  chunks : List (List UInt8)

def GrpcRequest.body (request : GrpcRequest) : List UInt8 := request.chunks.flatten

/-- A unit of `toLowerCase`, in a header value, which is Latin-1. -/
def lowerUnit (u : UInt16) : UInt16 :=
  if 65 ≤ u && u ≤ 90 || 192 ≤ u && u ≤ 222 && u != 215 then u + 32 else u

def toLowerCase (s : JsString) : JsString := s.map lowerUnit

/-- The content type as it is looked at. -/
def GrpcRequest.mediaType (request : GrpcRequest) : JsString :=
  toLowerCase (request.contentType.getD [])

/-- The request is one of gRPC. -/
def GrpcRequest.IsGrpc (request : GrpcRequest) : Prop :=
  request.method.getD [] = js "POST" ∧ startsWith request.mediaType (js "application/grpc") = true

instance (request : GrpcRequest) : Decidable request.IsGrpc :=
  inferInstanceAs (Decidable (_ ∧ _))

inductive Route where
  | traces
  | metrics
  deriving DecidableEq, Repr

def GrpcRequest.route (request : GrpcRequest) : Option Route :=
  if endsWith (request.path.getD []) (js "TraceService/Export") then some .traces
  else if endsWith (request.path.getD []) (js "MetricsService/Export") then some .metrics
  else none

/-- Why a request is turned away. -/
inductive GrpcError where
  | notGrpc (method contentType : JsString)
  | tooLarge
  | framing (e : FrameError)
  | decoding (e : DecodeError)
  | ingesting

/-- `grpc-message`. What the engine says of a value of an unexpected form is left out. -/
def GrpcError.message : GrpcError → JsString
  | .notGrpc method contentType =>
    js "expected POST with content-type application/grpc+proto, got " ++ method ++ js " " ++
      contentType
  | .tooLarge => js "OTLP body exceeds " ++ decimal maxBodyBytes ++ js " bytes"
  | .framing e => js "gRPC frame parse failed: " ++ e.message
  | .decoding e => js "OTLP protobuf decode failed: " ++ e.message
  | .ingesting => js "OTLP protobuf decode failed: "

/-- `grpc-status`. -/
def GrpcError.status : GrpcError → Nat
  | .tooLarge => 8
  | _ => 3

/-- The status of an answer: 0 where there is no error. -/
def statusOf (error : Option GrpcError) : Nat := error.elim 0 GrpcError.status

/-- The answer, and the records after it. -/
structure GrpcAnswer where
  error : Option GrpcError
  records : Records

end Requests

section Frames

/-- A frame is decoded and recorded. -/
def exportFrame (route : Route) (s : Records) (frame : Uint8Array) : GrpcAnswer :=
  match route with
  | .traces =>
    match decodeExportTraceServiceRequest frame with
    | .error e => ⟨some (.decoding e), s⟩
    | .ok payload =>
      let pushed := ingestTraces payload.toJson
      ⟨if pushed.completed then none else some .ingesting,
        { s with spans := s.spans ++ pushed.items }⟩
  | .metrics =>
    match decodeExportMetricsServiceRequest frame with
    | .error e => ⟨some (.decoding e), s⟩
    | .ok payload =>
      let pushed := ingestMetrics payload.toJson
      ⟨if pushed.completed then none else some .ingesting,
        { s with metrics := s.metrics ++ pushed.items }⟩

/-- The frames of a request in turn, up to the first one that fails. -/
def exportFrames (route : Route) : Records → List Uint8Array → GrpcAnswer
  | s, [] => ⟨none, s⟩
  | s, frame :: frames =>
    match exportFrame route s frame with
    | ⟨none, s⟩ => exportFrames route s frames
    | answer => answer

theorem Slice.length_bytes_le (buf : List UInt8) (s : Slice) :
    (s.bytes buf).length ≤ buf.length := by
  rw [Slice.bytes, List.length_drop, List.length_take]
  omega

/-- A frame of a body that is not too large. -/
def frameOf {body : List UInt8} (h : body.length ≤ maxBodyBytes) (s : Slice) : Uint8Array where
  bytes := s.bytes body
  bounded := by
    have hle := s.length_bytes_le body
    unfold maxBodyBytes at h
    omega

/-- The answer once the body is taken apart. -/
def answerFrames (s : Records) (request : GrpcRequest) (h : request.body.length ≤ maxBodyBytes) :
    Except FrameError (List Slice) → GrpcAnswer
  | .error e => ⟨some (.framing e), s⟩
  | .ok slices =>
    request.route.elim ⟨none, s⟩ fun route => exportFrames route s (slices.map (frameOf h))

/-- `_handleGrpcStream`, where it answers. -/
def HandleGrpcStream (s : Records) (request : GrpcRequest) (answer : GrpcAnswer) : Prop :=
  if request.IsGrpc then
    if h : request.body.length ≤ maxBodyBytes then
      ∃ unframed, UnframeMessages request.body unframed ∧
        answer = answerFrames s request h unframed
    else answer = ⟨some .tooLarge, s⟩
  else answer = ⟨some (.notGrpc (request.method.getD []) request.mediaType), s⟩

end Frames

section Records

variable {route : Route} {s : Records} {frame : Uint8Array} {frames : List Uint8Array}

/-- The export has no span. -/
def JsonExportTraceServiceRequest.Silent (request : JsonExportTraceServiceRequest) : Prop :=
  ∀ r ∈ request.resourceSpans, ∀ s ∈ r.scopeSpans, s.spans = []

/-- The export has no data point. -/
def JsonExportMetricsServiceRequest.Silent (request : JsonExportMetricsServiceRequest) : Prop :=
  ∀ r ∈ request.resourceMetrics, ∀ s ∈ r.scopeMetrics, ∀ m ∈ s.metrics, ∀ kind : MetricKind,
    ∀ d ∈ m.data kind, d.dataPoints = []

theorem itemsAt_objectOf_one {α : Type} (name : JsString) (l : List α) (g : α → Json) :
    itemsAt (objectOf [(name, some (.arr (l.map g)))]) name = l.map g := by
  rw [itemsAt, member?_objectOf_self]
  rfl

theorem spansOf_eq_nil_iff (request : JsonExportTraceServiceRequest) :
    spansOf request.toJson = [] ↔ request.Silent := by
  have hscopes : ∀ r : JsonResourceSpans, itemsAt r.toJson (js "scopeSpans") =
      r.scopeSpans.map JsonScopeSpans.toJson := by
    intro r
    rw [itemsAt, JsonResourceSpans.toJson, member?_objectOf_self]
    rfl
  have hspans : ∀ s : JsonScopeSpans, itemsAt s.toJson (js "spans") =
      s.spans.map JsonSpan.toJson := fun s => itemsAt_objectOf_one _ _ _
  have hresources : itemsAt request.toJson (js "resourceSpans") =
      request.resourceSpans.map JsonResourceSpans.toJson := itemsAt_objectOf_one _ _ _
  simp only [spansOf, hresources, List.flatMap_eq_nil_iff, List.forall_mem_map, hscopes, hspans,
    List.map_eq_nil_iff]
  rfl

theorem keptDataPoint_eq_none_iff (m : JsonMetric) :
    keptDataPoint m.toJson = none ↔ ∀ kind : MetricKind, ∀ d ∈ m.data kind, d.dataPoints = [] := by
  have hpoints : ∀ kind : MetricKind, dataPointsOf m.toJson kind = [] ↔
      ∀ d ∈ m.data kind, d.dataPoints = [] := by
    intro kind
    rw [dataPointsOf, nestedItems, member?_slot]
    cases m.data kind with
    | none => simp
    | some d =>
      rw [Option.map_some, Option.map_some, Option.getD_some, JsonDataPoints.toJson,
        itemsAt_objectOf_one, List.map_eq_nil_iff]
      simp
  simp only [keptDataPoint, List.findSome?_eq_none_iff, Option.map_eq_none_iff,
    List.head?_eq_none_iff, hpoints]
  refine ⟨fun h kind => h kind ?_, fun h kind _ => h kind⟩
  cases kind <;> simp

theorem metricsOf_eq_nil_iff (request : JsonExportMetricsServiceRequest) :
    metricsOf request.toJson = [] ↔ request.Silent := by
  have hscopes : ∀ r : JsonResourceMetrics, itemsAt r.toJson (js "scopeMetrics") =
      r.scopeMetrics.map JsonScopeMetrics.toJson := by
    intro r
    rw [itemsAt, JsonResourceMetrics.toJson, member?_objectOf_self]
    rfl
  have hmetrics : ∀ s : JsonScopeMetrics, itemsAt s.toJson (js "metrics") =
      s.metrics.map JsonMetric.toJson := fun s => itemsAt_objectOf_one _ _ _
  have hresources : itemsAt request.toJson (js "resourceMetrics") =
      request.resourceMetrics.map JsonResourceMetrics.toJson := itemsAt_objectOf_one _ _ _
  have hkept : ∀ m : JsonMetric, (metricOf m.toJson).toList = [] ↔
      ∀ kind : MetricKind, ∀ d ∈ m.data kind, d.dataPoints = [] := by
    intro m
    rw [← keptDataPoint_eq_none_iff, metricOf, Option.toList_eq_nil_iff, Option.map_eq_none_iff]
  simp only [metricsOf, hresources, List.flatMap_eq_nil_iff, List.forall_mem_map, hscopes, hmetrics,
    hkept]
  rfl

end Records

section Rejection

variable {route : Route} {s : Records} {frame : Uint8Array} {frames : List Uint8Array}

/-- The frame decodes as an export of its route. -/
def Decodes : Route → Uint8Array → Prop
  | .traces, frame => ∃ request, decodeExportTraceServiceRequest frame = .ok request
  | .metrics, frame => ∃ request, decodeExportMetricsServiceRequest frame = .ok request

/-- The frame decodes as an export without a span or data point. -/
def DecodesSilent : Route → Uint8Array → Prop
  | .traces, frame =>
    ∃ request, decodeExportTraceServiceRequest frame = .ok request ∧ request.Silent
  | .metrics, frame =>
    ∃ request, decodeExportMetricsServiceRequest frame = .ok request ∧ request.Silent

/-- What is recorded of a frame. -/
def recordsOf (route : Route) (frame : Uint8Array) : Records :=
  match route with
  | .traces => ⟨((decodeExportTraceServiceRequest frame).toOption.map fun p =>
      spansOf p.toJson).getD [], []⟩
  | .metrics => ⟨[], ((decodeExportMetricsServiceRequest frame).toOption.map fun p =>
      metricsOf p.toJson).getD []⟩

/-- The records after those before. -/
def Records.append (s t : Records) : Records := ⟨s.spans ++ t.spans, s.metrics ++ t.metrics⟩

theorem exportFrame_of_decodes (h : Decodes route frame) :
    exportFrame route s frame = ⟨none, s.append (recordsOf route frame)⟩ := by
  cases route with
  | traces =>
    obtain ⟨request, hd⟩ := h
    simp [exportFrame, recordsOf, hd, ingestTraces_of_wellFormed (wellFormed_traces request),
      Records.append, Except.toOption]
  | metrics =>
    obtain ⟨request, hd⟩ := h
    simp [exportFrame, recordsOf, hd, ingestMetrics_of_wellFormed (wellFormed_metrics request),
      Records.append, Except.toOption]

theorem exportFrame_of_not_decodes (h : ¬ Decodes route frame) :
    ∃ e, exportFrame route s frame = ⟨some (.decoding e), s⟩ := by
  cases route with
  | traces =>
    cases hd : decodeExportTraceServiceRequest frame with
    | error e => exact ⟨e, by simp [exportFrame, hd]⟩
    | ok request => exact absurd ⟨request, hd⟩ h
  | metrics =>
    cases hd : decodeExportMetricsServiceRequest frame with
    | error e => exact ⟨e, by simp [exportFrame, hd]⟩
    | ok request => exact absurd ⟨request, hd⟩ h

/-- A frame that decodes leaves the records as they are exactly where it has nothing to record. -/
theorem append_recordsOf_eq_self_iff (h : Decodes route frame) :
    s.append (recordsOf route frame) = s ↔ DecodesSilent route frame := by
  cases route with
  | traces =>
    obtain ⟨request, hd⟩ := h
    have hsilent : DecodesSilent .traces frame ↔ request.Silent := by
      simp [DecodesSilent, hd]
    rw [hsilent, ← spansOf_eq_nil_iff, Records.append, recordsOf, hd]
    cases s
    simp [Except.toOption]
  | metrics =>
    obtain ⟨request, hd⟩ := h
    have hsilent : DecodesSilent .metrics frame ↔ request.Silent := by
      simp [DecodesSilent, hd]
    rw [hsilent, ← metricsOf_eq_nil_iff, Records.append, recordsOf, hd]
    cases s
    simp [Except.toOption]

theorem Records.append_eq_self_iff (s t : Records) :
    s.append t = s ↔ t.spans = [] ∧ t.metrics = [] := by
  cases s
  simp [Records.append]

/-- The records after those of some frames are the same only where each frame has none. -/
theorem foldl_append_eq_self_iff : frames.foldl (fun s f => s.append (recordsOf route f)) s = s ↔
    ∀ f ∈ frames, s.append (recordsOf route f) = s := by
  have hfold : ∀ t : Records, frames.foldl (fun s f => s.append (recordsOf route f)) t =
      ⟨t.spans ++ frames.flatMap fun f => (recordsOf route f).spans,
        t.metrics ++ frames.flatMap fun f => (recordsOf route f).metrics⟩ := by
    induction frames with
    | nil => simp
    | cons f frames ih =>
      intro t
      rw [List.foldl_cons, ih]
      simp [Records.append]
  have hlists : frames.foldl (fun s f => s.append (recordsOf route f)) s = s ↔
      frames.flatMap (fun f => (recordsOf route f).spans) = [] ∧
        frames.flatMap (fun f => (recordsOf route f).metrics) = [] := by
    rw [hfold]
    cases s
    simp
  rw [hlists, List.flatMap_eq_nil_iff, List.flatMap_eq_nil_iff]
  simp only [Records.append_eq_self_iff]
  exact ⟨fun h f hf => ⟨h.1 f hf, h.2 f hf⟩,
    fun h => ⟨fun f hf => (h f hf).1, fun f hf => (h f hf).2⟩⟩

theorem exportFrames_of_decodes (h : ∀ f ∈ frames, Decodes route f) :
    exportFrames route s frames =
      ⟨none, frames.foldl (fun s f => s.append (recordsOf route f)) s⟩ := by
  induction frames generalizing s with
  | nil => rfl
  | cons f frames ih =>
    rw [List.forall_mem_cons] at h
    rw [exportFrames, exportFrame_of_decodes h.1]
    exact ih h.2

theorem exportFrames_of_flaw {pre post : List Uint8Array} {bad : Uint8Array}
    (hpre : ∀ f ∈ pre, Decodes route f) (hbad : ¬ Decodes route bad) :
    ∃ e, exportFrames route s (pre ++ bad :: post) =
      ⟨some (.decoding e), pre.foldl (fun s f => s.append (recordsOf route f)) s⟩ := by
  induction pre generalizing s with
  | nil =>
    obtain ⟨e, he⟩ := exportFrame_of_not_decodes hbad
    exact ⟨e, by rw [List.nil_append, exportFrames, he]; rfl⟩
  | cons f pre ih =>
    rw [List.forall_mem_cons] at hpre
    rw [List.cons_append, exportFrames, exportFrame_of_decodes hpre.1]
    exact ih hpre.2

/-- Before the first frame that does not decode none has a span or data point. -/
def SilentBeforeFlaw (route : Route) (frames : List Uint8Array) : Prop :=
  ∀ pre bad post, frames = pre ++ bad :: post → (∀ f ∈ pre, Decodes route f) →
    ¬ Decodes route bad → ∀ f ∈ pre, DecodesSilent route f

/-- Frames that are turned away leave the records as they were in exactly these cases. -/
theorem exportFrames_unchanged_iff (route : Route) (s : Records) (frames : List Uint8Array) :
    ((exportFrames route s frames).error ≠ none → (exportFrames route s frames).records = s) ↔
      SilentBeforeFlaw route frames := by
  classical
  have hsplit : ∀ pre : List Uint8Array, (∀ f ∈ pre, Decodes route f) →
      (pre.foldl (fun s f => s.append (recordsOf route f)) s = s ↔
        ∀ f ∈ pre, DecodesSilent route f) := by
    intro pre hpre
    rw [foldl_append_eq_self_iff]
    exact forall₂_congr fun f hf => append_recordsOf_eq_self_iff (hpre f hf)
  constructor
  · rintro h pre bad post rfl hpre hbad
    obtain ⟨e, he⟩ : ∃ e, exportFrames route s (pre ++ bad :: post) =
        ⟨some (.decoding e), _⟩ := exportFrames_of_flaw hpre hbad
    rw [he] at h
    exact (hsplit pre hpre).mp (h nofun)
  · intro h herror
    by_cases hall : ∀ f ∈ frames, Decodes route f
    · rw [exportFrames_of_decodes hall] at herror
      exact absurd rfl herror
    · obtain ⟨pre, bad, post, rfl, hpre, hbad⟩ := exists_first hall
      obtain ⟨e, he⟩ : ∃ e, exportFrames route s (pre ++ bad :: post) =
        ⟨some (.decoding e), _⟩ := exportFrames_of_flaw hpre hbad
      rw [he]
      exact (hsplit pre hpre).mpr (h pre bad post rfl hpre hbad)

end Rejection

section Requests

/-- The frames of a request that comes to them. -/
def SilentBeforeFlawIn (request : GrpcRequest) : Prop :=
  ∀ (route : Route) (h : request.body.length ≤ maxBodyBytes) (slices : List Slice),
    request.IsGrpc → request.route = some route → UnframeMessages request.body (.ok slices) →
    SilentBeforeFlaw route (slices.map (frameOf h))

theorem statusOf_ne_zero_iff (error : Option GrpcError) : statusOf error ≠ 0 ↔ error ≠ none := by
  cases error with
  | none => simp [statusOf]
  | some e => cases e <;> simp [statusOf, GrpcError.status]

/-- A request that is turned away leaves the records as they were in exactly these cases. -/
theorem rejectedUnchanged_iff (request : GrpcRequest) :
    (∀ s answer, HandleGrpcStream s request answer → statusOf answer.error ≠ 0 →
      answer.records = s) ↔ SilentBeforeFlawIn request := by
  simp only [statusOf_ne_zero_iff]
  constructor
  · intro h route hsize slices hgrpc hroute hslices
    rw [← exportFrames_unchanged_iff route ⟨[], []⟩]
    refine h ⟨[], []⟩ _ ?_
    rw [HandleGrpcStream, if_pos hgrpc, dif_pos hsize]
    exact ⟨_, hslices, by rw [answerFrames, hroute, Option.elim_some]⟩
  · intro h s answer hanswer herror
    unfold HandleGrpcStream at hanswer
    split at hanswer
    · next hgrpc =>
      split at hanswer
      · next hsize =>
        obtain ⟨unframed, hunframed, rfl⟩ := hanswer
        cases unframed with
        | error e => rfl
        | ok slices =>
          rw [answerFrames] at herror ⊢
          cases hroute : request.route with
          | none => rfl
          | some route =>
            rw [hroute, Option.elim_some] at herror
            exact (exportFrames_unchanged_iff route s _).mpr
              (h route hsize slices hgrpc hroute hunframed) herror
      · rw [hanswer]
    · rw [hanswer]

/-- The export of an empty span. -/
def spanFrame : Uint8Array := ⟨[0x0a, 4, 0x12, 2, 0x12, 0], by decide⟩

/-- A field of an unknown wire type. -/
def flawFrame : Uint8Array := ⟨[0x0b], by decide⟩

theorem decode_spanFrame : decodeExportTraceServiceRequest spanFrame =
    .ok ⟨[⟨none, [⟨[emptySpan]⟩]⟩]⟩ := rfl

theorem decode_flawFrame : decodeExportTraceServiceRequest flawFrame =
    .error (.unknownWireType 3) := rfl

/-- A trace request of the two frames. -/
def spanThenFlaw : GrpcRequest where
  path := some (js "/opentelemetry.proto.collector.trace.v1.TraceService/Export")
  method := some (js "POST")
  contentType := some (js "application/grpc")
  chunks := [[spanFrame.bytes, flawFrame.bytes].flatMap frameMessage]

/-- The span of the first frame stays although the second one is turned away. -/
theorem not_rejectedUnchanged : ¬ ∀ (request : GrpcRequest) (s : Records) (answer : GrpcAnswer),
    HandleGrpcStream s request answer → statusOf answer.error ≠ 0 → answer.records = s := by
  intro h
  have hgrpc : spanThenFlaw.IsGrpc := by decide
  have hsize : spanThenFlaw.body.length ≤ maxBodyBytes := by decide
  have hslices : UnframeMessages spanThenFlaw.body
      (.ok (slicesAt 0 [spanFrame.bytes, flawFrame.bytes])) := by
    have hbody : spanThenFlaw.body = [spanFrame.bytes, flawFrame.bytes].flatMap frameMessage :=
      List.append_nil _
    rw [hbody]
    exact returns_frames (by decide)
  have hframes : (slicesAt 0 [spanFrame.bytes, flawFrame.bytes]).map (frameOf hsize) =
      [spanFrame, flawFrame] := rfl
  have hanswer : HandleGrpcStream ⟨[], []⟩ spanThenFlaw
      (exportFrames .traces ⟨[], []⟩ [spanFrame, flawFrame]) := by
    rw [HandleGrpcStream, if_pos hgrpc, dif_pos hsize]
    refine ⟨_, hslices, ?_⟩
    rw [answerFrames, hframes]
    rfl
  have hunchanged := h spanThenFlaw ⟨[], []⟩ _ hanswer
  rw [statusOf_ne_zero_iff] at hunchanged
  obtain ⟨request, hrequest, hsilent⟩ :=
    (exportFrames_unchanged_iff .traces ⟨[], []⟩ _).mp hunchanged [spanFrame] flawFrame [] rfl
      (by simpa using ⟨_, decode_spanFrame⟩)
      (by rintro ⟨request, hrequest⟩; simp [decode_flawFrame] at hrequest)
      spanFrame (List.mem_singleton_self _)
  rw [decode_spanFrame] at hrequest
  cases hrequest
  have hspans : [emptySpan] = [] := hsilent _ (List.mem_singleton_self _) _
    (List.mem_singleton_self _)
  cases hspans

end Requests

end OpenWop.Otlp
