import OpenWop.Js.TextDecoder

/-!
# The event stream client

A response body is read chunk by chunk. The text decoded so far is cut at its line feeds; what
follows the last one waits for the next chunk. A blank line closes an event, and so does the end
of the body.
-/

namespace OpenWop.Sse

open OpenWop.Js

structure SseEvent where
  event : JsString
  data : JsString
  id : Option JsString
  deriving DecidableEq, Repr

/-- The events so far and the fields of the next one. -/
structure Fields where
  events : List SseEvent
  pendingEvent : JsString
  pendingData : List JsString
  pendingId : Option JsString
  deriving DecidableEq, Repr

/-- Before the first line. -/
def Fields.start : Fields := ⟨[], js "message", [], none⟩

/-- `flushEvent`: an event without data is dropped. -/
def Fields.flushEvent (f : Fields) : Fields :=
  if f.pendingData = [] then { f with pendingEvent := js "message", pendingId := none }
  else ⟨f.events ++ [⟨f.pendingEvent, join (js "\n") f.pendingData, f.pendingId⟩], js "message", [],
    none⟩

/-- The field a line names and the value it gives it, without the blank after the colon. -/
def fieldOf (rawLine : JsString) : JsString × JsString :=
  let (field, valueRaw) := match indexOf rawLine (js ":") with
    | none => (rawLine, [])
    | some colon => (rawLine.take colon, rawLine.drop (colon + 1))
  (field, if startsWith valueRaw (js " ") then valueRaw.drop 1 else valueRaw)

/-- One line: a blank one closes the event, a comment says nothing, a field is noted. -/
def Fields.line (f : Fields) (rawLine : JsString) : Fields :=
  if rawLine = [] then f.flushEvent
  else if startsWith rawLine (js ":") then f
  else
    let (field, value) := fieldOf rawLine
    if field = js "event" then { f with pendingEvent := value }
    else if field = js "data" then { f with pendingData := f.pendingData ++ [value] }
    else if field = js "id" then { f with pendingId := some value }
    else f

/-- The inner loop: the lines of the buffer one after the other, and what is left of it. -/
def drain (buffer : JsString) (f : Fields) : JsString × Fields :=
  match h : indexOf buffer (js "\n") with
  | none => (buffer, f)
  | some nlIdx =>
    drain (buffer.drop (nlIdx + 1)) (f.line (dropSuffix (buffer.take nlIdx) (js "\r")))
termination_by buffer.length
decreasing_by
  obtain ⟨front, rest, rfl, -, rfl⟩ := indexOf_eq_some h
  rw [List.length_drop, List.length_append, List.length_cons]
  omega

/-- What the reading loop keeps between two chunks. -/
structure Reading where
  decoder : TextDecoder
  buffer : JsString
  fields : Fields

/-- Before the first chunk. -/
def Reading.start : Reading := ⟨TextDecoder.fresh, [], Fields.start⟩

/-- One chunk. -/
def Reading.chunk (r : Reading) (value : List UInt8) : Reading :=
  let (text, decoder) := r.decoder.stream value
  let (buffer, fields) := drain (r.buffer ++ text) r.fields
  ⟨decoder, buffer, fields⟩

/-- The events of a body, after the last flush. -/
def readEvents (chunks : List (List UInt8)) : List SseEvent :=
  (chunks.foldl Reading.chunk Reading.start).fields.flushEvent.events

inductive ClosedBy where
  | server
  | timeout
  | caller
  deriving DecidableEq, Repr

/-- How reading ends: `done`, an abort, of the caller or not, or another exception. -/
inductive Ending where
  | done
  | aborted (byCaller : Bool)
  | failed (message : JsString)
  deriving DecidableEq, Repr

structure Body where
  chunks : List (List UInt8)
  ending : Ending

/-- What `fetch` returns. -/
structure Response where
  status : Nat
  body : Option Body

structure SseSubscribeResult where
  events : List SseEvent
  status : Nat
  closedBy : ClosedBy
  deriving DecidableEq, Repr

/-- The result after reading ended, or the exception passed on. -/
def conclude (status : Nat) (events : List SseEvent) : Ending → Except JsString SseSubscribeResult
  | .done => .ok ⟨events, status, .server⟩
  | .aborted byCaller => .ok ⟨events, status, if byCaller then .caller else .timeout⟩
  | .failed message => .error message

/-- `subscribe`, from the response on. -/
def subscribe (res : Response) : Except JsString SseSubscribeResult :=
  if 200 ≤ res.status ∧ res.status ≤ 299 then
    match res.body with
    | none => .ok ⟨[], res.status, .server⟩
    | some body => conclude res.status (readEvents body.chunks) body.ending
  else .ok ⟨[], res.status, .server⟩

section Whole

/-- The line without the carriage return before its line feed. -/
def withoutCr (line : JsString) : JsString := dropSuffix line (js "\r")

/-- The lines a text has ended with a line feed. -/
def terminatedLines (text : JsString) : List JsString :=
  (splitOn text (unit '\n')).dropLast.map withoutCr

/-- What follows the last line feed. -/
def unterminated (text : JsString) : JsString := (splitOn text (unit '\n')).getLastD []

/-- The events of a byte sequence decoded at once. -/
def eventsOf (bytes : List UInt8) : List SseEvent :=
  ((terminatedLines (decodeText bytes)).foldl Fields.line Fields.start).flushEvent.events

end Whole

end OpenWop.Sse
