import OpenWop.Js.Json
import Mathlib.Algebra.Order.Ring.Rat

/-!
# Reading a run log through the poll

Two readers page through a log on an exclusive cursor. Numbers of a response are rationals, and
a poll answers what it likes at each page.
-/

namespace OpenWop.Log

open OpenWop.Js

section Responses

/-- An event of a run log. -/
structure RunEvent where
  type : JsString
  sequence : ℚ
  payload : Record JsString Json := []
  deriving DecidableEq

/-- What stands in `events`; a member is missing where it is absent or of another type. -/
inductive PolledItem where
  | record (type : Option JsString) (sequence : Option ℚ) (payload : Option (Record JsString Json))
  | null
  | other
  deriving DecidableEq

/-- A response to a poll. -/
structure PollResponse where
  status : Nat
  /-- None where `events` is no array. -/
  events : Option (List PolledItem)
  lastSequence : Option ℚ
  deriving DecidableEq

/-- The answers of a host, by page and by the `afterSequence` sent; none where no response came. -/
abbrev Poll := Nat → Option ℚ → Option PollResponse

end Responses

section Readers

/-- The pages a reader asks for at most. -/
def pageCap : Nat := 50

/-- The event the budget witness keeps of an item. -/
def PolledItem.runEvent? : PolledItem → Option RunEvent
  | .record (some type) (some sequence) payload =>
    some { type := type, sequence := sequence, payload := payload.getD [] }
  | _ => none

/-- The pages of `readEvents` from one on, with so many left, a cursor and the events read. -/
def readEventsFrom (poll : Poll) : Nat → Nat → ℚ → List RunEvent → Option (List RunEvent)
  | 0, _, _, out => some out
  | left + 1, page, after, out =>
    match poll page (some after) with
    | none => if page = 0 then none else some out
    | some res =>
      if res.status ≠ 200 then if page = 0 then none else some out
      else
        match res.events with
        | none => some out
        | some [] => some out
        | some batch =>
          let read := batch.filterMap PolledItem.runEvent?
          readEventsFrom poll left (page + 1) (read.foldl (fun a e => max a e.sequence) after)
            (out ++ read)

/-- `readEvents` of the budget witness. -/
def readEvents (poll : Poll) : Option (List RunEvent) := readEventsFrom poll pageCap 0 0 []

/-- `e.sequence`, where it is a number. -/
def PolledItem.sequence? : PolledItem → Option ℚ
  | .record _ sequence _ => sequence
  | _ => none

/-- `e.type === 'memory.written'`. -/
def PolledItem.isMemoryWritten : PolledItem → Bool
  | .record type _ _ => type = some (js "memory.written")
  | _ => false

/-- The cursor the major-2 reader sends. -/
def sentCursor (after : ℚ) : Option ℚ := if after < 0 then none else some after

/-- `seqs.length ? Math.max(...seqs) : after`. -/
def nextCursor (after : ℚ) (events : List PolledItem) : ℚ :=
  match events.filterMap PolledItem.sequence? with
  | [] => after
  | s :: seqs => seqs.foldl max s

/-- The pages of the major-2 reader from one on, with all the items read; none where it throws. -/
def memoryPagesFrom (poll : Poll) : Nat → Nat → ℚ → List PolledItem → Option (List PolledItem)
  | 0, _, _, out => some out
  | left + 1, page, after, out =>
    match poll page (sentCursor after) with
    | none => none
    | some res =>
      let events := if res.status = 200 then res.events.getD [] else []
      -- Reading a member of `null` throws.
      if .null ∈ events then none
      else
        match res.lastSequence with
        | none => some (out ++ events)
        | some last =>
          if nextCursor after events ≤ after ∨ last ≤ nextCursor after events then
            some (out ++ events)
          else memoryPagesFrom poll left (page + 1) (nextCursor after events) (out ++ events)

/-- `memoryWrittenEvents` on major 2. -/
def memoryWrittenEvents (poll : Poll) : Option (List PolledItem) :=
  (memoryPagesFrom poll pageCap 0 (-1) []).map (List.filter PolledItem.isMemoryWritten)

end Readers

section Host

/-- An event as it stands in a response. -/
def RunEvent.item (e : RunEvent) : PolledItem := .record (some e.type) (some e.sequence) (some e.payload)

/-- The events after an exclusive cursor; without one, all of them. -/
def eventsAfter (log : List RunEvent) : Option ℚ → List RunEvent
  | none => log
  | some after => log.filter fun e => after < e.sequence

/-- `lastSequence` of a log. -/
def lastSequence (log : List RunEvent) : ℚ := (log.getLast?.map RunEvent.sequence).getD (-1)

/-- A host that answers so many events of its log at each page and cursor. -/
def serve (log : List RunEvent) (size : Nat → Option ℚ → Nat) : Poll := fun page cursor =>
  some { status := 200
         events := some (((eventsAfter log cursor).take (size page cursor)).map RunEvent.item)
         lastSequence := some (lastSequence log) }

/-- The sequences of a log rise strictly from 0. -/
structure WellSequenced (log : List RunEvent) : Prop where
  sorted : log.Pairwise fun a b => a.sequence < b.sequence
  fromZero : ∀ e, log.head? = some e → e.sequence = 0

/-- So many pages from that one on exhaust what is after the cursor. -/
def Fits (log : List RunEvent) (size : Nat → Option ℚ → Nat) : Nat → Nat → Option ℚ → Prop
  | 0, _, cursor => eventsAfter log cursor = []
  | left + 1, page, cursor =>
    ∀ e, ((eventsAfter log cursor).take (size page cursor)).getLast? = some e →
      Fits log size left (page + 1) (some e.sequence)

end Host

end OpenWop.Log
