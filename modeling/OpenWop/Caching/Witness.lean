import OpenWop.Caching.EntityTag
import OpenWop.Js.Sort
import OpenWop.Otlp.Grpc

/-!
# The conditional request witness

Each probe reads the tag of an unconditional answer, sends a condition built from it, and tries
again while the representation is seen to move. The legs judge what was observed.
-/

namespace OpenWop.Caching

open OpenWop.Js OpenWop.Otlp

section Probes

/-- `NO_SUCH_TAG`. -/
def noSuchTag : JsString := js "\"openwop-conformance-no-such-tag\""

/-- The second tag no host has. -/
def noSuchTag2 : JsString := js "\"openwop-conformance-no-such-tag-2\""

/-- `opaque`: the tag without its weakness. -/
def opaqueOf (tag : JsString) : JsString :=
  let s := trim tag
  if startsWith s (js "W/") then s.drop 2 else s

/-- `Probe`. -/
structure Probe where
  name : JsString
  value : JsString → JsString
  extra : Headers := []
  want : Nat

/-- The probe whose condition is the tag itself. -/
def exactProbe : Probe := { name := js "exact", value := id, want := 304 }

/-- The tag made weak. -/
def weakProbe : Probe := { name := js "weak", value := fun t => js "W/" ++ opaqueOf t, want := 304 }

/-- The tag as second of a list. -/
def listProbe : Probe :=
  { name := js "list", value := fun t => noSuchTag ++ js ", " ++ t, want := 304 }

/-- Any tag. -/
def starProbe : Probe := { name := js "star", value := fun _ => js "*", want := 304 }

/-- A list without the tag. -/
def otherListProbe : Probe :=
  { name := js "non-matching list"
    value := fun _ => noSuchTag ++ js ", " ++ noSuchTag2
    want := 200 }

/-- A weak tag that is another. -/
def otherWeakProbe : Probe :=
  { name := js "non-matching weak tag", value := fun _ => js "W/" ++ noSuchTag, want := 200 }

/-- `MATCH_PROBES`. -/
def matchProbes : List Probe := [weakProbe, listProbe, starProbe, otherListProbe, otherWeakProbe]

/-- `NO_CACHE_PROBE`. -/
def noCacheProbe : Probe :=
  { name := js "no-cache"
    value := id
    extra := [(js "Cache-Control", js "no-cache")]
    want := 304 }

end Probes

section Observation

/-- `Observed`. -/
structure Observed where
  probe : Probe
  tag : JsString
  sent : JsString
  okVary : Option JsString
  status : Nat
  bodyLength : Nat
  etag : Option JsString
  vary : Option JsString

/-- `Observation`. -/
inductive Observation where
  | observed (obs : Observed)
  | unreadable (reason : JsString)

/-- The representation is seen to have moved between the two requests of an attempt. -/
def Observed.moved (o : Observed) : Bool :=
  o.probe.want = 304 && o.status = 200 && o.etag.any fun etag => opaqueOf etag ≠ opaqueOf o.tag

/-- The attempts of `observeProbe` from a request on, with so many left after this one; returns the
number of the next request too. -/
def observeFrom (get : Get) (probe : Probe) : Nat → Nat → Observation × Nat
  | left, i =>
    match get i [] with
    | none => (.unreadable (js "the unconditional GET answered no response"), i + 1)
    | some ok =>
      if ok.status ≠ 200 then
        (.unreadable (js "the unconditional GET answered " ++ decimal ok.status), i + 1)
      else
        match ok.etag with
        | none => (.unreadable (js "the 200 carries no ETag"), i + 1)
        | some [] => (.unreadable (js "the 200 carries no ETag"), i + 1)
        | some tag =>
          let sent := probe.value tag
          match get (i + 1) (probe.extra ++ [(js "If-None-Match", sent)]) with
          | none =>
            (.unreadable (js "the " ++ probe.name ++ js " conditional GET could not be made"), i + 2)
          | some res =>
            let obs : Observed :=
              { probe := probe, tag := tag, sent := sent, okVary := ok.vary, status := res.status
                bodyLength := res.length, etag := res.etag, vary := res.vary }
            if obs.moved then
              match left with
              | 0 => (.observed obs, i + 2)
              | left + 1 => observeFrom get probe left (i + 2)
            else (.observed obs, i + 2)

/-- `observeProbe`: at most four attempts. -/
def observeProbe (get : Get) (probe : Probe) (i : Nat) : Observation × Nat :=
  observeFrom get probe 3 i

end Observation

section Judging

/-- `judgeMatch`. -/
def judgeMatch (o : Observed) : List JsString :=
  (if o.status ≠ o.probe.want then
    [o.probe.name ++ js ": If-None-Match " ++ o.sent ++ js " against ETag " ++ o.tag ++
      js " MUST receive " ++ decimal o.probe.want ++ js ", got " ++ decimal o.status] else []) ++
  (if o.status = 304 ∧ o.bodyLength ≠ 0 then
    [o.probe.name ++ js ": a 304 MUST carry no body (got " ++ decimal o.bodyLength ++
      js " byte(s))"]
    else [])

/-- `varySet`. -/
def varySet (v : Option JsString) : JsString :=
  join (js ",") (sortBy codeUnitOrder
    ((((splitOn (v.getD []) (unit ',')).map fun s => toLowerCase (trim s))).filter (· ≠ [])))

/-- `judge304Headers`. -/
def judge304Headers (o : Observed) : List JsString :=
  if o.status ≠ 304 then []
  else
    (match o.etag with
      | none =>
        [o.probe.name ++ js ": the 304 MUST carry the ETag (" ++ o.tag ++ js "); it carried none"]
      | some etag =>
        if opaqueOf etag ≠ opaqueOf o.tag then
          [o.probe.name ++ js ": the 304 MUST carry the ETag of the representation (" ++ o.tag ++
            js "); it carried " ++ etag]
        else []) ++
    (match o.okVary with
      | none => []
      | some okVary =>
        if varySet o.vary ≠ varySet (some okVary) then
          [o.probe.name ++ js ": the 304 MUST carry the Vary the 200 carries (" ++ okVary ++
            js "); it carried " ++ o.vary.getD (js "none")]
        else [])

end Judging

section Legs

/-- `LegOutcome`, with what was seen. -/
inductive LegOutcome where
  | observed (findings : List JsString) (seen : List Observed)
  | unreadable (reason : JsString)

/-- The findings of an outcome. -/
def LegOutcome.findings : LegOutcome → List JsString
  | .observed findings _ => findings
  | .unreadable _ => []

/-- `each`, from a request on. -/
def each (get : Get) (judge : Observed → List JsString) : List Probe → Nat → LegOutcome
  | [], _ => .observed [] []
  | probe :: probes, i =>
    match observeProbe get probe i with
    | (.unreadable reason, _) => .unreadable reason
    | (.observed obs, next) =>
      match each get judge probes next with
      | .unreadable reason => .unreadable reason
      | .observed findings seen => .observed (judge obs ++ findings) (obs :: seen)

/-- `matchLeg`. -/
def matchLeg (get : Get) : LegOutcome := each get judgeMatch matchProbes 0

/-- `noCacheLeg`. -/
def noCacheLeg (get : Get) : LegOutcome := each get judgeMatch [noCacheProbe] 0

/-- The probes of `headersLeg`. -/
def headersProbes : List Probe := exactProbe :: matchProbes.filter fun p => p.want = 304

/-- `headersLeg`. -/
def headersLeg (get : Get) : LegOutcome :=
  match each get judge304Headers headersProbes 0 with
  | .observed findings seen =>
    if seen.any fun o => o.status = 304 then .observed findings seen
    else .unreadable (js ("no probe was answered 304, so there is no 304 to inspect " ++
      "(the match leg records why)"))
  | .unreadable reason => .unreadable reason

end Legs

end OpenWop.Caching
