import OpenWop.Ledger.Record

/-!
# The disposition of a scenario file

`resolveFileRecord` folds the states of a file's tests, its counted assertions, the
reason a gate recorded and the note a soft skip left into the one disposition the
file records.
-/

namespace OpenWop.Certification

open OpenWop.Js OpenWop.Ledger

/-- `FileTestState`. -/
inductive FileTestState where
  | pass
  | fail
  | skip
  deriving DecidableEq, Repr

/-- The reasons a behavior gate can record. -/
inductive GateReason where
  | inapplicable
  | skipped
  deriving DecidableEq, Repr

/-- The kinds of a soft-skip note. -/
inductive NoteKind where
  | inapplicable
  | skipped
  | blocked
  deriving DecidableEq, Repr

/-- The disposition a note of that kind records. -/
def NoteKind.disposition : NoteKind → Disposition
  | .inapplicable => .inapplicable
  | .skipped => .skipped
  | .blocked => .blocked

/-- A soft-skip note. -/
structure Note where
  kind : NoteKind
  reason : JsString
  deriving DecidableEq, Repr

/-- `TestFailure`: a failed test's title and first error message. -/
structure TestFailure where
  name : JsString
  message : Option JsString
  deriving DecidableEq, Repr

/-- What a file records. -/
structure FileRecord where
  disposition : Disposition
  detail : Option JsString := none
  deriving DecidableEq, Repr

/-- `PARTIAL_WITNESS_PREFIX`. -/
def partialWitnessPrefix : JsString := js "partial-witness: "

/-- `TRANSPORT_LOSS_MARK`. -/
def transportLossMark : JsString := js "transport-loss: "

/-- `UNCLASSIFIED_RETURN_DETAIL`. -/
def unclassifiedReturnDetail : JsString :=
  js "every test returned early with zero assertions and no recorded reason — " ++
    js "unclassified return; RFC 0148 §A resolves it to blocked " ++
    js "(add softSkip(kind, reason) at the early return)"

/-- `SPEC_COHERENCE_DETAIL`. -/
def specCoherenceDetail : JsString :=
  js "inapplicable to any host: this scenario reads spec/v1/ to check the SPEC corpus is " ++
    js "internally coherent and asserts nothing about a host. " ++
    js "The published tarball does not bundle spec/v1/ (see lib/paths.ts), so it does not run here. " ++
    js "Set OPENWOP_CONFORMANCE_ROOT to a spec checkout to run it; it needs no host."

/-- `failureDetail`: which tests failed, and what the first one said. -/
def failureDetail (failures : List TestFailure) (failedCount : Nat) : JsString :=
  match failures with
  | [] => decimal failedCount ++ js " test(s) in the file failed; the runner captured no message"
  | head :: _ =>
    let named := join (js ", ") ((failures.take 3).map fun f => js "\"" ++ f.name.take 120 ++ js "\"")
    let more := if failures.length > 3 then js " (+" ++ decimal (failures.length - 3) ++ js " more)" else []
    let msg := if isBlank head.message then js "no message" else (head.message.getD []).take 400
    decimal failures.length ++ js " test(s) failed — " ++ named ++ more ++ js "; first failure: " ++ msg

/-- Every failure of the file was a driver transport loss. -/
def allTransportLoss (failures : List TestFailure) : Bool :=
  failures.all fun f => f.message.any fun m => includes m transportLossMark

/-- The detail of a file whose every failure was a transport loss. -/
def transportLossDetail (failures : List TestFailure) (failed : Nat) : JsString :=
  let message := (failures.head?.bind TestFailure.message).getD []
  js "no response reached the suite in " ++ decimal failed ++ js " test(s); first: " ++
    (message.drop ((indexOf message transportLossMark).getD 0)).take 300

/-- `fileDisposition`. -/
def fileDisposition (states : List FileTestState) (gateReason : Option GateReason)
    (assertionCount : Option Nat) (failures : List TestFailure) : FileRecord :=
  let failed := (states.filter (· = .fail)).length
  if failed > 0 ∧ assertionCount = some 0 ∧ failures.length = failed ∧
      allTransportLoss failures = true then
    { disposition := .blocked, detail := some (transportLossDetail failures failed) }
  else if failed > 0 then
    { disposition := .executedFail, detail := some (failureDetail failures failed) }
  else if .pass ∈ states then
    if assertionCount = some 0 ∧ gateReason = some .inapplicable then
      { disposition := .inapplicable
        detail := some (js "every test returned early through behaviorGate with zero assertions: " ++
          js "profile not advertised in the captured discovery set") }
    else if assertionCount = some 0 ∧ gateReason = some .skipped then
      { disposition := .skipped
        detail := some (js "every test returned early through behaviorGate with zero assertions: " ++
          js "operator opted the profile or family out (OPENWOP_OPTED_OUT_PROFILES)") }
    else { disposition := .executedPass }
  else if gateReason = some .inapplicable then
    { disposition := .inapplicable
      detail := some (js "every test skipped: profile not advertised in the captured discovery set " ++
        js "(behaviorGate)") }
  else if gateReason = some .skipped then
    { disposition := .skipped
      detail := some (js "every test skipped: operator opted the profile or family out " ++
        js "(OPENWOP_OPTED_OUT_PROFILES)") }
  else
    { disposition := .blocked
      detail := some (if states.length = 0 then
        js "no test executed and no disposition recorded — unclassified return " ++
          js "(RFC 0148 §A resolves it to blocked)"
        else js "every test skipped with no recorded reason — unclassified return " ++
          js "(RFC 0148 §A resolves it to blocked)") }

/-- Which scenarios are about the corpus, and whether the corpus gate runs them. -/
structure CorpusEnv where
  /-- `SPEC_COHERENCE_SCENARIOS`. -/
  specCoherenceScenarios : List JsString
  /-- `OPENWOP_CORPUS_GATE` is `1`. -/
  corpusGate : Bool

/-- The file is a corpus scenario that had nothing to run. -/
def isCorpusSkip (env : CorpusEnv) (states : List FileTestState) (assertionCount : Nat)
    (specCoherenceFile : Option JsString) : Bool :=
  specCoherenceFile.any fun file => env.corpusGate = false ∧ file ∈ env.specCoherenceScenarios ∧
    .fail ∉ states ∧ assertionCount = 0

/-- `resolveFileRecord`. -/
def resolveFileRecord (env : CorpusEnv) (states : List FileTestState)
    (gateReason : Option GateReason) (assertionCount : Nat) (noted : Option Note)
    (specCoherenceFile : Option JsString) (failures : List TestFailure) : FileRecord :=
  if isCorpusSkip env states assertionCount specCoherenceFile then
    { disposition := .inapplicable, detail := some specCoherenceDetail }
  else
    let record := fileDisposition states gateReason (some assertionCount) failures
    if record.disposition = .executedPass ∧ assertionCount = 0 then
      match noted with
      | some note => { disposition := note.kind.disposition, detail := some note.reason }
      | none => { disposition := .blocked, detail := some unclassifiedReturnDetail }
    else match noted with
      | some note =>
        if gateReason = none ∧ states.length > 0 ∧ states.all (· = .skip) = true then
          { disposition := note.kind.disposition, detail := some note.reason }
        else if record.disposition = .executedPass then
          { record with
            detail := some (partialWitnessPrefix ++ note.kind.disposition.text ++ js ": " ++
              note.reason) }
        else record
      | none => record

theorem NoteKind.disposition_ne_executedPass (kind : NoteKind) :
    kind.disposition ≠ .executedPass := by
  cases kind <;> exact fun h => by cases h

/-- A file that counted no assertion never records a pass. -/
theorem resolveFileRecord_ne_executedPass (env : CorpusEnv) (states : List FileTestState)
    (gateReason : Option GateReason) (noted : Option Note) (specCoherenceFile : Option JsString)
    (failures : List TestFailure) :
    (resolveFileRecord env states gateReason 0 noted specCoherenceFile failures).disposition ≠
      .executedPass := by
  unfold resolveFileRecord
  split
  · exact fun h => by cases h
  · set record := fileDisposition states gateReason (some 0) failures
    by_cases hp : record.disposition = .executedPass
    · rcases noted with _ | note
      · simp [hp]
      · simpa [hp] using note.kind.disposition_ne_executedPass
    · rcases noted with _ | note
      · simp [hp]
      · simp only [hp, false_and, if_false]
        split
        · exact note.kind.disposition_ne_executedPass
        · exact hp

/-- A file disposition that is not a pass has a detail. -/
theorem fileDisposition_detail_isSome {states : List FileTestState}
    {gateReason : Option GateReason} {assertionCount : Option Nat} {failures : List TestFailure}
    (h : (fileDisposition states gateReason assertionCount failures).disposition ≠ .executedPass) :
    (fileDisposition states gateReason assertionCount failures).detail.isSome := by
  unfold fileDisposition at h ⊢
  dsimp only at h ⊢
  split_ifs at h ⊢ <;> first | rfl | exact absurd rfl h

/-- Every record that is not a pass says why. -/
theorem resolveFileRecord_detail_isSome (env : CorpusEnv) (states : List FileTestState)
    (gateReason : Option GateReason) (assertionCount : Nat) (noted : Option Note)
    (specCoherenceFile : Option JsString) (failures : List TestFailure)
    (h : (resolveFileRecord env states gateReason assertionCount noted specCoherenceFile
      failures).disposition ≠ .executedPass) :
    (resolveFileRecord env states gateReason assertionCount noted specCoherenceFile
      failures).detail.isSome := by
  have hfile := @fileDisposition_detail_isSome states gateReason (some assertionCount) failures
  unfold resolveFileRecord at h ⊢
  dsimp only at h ⊢
  rcases noted with _ | note <;> split_ifs at h ⊢ <;> first | rfl | exact hfile h

end OpenWop.Certification
