import OpenWop.Certification.FileRecord
import OpenWop.Certification.Registry
import OpenWop.OptOut.Names

/-!
# From a gate to the row of its test

A behavior gate records its decision under the profile's own id. When the test ends, the
recorder looks through what was journaled since it began, resolves the one disposition of the
test from that, its state, its assertions and its notes, and records it under the test's id.
-/

namespace OpenWop.OptOut

open OpenWop.Js OpenWop.Ledger OpenWop.Certification

section BehaviorGate

/-- What a gate reads of the environment. -/
structure GateEnv where
  optedOutProfiles : List JsString
  requireBehavior : Bool

/-- `profileRequirementId`. -/
def profileRequirementId (profileName : JsString) : JsString := js "openwop.profile." ++ profileName

/-- The detail of an opt-out. -/
def optOutReason (profileName : JsString) : JsString :=
  js "operator declared an honest opt-out via " ++ optOutMarker ++ profileName

/-- What a gate records for an opt-out. -/
def optOutCall (profileName : JsString) : Call where
  requirementId := profileRequirementId profileName
  disposition := .skipped
  detail := some (optOutReason profileName)

/-- What a gate records for a profile that is neither advertised nor opted out. -/
def unadvertisedCall (profileName : JsString) : Call where
  requirementId := profileRequirementId profileName
  disposition := .inapplicable
  detail := some (js "profile not advertised in the captured discovery set")

def contradictoryMessage (profileName : JsString) : JsString :=
  js "RFC 0148 §B: [" ++ profileName ++ js "] is BOTH advertised by the host AND listed in " ++
    js "OPENWOP_OPTED_OUT_PROFILES. A host MUST NOT both advertise and opt out of the same " ++
    js "profile — the two are contradictory claims and neither can be trusted while both " ++
    js "stand. Remove it from OPENWOP_OPTED_OUT_PROFILES, or stop advertising it."

def requiredMessage (profileName : JsString) : JsString :=
  js "OPENWOP_REQUIRE_BEHAVIOR=true: host MUST advertise the " ++ profileName ++
    js " profile for this scenario to run, " ++
    js "or declare opt-out via OPENWOP_OPTED_OUT_PROFILES=" ++ profileName ++ js ". " ++
    js "See conformance/coverage.md §\"Capability-gated scenarios\"."

/-- `behaviorGate`. -/
def behaviorGate (env : GateEnv) (profileName : JsString) (advertised : Bool) :
    ExceptT JsString (StateM LedgerState) Bool := do
  if advertised = true ∧ profileName ∈ env.optedOutProfiles then
    throw (contradictoryMessage profileName)
  if advertised = true then
    return true
  if profileName ∈ env.optedOutProfiles then
    recordRequirement (optOutCall profileName)
    return false
  if env.requireBehavior = true then
    throw (requiredMessage profileName)
  recordRequirement (unadvertisedCall profileName)
  return false

private theorem run_record_bind {α : Type} (call : Call) (a : α) (s : LedgerState) :
    ((recordRequirement call >>= fun _ => pure a :
      ExceptT JsString (StateM LedgerState) α).run.run s).2 = s.after call := by
  have h := recordRequirement_run s call
  rw [LedgerState.after]
  change ((ExceptT.bind _ _ : ExceptT JsString (StateM LedgerState) α) s).2 = _
  simp only [ExceptT.bind, ExceptT.mk, bind, StateT.bind]
  change ((ExceptT.bindCont _ ((recordRequirement call).run.run s).1 :
    StateM LedgerState _) ((recordRequirement call).run.run s).2).2 = _
  rw [h]
  split <;> rfl

/-- What a gate leaves: the record of its decision, or nothing. -/
theorem behaviorGate_state (env : GateEnv) (profileName : JsString) (advertised : Bool)
    (s : LedgerState) : ((behaviorGate env profileName advertised).run.run s).2 =
      if advertised = true then s
      else if profileName ∈ env.optedOutProfiles then s.after (optOutCall profileName)
      else if env.requireBehavior = true then s
      else s.after (unadvertisedCall profileName) := by
  rw [behaviorGate]
  by_cases ha : advertised = true
  · by_cases ho : profileName ∈ env.optedOutProfiles
    · simp only [ha, ho, and_self, if_true]
      rfl
    · simp only [ha, ho, and_false, if_false, if_true]
      rfl
  · by_cases ho : profileName ∈ env.optedOutProfiles
    · simp only [ha, ho, if_true]
      exact run_record_bind ..
    · by_cases hr : env.requireBehavior = true
      · simp only [ha, ho, hr, if_false, if_true]
        rfl
      · simp only [ha, ho, hr, if_false]
        exact run_record_bind ..

end BehaviorGate

section Body

/-- What a test body does with the ledger. -/
inductive BodyStep where
  /-- `behaviorGate` is called. -/
  | gate (profileName : JsString) (advertised : Bool)
  /-- `recordRequirement` is called directly. -/
  | record (call : Call)

/-- The id a step records under, if it records. -/
def BodyStep.recordsUnder : BodyStep → JsString
  | .gate profileName _ => profileRequirementId profileName
  | .record call => call.requirementId

/-- The ledger after a step, whether the call returns or throws. -/
def BodyStep.run (env : GateEnv) (s : LedgerState) : BodyStep → LedgerState
  | .gate profileName advertised => ((behaviorGate env profileName advertised).run.run s).2
  | .record call => s.after call

/-- A step leaves the ledger as it is, or makes one record under its id. -/
theorem BodyStep.run_cases (env : GateEnv) (s : LedgerState) (step : BodyStep) :
    step.run env s = s ∨
      ∃ call : Call, call.requirementId = step.recordsUnder ∧ step.run env s = s.after call := by
  rcases step with ⟨profileName, advertised⟩ | call
  · rw [BodyStep.run, behaviorGate_state]
    split
    · exact Or.inl rfl
    · split
      · exact Or.inr ⟨optOutCall profileName, rfl, rfl⟩
      · split
        · exact Or.inl rfl
        · exact Or.inr ⟨unadvertisedCall profileName, rfl, rfl⟩
  · exact Or.inr ⟨call, rfl, rfl⟩

/-- The opt-out a step records. -/
def BodyStep.optOut (env : GateEnv) (s : LedgerState) : BodyStep → Option JsString
  | .gate profileName advertised =>
    if advertised = false ∧ profileName ∈ env.optedOutProfiles ∧
      refusal (s.ledger.get? (profileRequirementId profileName)) (optOutCall profileName) = none
    then some profileName else none
  | .record _ => none

/-- The ledger after a body. -/
def runBody (env : GateEnv) (s : LedgerState) (body : List BodyStep) : LedgerState :=
  body.foldl (BodyStep.run env) s

/-- The opt-outs `behaviorGate` records during a body. -/
def optOutsOf (env : GateEnv) : LedgerState → List BodyStep → List JsString
  | _, [] => []
  | s, step :: body => (step.optOut env s).toList ++ optOutsOf env (step.run env s) body

end Body

section Resolution

/-- A soft-skip note, as the recorder reads it. -/
structure ItNote where
  kind : NoteKind
  reason : JsString
  conclusive : Bool := false
  deriving DecidableEq, Repr

/-- A gate decision found in the journal. -/
structure GateNote where
  reason : GateReason
  detail : Option JsString
  deriving DecidableEq, Repr

def GateReason.disposition : GateReason → Disposition
  | .inapplicable => .inapplicable
  | .skipped => .skipped

/-- The detail of a test that failed. -/
def itFailureDetail (testName : JsString) (firstError : Option JsString) : JsString :=
  let place := if trim testName = [] then [] else js " in \"" ++ testName.take 120 ++ js "\""
  js "the test executed and failed" ++ place ++ js ": " ++
    (firstError.getD (js "no message")).take 300

/-- `firstError.slice(i, i + 300)` from the mark of a transport loss. -/
def itTransportDetail (message : JsString) : JsString :=
  (message.drop ((indexOf message transportLossMark).getD 0)).take 300

/-- `resolveItRecord`. -/
def resolveItRecord (state : FileTestState) (assertionCalls : Nat) (gate : Option GateNote)
    (noted : Option ItNote) (firstError : Option JsString) (blockedStands : Bool)
    (testName : JsString) : FileRecord :=
  if state = .fail then
    if assertionCalls = 0 ∧ (firstError.any fun m => includes m transportLossMark) = true then
      { disposition := .blocked, detail := some (itTransportDetail (firstError.getD [])) }
    else
      { disposition := .executedFail, detail := some (itFailureDetail testName firstError) }
  else if state = .pass ∧ assertionCalls > 0 then
    match noted with
    | some note =>
      if note.kind = .blocked ∧ (note.conclusive = true ∨ blockedStands = true) then
        { disposition := .blocked, detail := some note.reason }
      else
        { disposition := .executedPass
          detail := some (partialWitnessPrefix ++ note.kind.disposition.text ++ js ": " ++
            note.reason) }
    | none => { disposition := .executedPass }
  else
    match gate with
    | some gate =>
      { disposition := GateReason.disposition gate.reason
        detail := some (gate.detail.getD ((GateReason.disposition gate.reason).text ++
          js " (gate recorded no reason)")) }
    | none =>
      match noted with
      | some note => { disposition := note.kind.disposition, detail := some note.reason }
      | none =>
        if state = .pass then
          { disposition := .blocked
            detail := some (js "unclassified return: the test passed with zero assertions and " ++
              js "recorded no reason — RFC 0148 §A resolves it to blocked, never to a pass") }
        else
          { disposition := .skipped
            detail := some (js "vitest skipped the test (ctx.skip / it.skip) without a recorded " ++
              js "gate reason") }

/-- A test that neither failed nor passed with an assertion comes to its gate's decision. -/
theorem resolveItRecord_gate {state : FileTestState} {assertionCalls : Nat} (hf : state ≠ .fail)
    (hp : ¬ (state = .pass ∧ assertionCalls > 0)) (gate : GateNote) (noted : Option ItNote)
    (firstError : Option JsString) (blockedStands : Bool) (testName : JsString) :
    resolveItRecord state assertionCalls (some gate) noted firstError blockedStands testName =
      { disposition := GateReason.disposition gate.reason
        detail := some (gate.detail.getD ((GateReason.disposition gate.reason).text ++
          js " (gate recorded no reason)")) } := by
  unfold resolveItRecord
  rw [if_neg hf, if_neg hp]

/-- `OBSERVATION_PREFIX`. -/
def observationPrefix : JsString := js "observed: "

/-- `attachObservation`. -/
def attachObservation (detail observation : Option JsString) : Option JsString :=
  if isBlank observation = true then detail
  else if isBlank detail = true then some (observationPrefix ++ observation.getD [])
  else some (detail.getD [] ++ js " · " ++ observationPrefix ++ observation.getD [])

end Resolution

section Recorder

/-- What the recorder reads of the environment. -/
structure RunnerEnv where
  gates : GateEnv
  corpus : CorpusEnv
  /-- `targetMajor() === 2`. -/
  atMajor2 : Bool

/-- A test of a scenario file, as its recorder finds it. -/
structure Test where
  /-- The base name of its file. -/
  file : JsString
  /-- The explicit id, else the allocated one. -/
  requirementId : JsString
  name : JsString
  body : List BodyStep
  state : FileTestState
  assertionCalls : Nat
  noted : Option ItNote
  firstError : Option JsString
  observation : Option JsString
  evidence : Option Json

/-- The gate decision the recorder takes from a test's part of the journal. -/
def gateNote (since : List LedgerEntry) : Option GateNote :=
  ((since.find? fun e => e.disposition = .inapplicable).map fun e =>
    GateNote.mk .inapplicable e.detail).or
  ((since.find? fun e => e.disposition = .skipped).map fun e => GateNote.mk .skipped e.detail)

/-- The file is a corpus scenario and the corpus gate is off. -/
def isCoherence (env : CorpusEnv) (file : JsString) : Bool :=
  env.corpusGate = false ∧
    (file ∈ env.specCoherenceScenarios ∨ fileStem file ∈ env.specCoherenceScenarios)

/-- The disposition of a test and its detail, before an observation is attached. -/
def Test.resolve (env : RunnerEnv) (t : Test) (since : List LedgerEntry) : FileRecord :=
  if isCoherence env.corpus t.file = true then
    { disposition := .inapplicable, detail := some specCoherenceDetail }
  else
    resolveItRecord t.state t.assertionCalls (gateNote since) t.noted t.firstError env.atMajor2 t.name

/-- What the recorder records for a test. -/
def Test.call (env : RunnerEnv) (t : Test) (since : List LedgerEntry) : Call where
  requirementId := t.requirementId
  disposition := (t.resolve env since).disposition
  detail := attachObservation (t.resolve env since).detail t.observation
  extras := {
    assertionCount := some t.assertionCalls
    scenarioFile := some t.file
    evidence := t.evidence
    fold := true }

/-- What is journaled while a body runs. -/
def journalSince (env : GateEnv) (s : LedgerState) (body : List BodyStep) : List LedgerEntry :=
  (runBody env s body).journal.drop s.journal.length

/-- A test runs, and its recorder after it. -/
def Test.run (env : RunnerEnv) (s : LedgerState) (t : Test) : LedgerState :=
  (runBody env.gates s t.body).after (t.call env (journalSince env.gates s t.body))

/-- What happens in a worker: a test, or a record made outside of any. -/
inductive Event where
  | test (t : Test)
  | other (call : Call)

def Event.run (env : RunnerEnv) (s : LedgerState) : Event → LedgerState
  | .test t => t.run env s
  | .other call => s.after call

/-- A worker's ledger after its events. -/
def runWorker (env : RunnerEnv) (events : List Event) : LedgerState :=
  events.foldl (Event.run env) .initial

/-- The tests among the events, each with the ledger it starts with. -/
def testsFrom (env : RunnerEnv) : LedgerState → List Event → List (LedgerState × Test)
  | _, [] => []
  | s, .test t :: events => (s, t) :: testsFrom env (t.run env s) events
  | s, .other call :: events => testsFrom env (s.after call) events

/-- The ids an event records under besides a test's own. -/
def Event.otherIds : Event → List JsString
  | .test t => t.body.map BodyStep.recordsUnder
  | .other call => [call.requirementId]

end Recorder

end OpenWop.OptOut
