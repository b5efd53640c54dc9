import OpenWop.SoftSkip.Notes

/-!
# Two channels into one disposition

A test that asserts nothing says why in two ways: its gates record their decisions in the ledger,
and its notes are stored under its file. The recorder of a test takes a gate's decision before any
note, an `inapplicable` one before a `skipped` one, and the recorder of a file does the same with
what was recorded since the file began. Only among the notes does the least certifiable win.
-/

namespace OpenWop.SoftSkip

open OpenWop.Js OpenWop.Ledger OpenWop.Certification OpenWop.OptOut

section Worker

/-- What a worker holds while its files run. -/
structure Worker where
  ledger : LedgerState
  softSkips : SoftSkips

/-- What a hook or a test body does. -/
inductive Step where
  | ledger (step : BodyStep)
  | note (call : NoteCall)

def Step.run (env : GateEnv) (file : JsString) (w : Worker) : Step → Worker
  | .ledger step => { w with ledger := step.run env w.ledger }
  | .note call => { w with softSkips := call.run (some file) w.softSkips }

/-- The worker after the steps of a file. -/
def runSteps (env : GateEnv) (file : JsString) (w : Worker) (steps : List Step) : Worker :=
  steps.foldl (Step.run env file) w

/-- The steps that go to the ledger. -/
def bodyOf (steps : List Step) : List BodyStep :=
  steps.filterMap fun
    | .ledger step => some step
    | .note _ => none

/-- The steps that leave a note. -/
def notesOf (steps : List Step) : List NoteCall :=
  steps.filterMap fun
    | .ledger _ => none
    | .note call => some call

/-- The two channels run independently of each other. -/
theorem runSteps_eq (env : GateEnv) (file : JsString) (w : Worker) (steps : List Step) :
    runSteps env file w steps =
      ⟨runBody env w.ledger (bodyOf steps), runNotes file w.softSkips (notesOf steps)⟩ := by
  induction steps generalizing w with
  | nil => rfl
  | cons step steps ih =>
    rw [runSteps, List.foldl_cons, ← runSteps, ih]
    cases step <;> rfl

/-- A test, as it runs. -/
structure ItRun where
  requirementId : JsString
  name : JsString
  steps : List Step
  state : FileTestState
  assertionCalls : Nat
  firstError : Option JsString
  observation : Option JsString
  evidence : Option Json

/-- The test its recorder finds: its notes are those written since its mark. -/
def ItRun.test (file : JsString) (w : Worker) (t : ItRun) : Test where
  file
  requirementId := t.requirementId
  name := t.name
  body := bodyOf t.steps
  state := t.state
  assertionCalls := t.assertionCalls
  noted := softSkipDispositionSince (runNotes file w.softSkips (notesOf t.steps)) file
    (softSkipMark w.softSkips)
  firstError := t.firstError
  observation := t.observation
  evidence := t.evidence

/-- What is recorded while a test runs. -/
def ItRun.since (env : RunnerEnv) (w : Worker) (t : ItRun) : List LedgerEntry :=
  journalSince env.gates w.ledger (bodyOf t.steps)

/-- What a test comes to. -/
def ItRun.record (env : RunnerEnv) (file : JsString) (w : Worker) (t : ItRun) : FileRecord :=
  (t.test file w).resolve env (t.since env w)

/-- The worker after a test and its recorder. -/
def ItRun.run (env : RunnerEnv) (file : JsString) (w : Worker) (t : ItRun) : Worker where
  ledger := (t.test file w).run env w.ledger
  softSkips := runNotes file w.softSkips (notesOf t.steps)

/-- What happens in a file: a hook of its own, or a test. -/
inductive Part where
  | hook (steps : List Step)
  | it (t : ItRun)

def Part.run (env : RunnerEnv) (file : JsString) (w : Worker) : Part → Worker
  | .hook steps => runSteps env.gates file w steps
  | .it t => t.run env file w

/-- The steps of a part. -/
def Part.steps : Part → List Step
  | .hook steps => steps
  | .it t => t.steps

/-- The test a part is. -/
def Part.it? : Part → Option ItRun
  | .hook _ => none
  | .it t => some t

/-- A scenario file, as it runs. -/
structure FileRun where
  /-- Its base name. -/
  file : JsString
  parts : List Part
  /-- The states `unrecordedTests` recovers. -/
  hiddenStates : List FileTestState
  /-- The failures `unrecordedTests` recovers. -/
  hiddenFailures : List TestFailure

namespace FileRun

variable (env : RunnerEnv) (w : Worker) (r : FileRun)

def its : List ItRun := r.parts.filterMap Part.it?

/-- The worker when the file ends. -/
def run : Worker := r.parts.foldl (Part.run env r.file) w

/-- `states`. -/
def states : List FileTestState := r.its.map ItRun.state ++ r.hiddenStates

/-- `_fileAssertions`. -/
def assertionCount : Nat := (r.its.map ItRun.assertionCalls).sum

/-- `_fileFailures`. -/
def failures : List TestFailure :=
  (r.its.filter fun t => t.state = .fail).map (fun t => ⟨t.name, t.firstError⟩) ++ r.hiddenFailures

/-- `journalSince(mark)`: what was recorded since the file began. -/
def since : List LedgerEntry := (r.run env w).ledger.journal.drop w.ledger.journal.length

/-- The notes written while the file ran. -/
def notes : List NoteCall := r.parts.flatMap fun part => notesOf part.steps

end FileRun

/-- `gateReason`. -/
def gateReason (since : List LedgerEntry) : Option GateReason :=
  if since.any (fun e => e.disposition = .inapplicable) then some .inapplicable
  else if since.any (fun e => e.disposition = .skipped) then some .skipped
  else none

/-- What a file comes to. -/
def FileRun.record (env : RunnerEnv) (w : Worker) (r : FileRun) : FileRecord :=
  resolveFileRecord env.corpus r.states (gateReason (r.since env w)) r.assertionCount
    ((softSkipDisposition (r.run env w).softSkips r.file).map fun note => ⟨note.kind, note.reason⟩)
    (some r.file) r.failures

end Worker

section Gates

/-- The decision a step records through a gate. -/
def gateRecord (env : GateEnv) (s : LedgerState) : BodyStep → Option Disposition
  | .record _ => none
  | .gate profileName advertised =>
    if advertised = true then none
    else if profileName ∈ env.optedOutProfiles then
      if refusal (s.ledger.get? (profileRequirementId profileName)) (optOutCall profileName) = none
      then some .skipped else none
    else if env.requireBehavior = true then none
    else if refusal (s.ledger.get? (profileRequirementId profileName))
        (unadvertisedCall profileName) = none
      then some .inapplicable else none

/-- The decisions gates record during a body. -/
def gateRecordsOf (env : GateEnv) : LedgerState → List BodyStep → List Disposition
  | _, [] => []
  | s, step :: body => (gateRecord env s step).toList ++ gateRecordsOf env (step.run env s) body

/-- The decisions gates record during a file. -/
def fileGateRecords (env : RunnerEnv) (file : JsString) : Worker → List Part → List Disposition
  | _, [] => []
  | w, part :: parts => gateRecordsOf env.gates w.ledger (bodyOf part.steps) ++
      fileGateRecords env file (part.run env file w) parts

/-- A call journals the entry it stores, or nothing. -/
theorem journal_after (s : LedgerState) (call : Call) : ∃ added,
    (s.after call).journal = s.journal ++ added ∧
      (refusal (s.ledger.get? call.requirementId) call = none →
        stored (s.ledger.get? call.requirementId) call ∈ added) := by
  rcases after_cases s call with ⟨⟨message, hthrows⟩, hafter⟩ | ⟨hnone, hafter⟩
  · refine ⟨[], by rw [hafter, List.append_nil], fun hnone => ?_⟩
    rw [recordRequirement_run, hnone] at hthrows
    cases hthrows
  · exact ⟨[_], by rw [hafter, LedgerState.append], fun _ => List.mem_singleton_self _⟩

/-- An accepted call that does not fold stores its own disposition. -/
theorem stored_disposition {prior : Option LedgerEntry} {call : Call}
    (hfold : call.extras.fold = false) : (stored prior call).disposition = call.disposition := by
  cases prior with
  | none => rfl
  | some p => simp [stored, hfold, Call.entry]

/-- A step only adds to the journal, and adds the decision its gate records. -/
theorem journal_step (env : GateEnv) (s : LedgerState) (step : BodyStep) : ∃ added,
    (step.run env s).journal = s.journal ++ added ∧
      ∀ d ∈ gateRecord env s step, ∃ e ∈ added, e.disposition = d := by
  cases step with
  | record call =>
    obtain ⟨added, hadded, -⟩ := journal_after s call
    exact ⟨added, hadded, fun d hd => by cases hd⟩
  | gate profileName advertised =>
    have hcall (call : Call) (hid : call.requirementId = profileRequirementId profileName)
        (hfold : call.extras.fold = false) : ∃ added, (s.after call).journal = s.journal ++ added ∧
        ∀ d ∈ (if refusal (s.ledger.get? (profileRequirementId profileName)) call = none
          then some call.disposition else none : Option Disposition),
          ∃ e ∈ added, e.disposition = d := by
      obtain ⟨added, hadded, hmem⟩ := journal_after s call
      refine ⟨added, hadded, fun d hd => ?_⟩
      rw [hid] at hmem
      split at hd
      · next hnone =>
        obtain rfl := Option.some.inj hd
        exact ⟨_, hmem hnone, stored_disposition hfold⟩
      · cases hd
    rw [BodyStep.run, behaviorGate_state, gateRecord]
    split
    · exact ⟨[], (List.append_nil _).symm, fun d hd => by cases hd⟩
    · split
      · exact hcall (optOutCall profileName) rfl rfl
      · split
        · exact ⟨[], (List.append_nil _).symm, fun d hd => by cases hd⟩
        · exact hcall (unadvertisedCall profileName) rfl rfl

/-- A body only adds to the journal, and adds every decision its gates record. -/
theorem journal_runBody (env : GateEnv) (s : LedgerState) (body : List BodyStep) : ∃ added,
    (runBody env s body).journal = s.journal ++ added ∧
      ∀ d ∈ gateRecordsOf env s body, ∃ e ∈ added, e.disposition = d := by
  induction body generalizing s with
  | nil => exact ⟨[], (List.append_nil _).symm, fun d hd => by cases hd⟩
  | cons step body ih =>
    obtain ⟨first, hfirst, hmem⟩ := journal_step env s step
    obtain ⟨rest, hrest, hmem'⟩ := ih (step.run env s)
    refine ⟨first ++ rest, ?_, fun d hd => ?_⟩
    · rw [runBody, List.foldl_cons, ← runBody, hrest, hfirst, List.append_assoc]
    · rw [gateRecordsOf, List.mem_append, Option.mem_toList] at hd
      rcases hd with hd | hd
      · obtain ⟨e, he, hdisp⟩ := hmem d hd
        exact ⟨e, List.mem_append_left _ he, hdisp⟩
      · obtain ⟨e, he, hdisp⟩ := hmem' d hd
        exact ⟨e, List.mem_append_right _ he, hdisp⟩

/-- The decisions of a test's gates are among what was recorded while it ran. -/
theorem mem_since_of_gateRecord {env : RunnerEnv} {w : Worker} {t : ItRun} {d : Disposition}
    (hd : d ∈ gateRecordsOf env.gates w.ledger (bodyOf t.steps)) :
    ∃ e ∈ t.since env w, e.disposition = d := by
  obtain ⟨added, hadded, hmem⟩ := journal_runBody env.gates w.ledger (bodyOf t.steps)
  rw [ItRun.since, journalSince, hadded, List.drop_left]
  exact hmem d hd

/-- A part only adds to the journal, and adds every decision its gates record. -/
theorem journal_part (env : RunnerEnv) (file : JsString) (w : Worker) (part : Part) : ∃ added,
    (part.run env file w).ledger.journal = w.ledger.journal ++ added ∧
      ∀ d ∈ gateRecordsOf env.gates w.ledger (bodyOf part.steps),
        ∃ e ∈ added, e.disposition = d := by
  obtain ⟨added, hadded, hmem⟩ := journal_runBody env.gates w.ledger (bodyOf part.steps)
  cases part with
  | hook steps =>
    refine ⟨added, ?_, hmem⟩
    rw [Part.run, runSteps_eq]
    exact hadded
  | it t =>
    obtain ⟨row, hrow, -⟩ := journal_after (runBody env.gates w.ledger (bodyOf t.steps))
      ((t.test file w).call env (t.since env w))
    refine ⟨added ++ row, ?_, fun d hd => ?_⟩
    · rw [← List.append_assoc, ← hadded]
      exact hrow
    · obtain ⟨e, he, hdisp⟩ := hmem d hd
      exact ⟨e, List.mem_append_left _ he, hdisp⟩

theorem journal_parts (env : RunnerEnv) (file : JsString) (w : Worker) (parts : List Part) :
    ∃ added, (parts.foldl (Part.run env file) w).ledger.journal = w.ledger.journal ++ added ∧
      ∀ d ∈ fileGateRecords env file w parts, ∃ e ∈ added, e.disposition = d := by
  induction parts generalizing w with
  | nil => exact ⟨[], (List.append_nil _).symm, fun d hd => by cases hd⟩
  | cons part parts ih =>
    obtain ⟨first, hfirst, hmem⟩ := journal_part env file w part
    obtain ⟨rest, hrest, hmem'⟩ := ih (part.run env file w)
    refine ⟨first ++ rest, ?_, fun d hd => ?_⟩
    · rw [List.foldl_cons, hrest, hfirst, List.append_assoc]
    · rcases List.mem_append.mp hd with hd | hd
      · obtain ⟨e, he, hdisp⟩ := hmem d hd
        exact ⟨e, List.mem_append_left _ he, hdisp⟩
      · obtain ⟨e, he, hdisp⟩ := hmem' d hd
        exact ⟨e, List.mem_append_right _ he, hdisp⟩

/-- The decisions of a file's gates are among what was recorded while it ran. -/
theorem mem_since_of_fileGateRecord {env : RunnerEnv} {w : Worker} {r : FileRun} {d : Disposition}
    (hd : d ∈ fileGateRecords env r.file w r.parts) : ∃ e ∈ r.since env w, e.disposition = d := by
  obtain ⟨added, hadded, hmem⟩ := journal_parts env r.file w r.parts
  rw [FileRun.since, FileRun.run, hadded, List.drop_left]
  exact hmem d hd

end Gates

section Notes

/-- The notes of a file's parts are stored under it. -/
theorem of_parts (env : RunnerEnv) (file : JsString) (w : Worker) (parts : List Part) :
    ∃ added : List Note, (parts.foldl (Part.run env file) w).softSkips.of file =
      w.softSkips.of file ++ added ∧
      added.map Note.toItNote =
        (parts.flatMap fun part => notesOf part.steps).map NoteCall.note := by
  induction parts generalizing w with
  | nil => exact ⟨[], (List.append_nil _).symm, rfl⟩
  | cons part parts ih =>
    have hpart : (part.run env file w).softSkips =
        runNotes file w.softSkips (notesOf part.steps) := by
      cases part with
      | hook steps =>
        rw [Part.run, runSteps_eq]
        rfl
      | it t => rfl
    obtain ⟨first, hfirst, hnotes, -⟩ := of_runNotes file w.softSkips (notesOf part.steps)
    obtain ⟨rest, hrest, hnotes'⟩ := ih (part.run env file w)
    refine ⟨first ++ rest, ?_, ?_⟩
    · rw [List.foldl_cons, hrest, hpart, hfirst, List.append_assoc]
    · rw [List.map_append, hnotes, hnotes', List.flatMap_cons, List.map_append]

/-- What a file folds is no more certifiable than any note written while it ran. -/
theorem exists_noted_le (env : RunnerEnv) (w : Worker) {r : FileRun} {call : NoteCall}
    (hcall : call ∈ r.notes) :
    ∃ note, softSkipDisposition (r.run env w).softSkips r.file = some note ∧
      rank note.kind ≤ rank call.note.kind := by
  obtain ⟨added, hadded, hnotes⟩ := of_parts env r.file w r.parts
  rw [softSkipDisposition, FileRun.run, hadded, List.map_append, hnotes]
  have hmem : call.note ∈ (w.softSkips.of r.file).map Note.toItNote ++
      (r.parts.flatMap fun part => notesOf part.steps).map NoteCall.note :=
    List.mem_append_right _ (List.mem_map_of_mem hcall)
  cases hfold : fold ((w.softSkips.of r.file).map Note.toItNote ++
      (r.parts.flatMap fun part => notesOf part.steps).map NoteCall.note) with
  | none =>
    rw [fold_eq_none_iff] at hfold
    rw [hfold] at hmem
    cases hmem
  | some note => exact ⟨note, rfl, (fold_kind hfold).2 _ hmem⟩

end Notes

end OpenWop.SoftSkip
