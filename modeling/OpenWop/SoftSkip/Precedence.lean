import OpenWop.SoftSkip.Channels

/-!
# Which channel decides

For a test or a file that neither failed nor counted an assertion, what was recorded since it
began goes before its notes, and `inapplicable` before `skipped`. So a gate can make the
disposition more certifiable than a note; where nothing was recorded that way, no note is less
certifiable than the disposition.
-/

namespace OpenWop.SoftSkip

open OpenWop.Js OpenWop.Ledger OpenWop.Certification OpenWop.OptOut

/-- No note and no gate record is less certifiable than the disposition. -/
structure WorstFirst (d : Disposition) (notes : List NoteCall) (gates : List Disposition) :
    Prop where
  notes : ∀ call ∈ notes, certifiabilityRank d ≤ certifiabilityRank call.note.kind.disposition
  gates : ∀ g ∈ gates, certifiabilityRank d ≤ certifiabilityRank g

/-- What was recorded goes before what was noted, and `inapplicable` before `skipped`. -/
structure GatesFirst (d : Disposition) (notes : List NoteCall) (gates : List Disposition)
    (since : List LedgerEntry) : Prop where
  /-- Where nothing recorded could decide, the notes are folded worst-first. -/
  notes : (∀ e ∈ since, e.disposition ≠ .inapplicable ∧ e.disposition ≠ .skipped) →
    ∀ call ∈ notes, certifiabilityRank d ≤ certifiabilityRank call.note.kind.disposition
  inapplicable : .inapplicable ∈ gates → d = .inapplicable
  skipped : .skipped ∈ gates → (∀ e ∈ since, e.disposition ≠ .inapplicable) → d = .skipped

section Test

theorem gateNote_of_inapplicable {since : List LedgerEntry}
    (h : ∃ e ∈ since, e.disposition = .inapplicable) :
    ∃ detail, gateNote since = some ⟨.inapplicable, detail⟩ := by
  obtain ⟨e, he, hd⟩ := h
  have hsome : (since.find? fun e => e.disposition = .inapplicable).isSome :=
    List.find?_isSome.mpr ⟨e, he, by simpa using hd⟩
  obtain ⟨found, hfound⟩ := Option.isSome_iff_exists.mp hsome
  exact ⟨found.detail, by rw [gateNote, hfound, Option.map_some, Option.some_or]⟩

theorem find?_inapplicable_eq_none {since : List LedgerEntry}
    (h : ∀ e ∈ since, e.disposition ≠ .inapplicable) :
    since.find? (fun e => e.disposition = .inapplicable) = none :=
  List.find?_eq_none.mpr fun e he => by simpa using h e he

theorem gateNote_of_skipped {since : List LedgerEntry}
    (hnone : ∀ e ∈ since, e.disposition ≠ .inapplicable)
    (h : ∃ e ∈ since, e.disposition = .skipped) :
    ∃ detail, gateNote since = some ⟨.skipped, detail⟩ := by
  obtain ⟨e, he, hd⟩ := h
  have hsome : (since.find? fun e => e.disposition = .skipped).isSome :=
    List.find?_isSome.mpr ⟨e, he, by simpa using hd⟩
  obtain ⟨found, hfound⟩ := Option.isSome_iff_exists.mp hsome
  refine ⟨found.detail, ?_⟩
  rw [gateNote, find?_inapplicable_eq_none hnone, hfound, Option.map_none, Option.none_or,
    Option.map_some]

theorem gateNote_eq_none {since : List LedgerEntry}
    (h : ∀ e ∈ since, e.disposition ≠ .inapplicable ∧ e.disposition ≠ .skipped) :
    gateNote since = none := by
  have hskipped : since.find? (fun e => e.disposition = .skipped) = none :=
    List.find?_eq_none.mpr fun e he => by simpa using (h e he).2
  rw [gateNote, find?_inapplicable_eq_none fun e he => (h e he).1, hskipped]
  rfl

variable {env : RunnerEnv} {w : Worker} {file : JsString} {t : ItRun}

/-- A test that neither failed nor asserted takes what was recorded, else its folded note. -/
theorem ItRun.disposition_record (hhosted : isCoherence env.corpus file = false)
    (hfail : t.state ≠ .fail) (hcalls : t.assertionCalls = 0) :
    (t.record env file w).disposition =
      ((gateNote (t.since env w)).map fun gate => GateReason.disposition gate.reason).getD
        (((fold ((notesOf t.steps).map NoteCall.note)).map fun note => note.kind.disposition).getD
          (if t.state = .pass then .blocked else .skipped)) := by
  have hpass : ¬ (t.state = .pass ∧ t.assertionCalls > 0) := fun h => by
    have hpos := h.2
    omega
  rw [ItRun.record, Test.resolve, if_neg (by simpa [ItRun.test] using hhosted)]
  change FileRecord.disposition (resolveItRecord t.state t.assertionCalls _
    (softSkipDispositionSince ..) _ _ _) = _
  rw [resolveItRecord_of_unasserted hfail hpass, softSkipDispositionSince_runNotes]

/-- The channels of such a test go by precedence. -/
theorem ItRun.gatesFirst (hhosted : isCoherence env.corpus file = false)
    (hfail : t.state ≠ .fail) (hcalls : t.assertionCalls = 0) :
    GatesFirst (t.record env file w).disposition (notesOf t.steps)
      (gateRecordsOf env.gates w.ledger (bodyOf t.steps)) (t.since env w) := by
  rw [ItRun.disposition_record hhosted hfail hcalls]
  refine ⟨fun hnone call hcall => ?_, fun hgate => ?_, fun hgate hnone => ?_⟩
  · rw [gateNote_eq_none hnone]
    cases hfold : fold ((notesOf t.steps).map NoteCall.note) with
    | none =>
      rw [fold_eq_none_iff, List.map_eq_nil_iff] at hfold
      rw [hfold] at hcall
      cases hcall
    | some note => exact (rank_le_iff ..).mp ((fold_kind hfold).2 _ (List.mem_map_of_mem hcall))
  · obtain ⟨detail, hnote⟩ := gateNote_of_inapplicable (mem_since_of_gateRecord hgate)
    rw [hnote]
    rfl
  · obtain ⟨detail, hnote⟩ := gateNote_of_skipped hnone (mem_since_of_gateRecord hgate)
    rw [hnote]
    rfl

end Test

section File

variable {env : CorpusEnv} {states : List FileTestState} {file : Option JsString}
  {failures : List TestFailure}

theorem length_filter_fail (hfail : .fail ∉ states) :
    (states.filter (· = FileTestState.fail)).length = 0 := by
  rw [List.length_eq_zero_iff, List.filter_eq_nil_iff]
  intro state hstate
  simpa using fun h : state = .fail => hfail (h ▸ hstate)

/-- A gate decides a file that neither failed nor asserted. -/
theorem resolveFileRecord_of_gate (hcorpus : isCorpusSkip env states 0 file = false)
    (hfail : .fail ∉ states) (gate : GateReason) (noted : Option Certification.Note) :
    (resolveFileRecord env states (some gate) 0 noted file failures).disposition =
      GateReason.disposition gate := by
  have hrecord : (fileDisposition states (some gate) (some 0) failures).disposition =
      GateReason.disposition gate := by
    simp only [fileDisposition, length_filter_fail hfail]
    cases gate <;> by_cases hpass : FileTestState.pass ∈ states <;>
      simp [hpass, GateReason.disposition]
  have hpass : GateReason.disposition gate ≠ .executedPass := by
    cases gate <;> simp [GateReason.disposition]
  unfold resolveFileRecord
  rw [if_neg (by simp [hcorpus])]
  dsimp only
  rw [if_neg (by simp [hrecord, hpass])]
  rcases noted with _ | note
  · exact hrecord
  · dsimp only
    rw [if_neg (by simp), if_neg (by simp [hrecord, hpass])]
    exact hrecord

/-- Without a gate the note of such a file is no less certifiable than its disposition. -/
theorem resolveFileRecord_of_note (hcorpus : isCorpusSkip env states 0 file = false)
    (hfail : .fail ∉ states) (note : Certification.Note) :
    certifiabilityRank (resolveFileRecord env states none 0 (some note) file failures).disposition ≤
      certifiabilityRank note.kind.disposition := by
  have hblocked : certifiabilityRank .blocked ≤ certifiabilityRank note.kind.disposition := by
    cases note.kind <;> decide
  unfold resolveFileRecord
  rw [if_neg (by simp [hcorpus])]
  dsimp only
  split
  · exact le_refl _
  · next hrecord =>
    split
    · exact le_refl _
    · rw [if_neg fun h => hrecord ⟨h, rfl⟩]
      have hpass : FileTestState.pass ∉ states := fun hpass => hrecord ⟨by
        simp [fileDisposition, length_filter_fail hfail, hpass], rfl⟩
      simpa [fileDisposition, length_filter_fail hfail, hpass] using hblocked

variable {env : RunnerEnv} {w : Worker} {r : FileRun}

theorem gateReason_of_inapplicable {since : List LedgerEntry}
    (h : ∃ e ∈ since, e.disposition = .inapplicable) : gateReason since = some .inapplicable := by
  obtain ⟨e, he, hd⟩ := h
  rw [gateReason, if_pos (List.any_eq_true.mpr ⟨e, he, by simpa using hd⟩)]

theorem any_inapplicable_eq_false {since : List LedgerEntry}
    (h : ∀ e ∈ since, e.disposition ≠ .inapplicable) :
    ¬ since.any (fun e => e.disposition = .inapplicable) = true := by
  rw [Bool.not_eq_true, List.any_eq_false]
  exact fun e he => by simpa using h e he

theorem gateReason_of_skipped {since : List LedgerEntry}
    (hnone : ∀ e ∈ since, e.disposition ≠ .inapplicable)
    (h : ∃ e ∈ since, e.disposition = .skipped) : gateReason since = some .skipped := by
  obtain ⟨e, he, hd⟩ := h
  rw [gateReason, if_neg (any_inapplicable_eq_false hnone),
    if_pos (List.any_eq_true.mpr ⟨e, he, by simpa using hd⟩)]

theorem gateReason_eq_none {since : List LedgerEntry}
    (h : ∀ e ∈ since, e.disposition ≠ .inapplicable ∧ e.disposition ≠ .skipped) :
    gateReason since = none := by
  rw [gateReason, if_neg (any_inapplicable_eq_false fun e he => (h e he).1), if_neg]
  rw [Bool.not_eq_true, List.any_eq_false]
  exact fun e he => by simpa using (h e he).2

/-- The channels of a file that neither failed nor asserted go by precedence. -/
theorem FileRun.gatesFirst
    (hcorpus : isCorpusSkip env.corpus r.states r.assertionCount (some r.file) = false)
    (hfail : .fail ∉ r.states) (hcount : r.assertionCount = 0) :
    GatesFirst (r.record env w).disposition r.notes (fileGateRecords env r.file w r.parts)
      (r.since env w) := by
  rw [hcount] at hcorpus
  rw [FileRun.record, hcount]
  refine ⟨fun hnone call hcall => ?_, fun hgate => ?_, fun hgate hnone => ?_⟩
  · obtain ⟨note, hnote, hle⟩ := exists_noted_le env w hcall
    rw [gateReason_eq_none hnone, hnote, Option.map_some]
    exact (resolveFileRecord_of_note hcorpus hfail _).trans ((rank_le_iff ..).mp hle)
  · rw [gateReason_of_inapplicable (mem_since_of_fileGateRecord hgate),
      resolveFileRecord_of_gate hcorpus hfail]
    rfl
  · rw [gateReason_of_skipped hnone (mem_since_of_fileGateRecord hgate),
      resolveFileRecord_of_gate hcorpus hfail]
    rfl

end File

/-- In every worker the channels of every test and every file that neither failed nor asserted go
by precedence, the corpus scenarios apart. -/
theorem channels_by_precedence (env : RunnerEnv) (w : Worker) :
    (∀ (file : JsString) (t : ItRun), isCoherence env.corpus file = false → t.state ≠ .fail →
      t.assertionCalls = 0 → GatesFirst (t.record env file w).disposition (notesOf t.steps)
        (gateRecordsOf env.gates w.ledger (bodyOf t.steps)) (t.since env w)) ∧
    ∀ r : FileRun, isCorpusSkip env.corpus r.states r.assertionCount (some r.file) = false →
      .fail ∉ r.states → r.assertionCount = 0 → GatesFirst (r.record env w).disposition r.notes
        (fileGateRecords env r.file w r.parts) (r.since env w) :=
  ⟨fun _ _ hhosted hfail hcalls => ItRun.gatesFirst hhosted hfail hcalls,
    fun _ hcorpus hfail hcount => FileRun.gatesFirst hcorpus hfail hcount⟩

/-- A run that opts nothing out. -/
def plainEnv : RunnerEnv where
  gates := { optedOutProfiles := [], requireBehavior := false }
  corpus := { specCoherenceScenarios := [], corpusGate := false }
  atMajor2 := true

/-- A fresh worker. -/
def Worker.initial : Worker := ⟨.initial, .initial⟩

/-- A test that passes a gate for a profile the host lacks and finds a seam missing. -/
def gatedAndBlocked : ItRun where
  requirementId := js "openwop.it.gated.seam"
  name := js "seam"
  steps := [.note (.softSkip .blocked (js "seam 404")), .ledger (.gate (js "p") false)]
  state := .pass
  assertionCalls := 0
  firstError := none
  observation := none
  evidence := none

/-- The file of that test. -/
def gatedFile : FileRun where
  file := js "gated.test.ts"
  parts := [.it gatedAndBlocked]
  hiddenStates := []
  hiddenFailures := []

theorem gateRecord_unadvertised : gateRecord plainEnv.gates LedgerState.initial
    (.gate (js "p") false) = some .inapplicable := by
  decide

/-- The gate makes the test and its file `inapplicable`, although a note says `blocked`. -/
theorem gated_note_not_worstFirst :
    ¬ WorstFirst (gatedAndBlocked.record plainEnv gatedFile.file .initial).disposition
      (notesOf gatedAndBlocked.steps)
      (gateRecordsOf plainEnv.gates LedgerState.initial (bodyOf gatedAndBlocked.steps)) ∧
    ¬ WorstFirst (gatedFile.record plainEnv .initial).disposition gatedFile.notes
      (fileGateRecords plainEnv gatedFile.file .initial gatedFile.parts) := by
  have hnote : NoteCall.softSkip .blocked (js "seam 404") ∈ gatedFile.notes := List.mem_cons_self ..
  have hgate : .inapplicable ∈
      gateRecordsOf plainEnv.gates LedgerState.initial (bodyOf gatedAndBlocked.steps) :=
    List.mem_append_left _ (Option.mem_toList.mpr gateRecord_unadvertised)
  constructor
  · intro h
    have hit : (gatedAndBlocked.record plainEnv gatedFile.file .initial).disposition =
        .inapplicable := (ItRun.gatesFirst rfl (by decide) rfl).inapplicable hgate
    have hle := h.notes _ hnote
    rw [hit] at hle
    exact absurd hle (by decide)
  · intro h
    have hfile : (gatedFile.record plainEnv .initial).disposition = .inapplicable :=
      (FileRun.gatesFirst rfl (by decide) rfl).inapplicable (List.mem_append_left _ hgate)
    have hle := h.notes _ hnote
    rw [hfile] at hle
    exact absurd hle (by decide)

/-- The gate of that test decides it and its file. -/
theorem gated_by_precedence :
    (gatedAndBlocked.record plainEnv gatedFile.file .initial).disposition = .inapplicable ∧
      (gatedFile.record plainEnv .initial).disposition = .inapplicable := by
  have hgate : .inapplicable ∈
      gateRecordsOf plainEnv.gates LedgerState.initial (bodyOf gatedAndBlocked.steps) :=
    List.mem_append_left _ (Option.mem_toList.mpr gateRecord_unadvertised)
  have hlaw := channels_by_precedence plainEnv .initial
  exact ⟨(hlaw.1 gatedFile.file gatedAndBlocked rfl (by decide) rfl).inapplicable hgate,
    (hlaw.2 gatedFile rfl (by decide) rfl).inapplicable (List.mem_append_left _ hgate)⟩

end OpenWop.SoftSkip
