import OpenWop.Core.Reachable
import OpenWop.Ledger.Read

/-!
# The sink and the in-memory ledger of one process

The reader folds the lines of each scenario file apart and sums over files; memory
keeps one cumulative entry per requirement, under the file of the side that won.
The two agree as long as no call moves a requirement to another scenario file. The
invariant is that the reader's first pass holds exactly one file per requirement,
with the entry memory holds.
-/

namespace OpenWop.Ledger

open OpenWop.Js OpenWop.Core

/-- A call that is accepted leaves its requirement in the scenario file of the entry
stored before: it names that file, or folds in without winning. -/
def StaysInFile (s : LedgerState) (call : Call) : Prop :=
  ∀ prior ∈ s.ledger.get? call.requirementId, refusal (some prior) call = none →
    call.entry.fileKey = prior.fileKey ∨
      (call.extras.fold = true ∧
        certifiabilityRank prior.disposition ≤ certifiabilityRank call.disposition)

instance (s : LedgerState) (call : Call) : Decidable (StaysInFile s call) :=
  inferInstanceAs (Decidable (∀ prior ∈ s.ledger.get? call.requirementId, _ → _ ∨ _))

/-- The states of a process after calls that all meet the guard. -/
abbrev ReachedBy (guard : LedgerState → Call → Prop) : LedgerState → Prop :=
  Reachable LedgerState.after guard LedgerState.initial

/-- The first pass over a single row. -/
def soleRow (e : LedgerEntry) : FileRows := Map.empty.set e.fileKey e

/-- What the reader's first pass finds in the sink is what memory holds. -/
structure SinkAgrees (s : LedgerState) : Prop where
  keyed : ∀ id e, s.ledger.get? id = some e → e.requirementId = id
  firstPass : readPerFile (s.sink.filterMap readLine) = s.ledger.mapValues soleRow

theorem sinkAgrees_initial : SinkAgrees LedgerState.initial where
  keyed _ _ h := by simp [LedgerState.initial] at h
  firstPass := rfl

/-- A row of the same file that is not more certifiable takes the place of the sole row. -/
theorem keepLine_soleRow {prior e : LedgerEntry} (hf : e.fileKey = prior.fileKey)
    (hr : certifiabilityRank e.disposition ≤ certifiabilityRank prior.disposition) :
    keepLine (soleRow prior) e = soleRow e := by
  rw [keepLine, soleRow, hf]
  simp only [Map.get?_set_self, hr, if_true]
  rw [soleRow, hf]
  apply Map.ext
  simp [Map.set, Map.empty, Record.set]

/-- Under the guard the stored entry stays in the file of the entry before it. -/
theorem fileKey_stored {prior : LedgerEntry} {call : Call}
    (hg : call.entry.fileKey = prior.fileKey ∨
      (call.extras.fold = true ∧
        certifiabilityRank prior.disposition ≤ certifiabilityRank call.disposition)) :
    (stored (some prior) call).fileKey = prior.fileKey := by
  by_cases hf : call.extras.fold = true
  · by_cases hk : certifiabilityRank prior.disposition ≤ certifiabilityRank call.disposition
    · simp [stored, hf, foldEntry, hk, LedgerEntry.fileKey]
    · have he := hg.resolve_right fun h => hk h.2
      simpa [stored, hf, foldEntry, hk, LedgerEntry.fileKey] using he
  · have he := hg.resolve_right fun h => hf h.1
    simpa [stored, hf] using he

/-- One accepted call that stays in its file keeps the sink and the ledger in agreement. -/
theorem SinkAgrees.append {s : LedgerState} {call : Call} (hs : SinkAgrees s)
    (hr : refusal (s.ledger.get? call.requirementId) call = none) (hg : StaysInFile s call) :
    SinkAgrees (s.append (stored (s.ledger.get? call.requirementId) call)) := by
  set e := stored (s.ledger.get? call.requirementId) call with he
  have hid : e.requirementId = call.requirementId := stored_requirementId ..
  have hkeep : keepLine (((s.ledger.get? call.requirementId).map soleRow).getD Map.empty) e =
      soleRow e := by
    rcases hp : s.ledger.get? call.requirementId with _ | prior
    · rfl
    · rw [hp] at hr he
      have hg' := hg prior hp hr
      exact keepLine_soleRow (he ▸ fileKey_stored hg') (he ▸ certifiabilityRank_stored_le hr)
  constructor
  · intro id f hf
    rw [LedgerState.append, Map.get?_set] at hf
    split at hf
    · next hi =>
      cases hf
      exact hi.symm
    · exact hs.keyed id f hf
  · have hl : (s.sink ++ [e.toJson]).filterMap readLine = s.sink.filterMap readLine ++ [e] := by
      simp [readLine_toJson]
    rw [LedgerState.append, hl, readPerFile, List.foldl_append, ← readPerFile, hs.firstPass]
    simp only [List.foldl_cons, List.foldl_nil, addLine]
    rw [Map.get?_mapValues, hid, hkeep, Map.mapValues_set]

/-- Every call that stays in its file keeps the agreement, also one that throws. -/
theorem SinkAgrees.after {s : LedgerState} {call : Call} (hs : SinkAgrees s)
    (hg : StaysInFile s call) : SinkAgrees (s.after call) := by
  rcases after_cases s call with ⟨_, he⟩ | ⟨hr, he⟩
  · rwa [he]
  · rw [he]
    exact hs.append hr hg

/-- A single row is the fold of its file. -/
theorem mergeFiles_soleRow (collation : Collation) (e : LedgerEntry) :
    mergeFiles collation (soleRow e) = some e := by
  have hv : (soleRow e).values = [e] := rfl
  simp [mergeFiles, hv, sortBy]

/-- An agreeing sink reads back as the snapshot. -/
theorem SinkAgrees.readLedgerFile_eq {s : LedgerState} (hs : SinkAgrees s)
    (collation : Collation) : readLedgerFile collation s.sink = snapshot collation s := by
  have hv : (s.ledger.mapValues soleRow).values = s.ledger.values.map soleRow :=
    Record.values_mapValues ..
  have hm : mergeFiles collation ∘ soleRow = some := funext (mergeFiles_soleRow collation)
  rw [readLedgerFile, snapshot, hs.firstPass, hv, List.filterMap_map, hm, List.filterMap_some]

/-- Over every run whose calls stay in their requirement's scenario file, in every state
reached: the sink reads back as the snapshot, and a call that throws changes nothing. -/
theorem sink_agrees_of_staysInFile (collation : Collation) (s : LedgerState)
    (h : ReachedBy StaysInFile s) :
    readLedgerFile collation s.sink = snapshot collation s ∧
      ∀ call, Throws s call → s.after call = s := by
  have hs : SinkAgrees s := h.invariant sinkAgrees_initial fun _ _ hs hg => hs.after hg
  exact ⟨hs.readLedgerFile_eq collation, fun _ => after_of_throws⟩

/-- Run a list of calls in a fresh process. -/
def runCalls (calls : List Call) : LedgerState := calls.foldl LedgerState.after .initial

/-- A leg that passed with three assertions in the first file. -/
def passingLeg : Call where
  requirementId := js "openwop.requirement.0170.run-bulk-cancel"
  disposition := .executedPass
  extras := { assertionCount := some 3, scenarioFile := some (js "a.test.ts"), fold := true }

/-- A leg of the same file that failed on its seventh assertion. -/
def failingLeg : Call where
  requirementId := js "openwop.requirement.0170.run-bulk-cancel"
  disposition := .executedFail
  detail := some (js "an own entry MUST be ok: true")
  extras := { assertionCount := some 7, scenarioFile := some (js "a.test.ts"), fold := true }

/-- The legs of one file read back as one row with their ten assertions. -/
theorem sink_agrees_passing_failing :
    readLedgerFile codeUnitOrder (runCalls [passingLeg, failingLeg]).sink =
      snapshot codeUnitOrder (runCalls [passingLeg, failingLeg]) :=
  (sink_agrees_of_staysInFile codeUnitOrder (runCalls [passingLeg, failingLeg])
    (.step (.step .start (by decide)) (by decide))).1

/-- With the second leg in another file, memory counts ten assertions and the sink thirteen. -/
theorem sink_disagrees_across_files :
    readLedgerFile codeUnitOrder (runCalls [passingLeg, { failingLeg with extras :=
        { failingLeg.extras with scenarioFile := some (js "b.test.ts") } }]).sink ≠
      snapshot codeUnitOrder (runCalls [passingLeg, { failingLeg with extras :=
        { failingLeg.extras with scenarioFile := some (js "b.test.ts") } }]) := by
  decide

end OpenWop.Ledger
