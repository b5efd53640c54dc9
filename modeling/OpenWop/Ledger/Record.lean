import OpenWop.Js.Json
import OpenWop.Js.Sort

/-!
# The requirement ledger: recording

`recordRequirement` keeps one entry per requirement in memory, journals every
recording, and appends the entry it stored to the sink as one line. A second
disposition for one requirement throws unless the caller folds; folding keeps the
least certifiable of the two and sums their counts.

A sink line is given by the JSON value whose text is appended. Assertion counts are
natural numbers. The sink is active, and appending to it succeeds.
-/

namespace OpenWop.Ledger

open OpenWop.Js

/-- The outcome of a requirement in one run. -/
inductive Disposition where
  | executedPass
  | executedFail
  | skipped
  | inapplicable
  | blocked
  deriving DecidableEq, Repr

/-- The word a disposition is written as. -/
def Disposition.text : Disposition → JsString
  | .executedPass => js "executed-pass"
  | .executedFail => js "executed-fail"
  | .skipped => js "skipped"
  | .inapplicable => js "inapplicable"
  | .blocked => js "blocked"

/-- `DISPOSITIONS`. -/
def dispositions : List Disposition :=
  [.executedPass, .executedFail, .skipped, .inapplicable, .blocked]

/-- `CERTIFIABLE`: the dispositions that permit a profile to certify. -/
def certifiable : List Disposition := [.executedPass, .skipped, .inapplicable]

/-- `CERTIFIABILITY_RANK`: how certifiable a disposition is, least first. -/
def certifiabilityRank : Disposition → Nat
  | .executedFail => 0
  | .blocked => 1
  | .executedPass => 2
  | .skipped => 3
  | .inapplicable => 4

theorem certifiabilityRank_injective : Function.Injective certifiabilityRank := by
  intro a b h
  cases a <;> cases b <;> first | rfl | cases h

/-- The disposition a word names. -/
def disposition? (word : JsString) : Option Disposition :=
  dispositions.find? fun d => d.text = word

@[simp] theorem disposition?_text (d : Disposition) : disposition? d.text = some d := by
  cases d <;> decide

/-- One row of the ledger. -/
structure LedgerEntry where
  requirementId : JsString
  disposition : Disposition
  detail : Option JsString
  assertionCount : Option Nat
  scenarioFile : Option JsString
  evidence : Option Json
  deriving DecidableEq, Repr

/-- The optional arguments of `recordRequirement`. -/
structure Extras where
  assertionCount : Option Nat := none
  scenarioFile : Option JsString := none
  evidence : Option Json := none
  fold : Bool := false
  deriving DecidableEq, Repr

/-- The arguments of one call. -/
structure Call where
  requirementId : JsString
  disposition : Disposition
  detail : Option JsString := none
  extras : Extras := {}
  deriving DecidableEq, Repr

/-- What one process holds: the in-memory ledger, the journal and its sink lines. -/
structure LedgerState where
  ledger : Map JsString LedgerEntry
  journal : List LedgerEntry
  sink : List Json

/-- The state of a fresh process. -/
def LedgerState.initial : LedgerState := ⟨Map.empty, [], []⟩

section Lines

/-- A member that is left out when it is undefined. -/
def optionalMember (name : JsString) : Option Json → List (JsString × Json)
  | none => []
  | some v => [(name, v)]

/-- The value `JSON.stringify(entry)` writes. -/
def LedgerEntry.toJson (e : LedgerEntry) : Json :=
  .obj ([(js "requirementId", .str e.requirementId), (js "disposition", .str e.disposition.text)] ++
    optionalMember (js "detail") (e.detail.map .str) ++
    optionalMember (js "assertionCount") (e.assertionCount.map fun n => .num (JsNumber.ofNat n)) ++
    optionalMember (js "scenarioFile") (e.scenarioFile.map .str) ++
    optionalMember (js "evidence") e.evidence)

/-- The string a value is. -/
def asString : Json → Option JsString
  | .str s => some s
  | _ => none

/-- The natural number a value is. -/
def asNat : Json → Option Nat
  | .num n => n.toNat?
  | _ => none

/-- A line read back: it is dropped unless it names a requirement and a disposition. -/
def readLine (line : Json) : Option LedgerEntry := do
  let requirementId ← (line.member? (js "requirementId")).bind asString
  let disposition ← ((line.member? (js "disposition")).bind asString).bind disposition?
  return {
    requirementId
    disposition
    detail := (line.member? (js "detail")).bind asString
    assertionCount := (line.member? (js "assertionCount")).bind asNat
    scenarioFile := (line.member? (js "scenarioFile")).bind asString
    evidence := line.member? (js "evidence") }

private theorem get?_optionalMember (name key : JsString) (v : Option Json) :
    Record.get? (optionalMember name v) key = if name = key then v else none := by
  cases v with
  | none => simp [optionalMember]
  | some v => simp [optionalMember, Record.get?_cons]

/-- Reading a written line gives the entry back. -/
theorem readLine_toJson (e : LedgerEntry) : readLine e.toJson = some e := by
  obtain ⟨requirementId, disposition, detail, assertionCount, scenarioFile, evidence⟩ := e
  have hdetail : (detail.map Json.str).bind asString = detail := by cases detail <;> rfl
  have hcount : (assertionCount.map fun n => Json.num (JsNumber.ofNat n)).bind asNat =
      assertionCount := by
    cases assertionCount with
    | none => rfl
    | some n => exact JsNumber.toNat?_ofNat n
  have hfile : (scenarioFile.map Json.str).bind asString = scenarioFile := by
    cases scenarioFile <;> rfl
  simp +decide [readLine, LedgerEntry.toJson, Json.member?, Record.get?_append, Record.get?_cons,
    get?_optionalMember, asString, hdetail, hcount, hfile]

end Lines

section Recording

/-- `detail === undefined || detail.trim() === ''`. -/
def isBlank (detail : Option JsString) : Bool := (detail.map trim).getD [] = []

/-- The error of a second, different disposition. -/
def contradictionMessage (requirementId : JsString) (prior now : Disposition) : JsString :=
  js "RFC 0148 §A: " ++ requirementId ++ js " already recorded as '" ++ prior.text ++
    js "', now '" ++ now.text ++ js "'. " ++ js "Exactly one disposition per requirement per run."

/-- The error of a disposition that needs a reason and has none. -/
def reasonMessage (requirementId : JsString) (disposition : Disposition) : JsString :=
  js "RFC 0148 §A: " ++ requirementId ++ js " recorded as '" ++ disposition.text ++
    js "' without a reason. " ++ js "Anything other than executed-pass MUST say why, " ++
    js "or the ledger records an outcome nobody can act on."

/-- The entry a call records on its own. -/
def Call.entry (call : Call) : LedgerEntry where
  requirementId := call.requirementId
  disposition := call.disposition
  detail := call.detail
  assertionCount := call.extras.assertionCount
  scenarioFile := call.extras.scenarioFile
  evidence := if call.disposition = .executedPass then call.extras.evidence else none

/-- The least certifiable side keeps its own detail, file and evidence; counts sum. -/
def foldEntry (call : Call) (prior entry : LedgerEntry) : LedgerEntry :=
  let keepPrior := certifiabilityRank prior.disposition ≤ certifiabilityRank call.disposition
  let winner := if keepPrior then prior else entry
  let loser := if keepPrior then entry else prior
  let count := prior.assertionCount.getD 0 + call.extras.assertionCount.getD 0
  let hasCount := prior.assertionCount.isSome || call.extras.assertionCount.isSome
  { requirementId := call.requirementId
    disposition := winner.disposition
    detail := winner.detail.or loser.detail
    assertionCount := if hasCount then some count else none
    scenarioFile := winner.scenarioFile
    evidence := if winner.disposition = .executedPass then winner.evidence else none }

/-- `recordRequirement`. -/
def recordRequirement (call : Call) : ExceptT JsString (StateM LedgerState) Unit := do
  let prior := (← get).ledger.get? call.requirementId
  if let some p := prior then
    if p.disposition ≠ call.disposition ∧ call.extras.fold = false then
      throw (contradictionMessage call.requirementId p.disposition call.disposition)
  if call.disposition ≠ .executedPass ∧ isBlank call.detail = true then
    throw (reasonMessage call.requirementId call.disposition)
  let mut entry := call.entry
  if let some p := prior then
    if call.extras.fold = true then
      entry := foldEntry call p entry
  modify fun s =>
    { ledger := s.ledger.set call.requirementId entry
      journal := s.journal ++ [entry]
      sink := s.sink ++ [entry.toJson] }

/-- `snapshot`: the ledger sorted by requirement id. -/
def snapshot (collation : Collation) (s : LedgerState) : List LedgerEntry :=
  sortBy (collation.on LedgerEntry.requirementId) s.ledger.values

/-- The state after a call, whether it returns or throws. -/
def LedgerState.after (s : LedgerState) (call : Call) : LedgerState :=
  ((recordRequirement call).run.run s).2

/-- The call throws. -/
def Throws (s : LedgerState) (call : Call) : Prop :=
  ∃ message, ((recordRequirement call).run.run s).1 = .error message

/-- Why a call is refused, given what its requirement holds. -/
def refusal (prior : Option LedgerEntry) (call : Call) : Option JsString :=
  (prior.bind fun p =>
    if p.disposition ≠ call.disposition ∧ call.extras.fold = false then
      some (contradictionMessage call.requirementId p.disposition call.disposition)
    else none).or
  (if call.disposition ≠ .executedPass ∧ isBlank call.detail = true then
    some (reasonMessage call.requirementId call.disposition)
  else none)

/-- The entry an accepted call stores, given what its requirement holds. -/
def stored (prior : Option LedgerEntry) (call : Call) : LedgerEntry :=
  match prior with
  | some p => if call.extras.fold = true then foldEntry call p call.entry else call.entry
  | none => call.entry

/-- Store an entry in the ledger, the journal and the sink. -/
def LedgerState.append (s : LedgerState) (entry : LedgerEntry) : LedgerState where
  ledger := s.ledger.set entry.requirementId entry
  journal := s.journal ++ [entry]
  sink := s.sink ++ [entry.toJson]

@[simp] theorem stored_requirementId (prior : Option LedgerEntry) (call : Call) :
    (stored prior call).requirementId = call.requirementId := by
  cases prior with
  | none => rfl
  | some p =>
    simp only [stored]
    split <;> rfl

private theorem run_get_bind (body : LedgerState → ExceptT JsString (StateM LedgerState) Unit)
    (s : LedgerState) : (get >>= body).run.run s = (body s).run.run s := rfl

private theorem run_modify (f : LedgerState → LedgerState) (s : LedgerState) :
    (modify f : ExceptT JsString (StateM LedgerState) Unit).run.run s = (.ok (), f s) := rfl

/-- A call either throws and changes nothing, or stores one entry. -/
theorem recordRequirement_run (s : LedgerState) (call : Call) :
    (recordRequirement call).run.run s =
      match refusal (s.ledger.get? call.requirementId) call with
      | some message => (.error message, s)
      | none => (.ok (), s.append (stored (s.ledger.get? call.requirementId) call)) := by
  rw [recordRequirement, run_get_bind]
  by_cases hr : call.disposition ≠ .executedPass ∧ isBlank call.detail = true
  · rcases s.ledger.get? call.requirementId with _ | p
    · simp [refusal, hr]
      rfl
    · by_cases hc : p.disposition ≠ call.disposition ∧ call.extras.fold = false
      · simp [refusal, hc]
        rfl
      · simp [refusal, hc, hr]
        rfl
  · rcases s.ledger.get? call.requirementId with _ | p
    · simp [refusal, stored, hr, run_modify, LedgerState.append, Call.entry]
    · by_cases hc : p.disposition ≠ call.disposition ∧ call.extras.fold = false
      · simp [refusal, hc]
        rfl
      · by_cases hf : call.extras.fold = true
        · simp [refusal, stored, hr, hf, run_modify, LedgerState.append, foldEntry]
        · have he : p.disposition = call.disposition := by simpa [hf] using hc
          simp [refusal, stored, he, hr, hf, run_modify, LedgerState.append, Call.entry]

/-- What a call does to the state: nothing when it throws, else one stored entry. -/
theorem after_cases (s : LedgerState) (call : Call) :
    (Throws s call ∧ s.after call = s) ∨
    (refusal (s.ledger.get? call.requirementId) call = none ∧
      s.after call = s.append (stored (s.ledger.get? call.requirementId) call)) := by
  rw [Throws, LedgerState.after, recordRequirement_run]
  rcases refusal (s.ledger.get? call.requirementId) call with _ | message
  · exact Or.inr ⟨rfl, rfl⟩
  · exact Or.inl ⟨⟨message, rfl⟩, rfl⟩

/-- A call that throws leaves the ledger, the journal and the sink as they were. -/
theorem after_of_throws {s : LedgerState} {call : Call} (h : Throws s call) :
    s.after call = s := by
  rcases after_cases s call with ⟨_, he⟩ | ⟨hr, _⟩
  · exact he
  · simp [Throws, recordRequirement_run, hr] at h

/-- An accepted call never makes its requirement more certifiable. -/
theorem certifiabilityRank_stored_le {prior : LedgerEntry} {call : Call}
    (h : refusal (some prior) call = none) :
    certifiabilityRank (stored (some prior) call).disposition ≤
      certifiabilityRank prior.disposition := by
  rw [refusal, Option.or_eq_none_iff] at h
  by_cases hf : call.extras.fold = true
  · simp only [stored, hf, if_true, foldEntry]
    split
    · exact le_refl _
    · next hk => exact Nat.le_of_not_le hk
  · have he : prior.disposition = call.disposition := by simpa [hf] using h.1
    simp [stored, hf, Call.entry, he]

/-- What is stored is no more certifiable than the call. -/
theorem certifiabilityRank_stored_le_call (prior : Option LedgerEntry) (call : Call) :
    certifiabilityRank (stored prior call).disposition ≤ certifiabilityRank call.disposition := by
  rcases prior with _ | p
  · exact le_refl _
  · rw [stored]
    split
    · rw [foldEntry]
      by_cases hk : certifiabilityRank p.disposition ≤ certifiabilityRank call.disposition
      · simp only [hk, if_true]
      · simp only [hk, if_false]
        exact le_refl _
    · exact le_refl _

end Recording

end OpenWop.Ledger
