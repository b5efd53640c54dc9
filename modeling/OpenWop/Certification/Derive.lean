import OpenWop.Certification.FileRecord
import OpenWop.Certification.Registry
import OpenWop.Ledger.Read

/-!
# Deriving requirement rows and profile verdicts

`deriveRequirementDispositions` turns the per-file report and the ledger into one
row for every scenario file, one summary row for every prefix and any-of group of
the claimed floors, and one row for every other recorded requirement of a reported
file. A verdict for each claimed profile is read off the rows of its floor.
-/

namespace OpenWop.Certification

open OpenWop.Js OpenWop.Ledger

/-- `DerivedRequirement`: one row. -/
structure DerivedRequirement where
  requirementId : JsString
  scenarioId : JsString
  disposition : Disposition
  detail : Option JsString := none
  assertionCount : Option Nat := none
  deriving DecidableEq, Repr

/-- What the report says of a scenario file. -/
inductive ReportState where
  | passed
  | failed
  | skipped
  deriving DecidableEq, Repr

/-- The report, by the base name of a scenario file. The runner includes `*.test.ts` files only. -/
structure Report where
  states : Map JsString ReportState
  scenarios : ∀ file ∈ states.keys, endsWith file (js ".test.ts") = true
  basenames : ∀ file ∈ states.keys, unit '/' ∉ file

/-- What the report says of a file. -/
def Report.get? (report : Report) (file : JsString) : Option ReportState := report.states.get? file

/-- How many rows have each disposition. -/
structure Totals where
  executedPass : Nat
  executedFail : Nat
  skipped : Nat
  inapplicable : Nat
  blocked : Nat
  deriving DecidableEq, Repr

/-- `DerivedProfileVerdict`. -/
structure ProfileVerdict where
  profile : JsString
  unclassified : List JsString
  blocking : List JsString
  certifiable : Bool
  runtimeDerived : Bool
  held : Bool
  witnessedPasses : Nat
  deriving DecidableEq, Repr

/-- `Derivation`. -/
structure Derivation where
  requirements : List DerivedRequirement
  totals : Totals
  verdicts : List ProfileVerdict
  rejectUnclassified : Bool
  ledgerPresent : Bool
  deriving DecidableEq, Repr

section Rows

variable (env : Env) (report : Report) (ledger : LedgerRecords)

/-- A ledger was available at all. -/
def ledgerPresent : Bool := ledger.entries.length > 0

/-- The row of a scenario file: its ledger record, else what the report says. -/
def fileRow (file : JsString) (state : ReportState) : DerivedRequirement :=
  let id := requirementIdForFile env file
  match ledger.get? id with
  | some rec =>
    { requirementId := id, scenarioId := file, disposition := rec.disposition, detail := rec.detail
      assertionCount := rec.assertionCount }
  | none =>
    match state with
    | .passed =>
      { requirementId := id, scenarioId := file, disposition := .executedPass
        detail := if ledgerPresent ledger then
          some (js "report-derived: vitest passed the file but no disposition was recorded " ++
            js "(assertion count unknown) — unclassified for a claimed floor")
          else none }
    | .failed =>
      { requirementId := id, scenarioId := file, disposition := .executedFail
        detail := some (js "the scenario executed and failed (report-derived; no ledger entry)") }
    | .skipped =>
      { requirementId := id, scenarioId := file, disposition := .blocked
        detail := some (if ledgerPresent ledger then
          js "unclassified return: the file recorded no disposition — " ++
            js "RFC 0148 §A resolves it to blocked, never to a pass"
          else js "runner cannot classify a skipped file without a ledger; " ++
            js "RFC 0148 §A resolves an unclassifiable requirement to blocked") }

/-- The reported files in the order of their names. -/
def reportedFiles : List (JsString × ReportState) :=
  sortBy (env.collation.on Prod.fst) report.states.entries

/-- The rows of the reported files. -/
def fileRows : List DerivedRequirement :=
  (reportedFiles env report).map fun f => fileRow env ledger f.1 f.2

/-- The row of a file, if the file was reported: `perFile.get(file)`. -/
def perFile? (file : JsString) : Option DerivedRequirement :=
  (report.get? file).map (fileRow env ledger file)

/-- The floors of the claimed profiles in the hand table; none at major 2. -/
def claimedFloors (claimedProfiles : List JsString) : List ProfileFloor :=
  if env.v2FloorsActive then []
  else (profileFloorScenarios.filter fun p => p.1 ∈ claimedProfiles.map undeprecated).map Prod.snd

/-- `matching.reduce((n, r) => n + (r.assertionCount ?? 0), 0)`. -/
def assertionSum (rows : List DerivedRequirement) : Nat :=
  (rows.map fun r => r.assertionCount.getD 0).sum

/-- `join(', ')` over an image of the rows. -/
def commaJoin (f : DerivedRequirement → JsString) (rows : List DerivedRequirement) : JsString :=
  join (js ", ") (rows.map f)

/-- The summary row of a prefix group: met by any passing file. -/
def prefixRow (p : JsString) (matching : List DerivedRequirement) : DerivedRequirement :=
  let id := requirementIdForPrefix p
  let scenarioId := p ++ js "*"
  if matching.any (fun r => r.disposition = .executedPass) then
    { requirementId := id, scenarioId, disposition := .executedPass
      assertionCount := some (assertionSum (matching.filter fun r => r.disposition = .executedPass)) }
  else if matching.any (fun r => r.disposition = .executedFail) then
    { requirementId := id, scenarioId, disposition := .executedFail
      detail := some (js "no " ++ p ++ js "* scenario passed and at least one failed") }
  else if matching.length = 0 then
    { requirementId := id, scenarioId, disposition := .blocked
      detail := some (js "no " ++ p ++ js "* scenario ran — unclassified return") }
  else
    { requirementId := id, scenarioId, disposition := .blocked
      detail := some (js "no " ++ p ++ js "* scenario executed a passing assertion (" ++
        commaJoin (fun r => r.disposition.text) matching ++ js ")") }

/-- The prefixes of the claimed floors, sorted. -/
def prefixIds (claimedProfiles : List JsString) : List JsString :=
  sortBy codeUnitOrder (uniq ((claimedFloors env claimedProfiles).flatMap
    ProfileFloor.requiredAnyPrefix))

/-- The rows of the files whose name starts with a prefix. -/
def prefixMatching (p : JsString) : List DerivedRequirement :=
  ((reportedFiles env report).filter fun f => startsWith f.1 p).map fun f => fileRow env ledger f.1 f.2

/-- The summary rows of the prefix groups. -/
def prefixRows (claimedProfiles : List JsString) : List DerivedRequirement :=
  (prefixIds env claimedProfiles).map fun p => prefixRow p (prefixMatching env report ledger p)

/-- A pass that counted an assertion. -/
def DerivedRequirement.witnessed (r : DerivedRequirement) : Bool :=
  r.disposition = .executedPass ∧ r.assertionCount.getD 0 > 0

/-- The summary row of an any-of group: met by a witnessed member when none failed. -/
def anyOfRow (id : JsString) (members : List JsString) (matching : List DerivedRequirement) :
    DerivedRequirement :=
  let scenarioId := js "anyof:" ++ join (js "|") members
  let witnessed := matching.filter DerivedRequirement.witnessed
  if matching.any (fun r => r.disposition = .executedFail) then
    { requirementId := id, scenarioId, disposition := .executedFail
      detail := some (js "an alternative failed: " ++ commaJoin DerivedRequirement.scenarioId
        (matching.filter fun r => r.disposition = .executedFail)) }
  else if witnessed.length > 0 then
    { requirementId := id, scenarioId, disposition := .executedPass
      assertionCount := some (assertionSum witnessed) }
  else if matching.length = 0 then
    { requirementId := id, scenarioId, disposition := .blocked
      detail := some (js "none of " ++ join (js ", ") members ++ js " ran — unclassified return") }
  else
    { requirementId := id, scenarioId, disposition := .blocked
      detail := some (js "no alternative recorded a witnessed pass (" ++
        commaJoin (fun r => r.scenarioId ++ js ": " ++ r.disposition.text) matching ++ js ")") }

/-- The any-of groups of the claimed floors, by requirement id. -/
def anyOfGroups (claimedProfiles : List JsString) : List (JsString × List JsString) :=
  sortBy (env.collation.on Prod.fst)
    (((claimedFloors env claimedProfiles).flatMap ProfileFloor.requiredAnyOf).foldl
      (fun m g => m.set (requirementIdForAnyOf g) g) (Map.empty : Map JsString (List JsString))).entries

/-- The summary rows of the any-of groups. -/
def anyOfRows (claimedProfiles : List JsString) : List DerivedRequirement :=
  (anyOfGroups env claimedProfiles).map fun g =>
    anyOfRow g.1 g.2 (g.2.filterMap (perFile? env report ledger))

/-- `e.scenarioFile ?? scenarioFileOfItId(e.requirementId)`. -/
def attributedFile (e : LedgerEntry) : Option JsString :=
  e.scenarioFile.or (scenarioFileOfItId e.requirementId)

/-- The row of a ledger record under a scenario file. -/
def testRow (e : LedgerEntry) (file : JsString) : DerivedRequirement where
  requirementId := e.requirementId
  scenarioId := file
  disposition := e.disposition
  detail := e.detail
  assertionCount := e.assertionCount

/-- Add the row of a record unless its requirement has a row or its file was not reported. -/
def addTestRow (rows : List DerivedRequirement) (e : LedgerEntry) : List DerivedRequirement :=
  match attributedFile e with
  | none => rows
  | some file =>
    if e.requirementId ∈ rows.map DerivedRequirement.requirementId ∨
      (report.get? file).isSome = false then rows
    else rows ++ [testRow e file]

/-- Every row of the derivation. -/
def derivedRows (claimedProfiles : List JsString) : List DerivedRequirement :=
  (sortBy (env.collation.on LedgerEntry.requirementId) ledger.entries).foldl (addTestRow report)
    (fileRows env report ledger ++ prefixRows env report ledger claimedProfiles ++
      anyOfRows env report ledger claimedProfiles)

end Rows

section Verdicts

/-- How many rows have that disposition. -/
def countOf (rows : List DerivedRequirement) (d : Disposition) : Nat :=
  (rows.filter fun r => r.disposition = d).length

/-- The totals of the rows. -/
def totalsOf (rows : List DerivedRequirement) : Totals where
  executedPass := countOf rows .executedPass
  executedFail := countOf rows .executedFail
  skipped := countOf rows .skipped
  inapplicable := countOf rows .inapplicable
  blocked := countOf rows .blocked

/-- `rowById.get(id)`: the last row of the requirement. -/
def rowById (rows : List DerivedRequirement) (id : JsString) : Option DerivedRequirement :=
  (rows.filter fun r => r.requirementId = id).getLast?

variable (env : Env) (ledger : LedgerRecords)

/-- The requirement was recorded, or its row summarizes a group. -/
def fromLedger (id : JsString) (r : Option DerivedRequirement) : Bool :=
  (ledger.get? id).isSome ||
    r.any fun r => endsWith r.scenarioId (js "*") || startsWith r.scenarioId (js "anyof:")

/-- A pass with zero assertions, or the runner's own resolution of an unexplained return. -/
def vacuous (r : DerivedRequirement) : Bool :=
  (r.disposition = .executedPass ∧ r.assertionCount = some 0) ∨
    (r.disposition = .blocked ∧ r.detail = some unclassifiedReturnDetail)

/-- Nothing recorded the requirement. -/
def silent (id : JsString) (r : Option DerivedRequirement) : Bool :=
  !fromLedger ledger id r && (ledgerPresent ledger || r.any fun r => r.disposition = .blocked)

/-- The requirement is unclassified. -/
def isUnclassified (id : JsString) (r : Option DerivedRequirement) : Bool :=
  r.isNone || silent ledger id r || r.any vacuous

/-- The requirement blocks the floor. -/
def isBlocking (id : JsString) (r : Option DerivedRequirement) : Bool :=
  isUnclassified ledger id r ||
    r.any fun r => r.disposition ∉ certifiable || (env.v2FloorsActive && r.disposition = .skipped)

/-- The verdict on a claimed profile. -/
def profileVerdict (rows : List DerivedRequirement) (document : Option Json) (profile : JsString) :
    ProfileVerdict :=
  match requirementsFor env profile document with
  | none =>
    let why := if floorOf profile = none then js "(no floor defined for " ++ profile ++ js ")"
      else js "(discovery-conditional floor for " ++ profile ++
        js " is unevaluable without the discovery document)"
    { profile, unclassified := [], blocking := [why], certifiable := false, runtimeDerived := false
      held := false, witnessedPasses := 0 }
  | some ids =>
    let atMajor2 := env.v2FloorsActive
    let witnessedPasses :=
      (ids.filter fun id => (rowById rows id).any DerivedRequirement.witnessed).length
    let unclassified := ids.filter fun id => isUnclassified ledger id (rowById rows id)
    let blocking := ids.filter fun id => isBlocking env ledger id (rowById rows id)
    let discoveryOnly := !atMajor2 && (floorOf profile).any ProfileFloor.discoveryOnly
    let runtimeDerived := !atMajor2 && (floorOf profile).any ProfileFloor.runtimeDerived
    let held := ids.length > 0 ∧ witnessedPasses = ids.length
    let certifiableAt2 := ids.length > 0 ∧ blocking.length = 0 ∧ witnessedPasses ≥ 1
    { profile
      unclassified := if runtimeDerived ∧ ¬ held then [] else unclassified
      blocking := if runtimeDerived ∧ ¬ held then
        ids.filter fun id => !(rowById rows id).any DerivedRequirement.witnessed
        else blocking
      certifiable := if atMajor2 then certifiableAt2
        else if runtimeDerived then held
        else discoveryOnly ∨ (ids.length > 0 ∧ blocking.length = 0)
      runtimeDerived
      held
      witnessedPasses }

/-- `deriveRequirementDispositions`. -/
def deriveRequirementDispositions (report : Report) (claimedProfiles : List JsString)
    (document : Option Json) : Derivation :=
  let rows := derivedRows env report ledger claimedProfiles
  let verdicts := claimedProfiles.map (profileVerdict env ledger rows document)
  { requirements := rows
    totals := totalsOf rows
    verdicts
    rejectUnclassified := verdicts.any fun v => v.unclassified.length > 0
    ledgerPresent := ledgerPresent ledger }

end Verdicts

end OpenWop.Certification
