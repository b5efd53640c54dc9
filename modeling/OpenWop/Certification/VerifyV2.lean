import OpenWop.Certification.Derive
import OpenWop.Js.Stringify

/-!
# Verifying a bundle of version 2

`verifyBundleV2` reads a finished bundle and derives, for every claimed profile, a
verdict of its own from the rows: which floor requirements are unwitnessed or
vacuous, and which are recorded honestly but do not certify.
-/

namespace OpenWop.Certification

open OpenWop.Js OpenWop.Ledger

/-- A row of the bundle. -/
structure BundleV2Requirement where
  requirementId : JsString
  scenarioId : JsString
  disposition : JsString
  assertionCount : Option JsNumber := none
  detail : Option JsString := none
  deriving DecidableEq, Repr

/-- The bundle: what the verifier reads, and its other members. -/
structure BundleV2 where
  bundleVersion : JsString
  document : Json
  discovery : List (JsString × Json) := []
  claimedProfiles : List JsString
  totals : Record JsString JsNumber
  requirements : List BundleV2Requirement
  rest : List (JsString × Json) := []

/-- `BundleRejectionKind`. -/
inductive BundleRejectionKind where
  | notV2
  | unknownDisposition
  | duplicateRequirement
  | totalsMismatch
  | reasonMissing
  | secretCanary
  | unwitnessedRequirement
  | vacuousPass
  deriving DecidableEq, Repr

/-- `BundleRejection`. -/
structure BundleRejection where
  kind : BundleRejectionKind
  profile : Option JsString := none
  requirementId : Option JsString := none
  detail : JsString
  deriving DecidableEq, Repr

/-- `BundleV2ProfileVerdict`. -/
structure BundleV2ProfileVerdict where
  profile : JsString
  derivable : Bool
  floorUnspecified : Bool
  required : List JsString
  rejections : List BundleRejection
  notCertifiable : List JsString
  evidenceValid : Bool
  certified : Bool
  deriving DecidableEq, Repr

/-- `BundleV2Verdict`. -/
structure BundleV2Verdict where
  evidenceValid : Bool
  certified : Bool
  rejections : List BundleRejection
  profiles : List BundleV2ProfileVerdict
  deriving DecidableEq, Repr

section Canary

/-- `CONFORMANCE_SECRET_CANARY`. -/
def conformanceSecretCanary : JsString := js "openwop-conformance-canary-secret"

/-- The path of a string or a member name that contains the literal. -/
def literalAt (literal value path : JsString) : List JsString :=
  if includes value literal then [path] else []

mutual

/-- Where a literal appears in a value, member names included. -/
def literalPaths (literal : JsString) : Json → JsString → List JsString
  | .str s, path => literalAt literal s path
  | .arr items, path => itemPaths literal items path 0
  | .obj members, path => memberPaths literal members path
  | _, _ => []

/-- Where it appears in the items from an index on. -/
def itemPaths (literal : JsString) : List Json → JsString → Nat → List JsString
  | [], _, _ => []
  | v :: vs, path, i =>
    literalPaths literal v (path ++ js "[" ++ decimal i ++ js "]") ++ itemPaths literal vs path (i + 1)

/-- Where it appears in the members. -/
def memberPaths (literal : JsString) : List (JsString × Json) → JsString → List JsString
  | [], _ => []
  | (k, v) :: ms, path =>
    literalAt literal k (path ++ js "." ++ k) ++ literalPaths literal v (path ++ js "." ++ k) ++
      memberPaths literal ms path

end

/-- `findLiteral`. -/
def findLiteral (value : Json) (literal : JsString) : List JsString :=
  if literal = [] then [] else literalPaths literal value (js "$")

/-- The value of a row. -/
def BundleV2Requirement.toJson (r : BundleV2Requirement) : Json :=
  .obj ([(js "requirementId", .str r.requirementId), (js "scenarioId", .str r.scenarioId),
    (js "disposition", .str r.disposition)] ++
    optionalMember (js "assertionCount") (r.assertionCount.map .num) ++
    optionalMember (js "detail") (r.detail.map .str))

/-- The value of the bundle. -/
def BundleV2.toJson (bundle : BundleV2) : Json :=
  .obj ([(js "bundleVersion", .str bundle.bundleVersion),
    (js "discovery", .obj (bundle.discovery ++ [(js "document", bundle.document)])),
    (js "claimedProfiles", .arr (bundle.claimedProfiles.map .str)),
    (js "results", .obj [(js "totals", .obj (Record.mapValues .num bundle.totals)),
      (js "requirements", .arr (bundle.requirements.map BundleV2Requirement.toJson))])] ++ bundle.rest)

end Canary

section Rows

/-- `scenarioBasename`. -/
def scenarioBasename (id : JsString) : JsString := (splitOn id (unit '/')).getLast?.getD id

/-- The first row of a requirement: `byId.get(id)?.[0]`. -/
def firstRow (rows : List BundleV2Requirement) (id : JsString) : Option BundleV2Requirement :=
  rows.find? fun r => r.requirementId = id

/-- The number is positive. -/
def isPositive : JsNumber → Bool
  | .finite d => d.negative = false ∧ d.coefficient ≠ 0
  | .infinity negative => !negative
  | .nan => false

/-- The row is an executed pass. -/
def isPass (r : BundleV2Requirement) : Bool := r.disposition = Disposition.executedPass.text

/-- `isWitnessedPass`. -/
def isWitnessedPass (r : BundleV2Requirement) : Bool := isPass r && r.assertionCount.any isPositive

/-- `isUnclassifiedReturn`. -/
def isUnclassifiedReturn (r : BundleV2Requirement) : Bool :=
  r.disposition = Disposition.blocked.text ∧ r.detail = some unclassifiedReturnDetail

/-- The row's disposition is in `CERTIFIABLE`. -/
def isCertifiable (r : BundleV2Requirement) : Bool := r.disposition ∈ certifiable.map Disposition.text

/-- A pass that witnesses nothing, or an unclassified return. -/
def isVacuousRow (r : BundleV2Requirement) : Bool :=
  (isPass r && !isWitnessedPass r) || isUnclassifiedReturn r

end Rows

section Findings

variable (rows : List BundleV2Requirement) (profile : JsString)

/-- What the verifier finds about one requirement of a floor. -/
inductive Finding where
  | met
  | notCertifiable
  | rejected (rejection : BundleRejection)
  deriving DecidableEq, Repr

/-- The rejection a finding is. -/
def Finding.rejection? : Finding → Option BundleRejection
  | .rejected rejection => some rejection
  | _ => none

/-- A rejection scoped to a profile and a requirement. -/
def scopedRejection (kind : BundleRejectionKind) (id detail : JsString) : Finding :=
  .rejected { kind, profile := some profile, requirementId := some id, detail := id ++ detail }

/-- `String(row.assertionCount)`. -/
def countText (r : BundleV2Requirement) : JsString :=
  (r.assertionCount.map JsNumber.text).getD (js "undefined")

/-- The finding about a required file. -/
def fileFinding (file : JsString) : JsString × Finding :=
  let id := requirementIdForScenario (scenarioBasename file)
  match firstRow rows id with
  | none => (id, scopedRejection profile .unwitnessedRequirement id
      (js ": no row — an unwitnessed floor requirement (RFC 0148 §A resolves it to blocked; " ++
        js "a claim carrying it is rejected)"))
  | some row =>
    if isPass row && !isWitnessedPass row then
      (id, scopedRejection profile .vacuousPass id
        (js ": executed-pass with assertionCount " ++ countText row ++ js " — a witness of nothing"))
    else if isUnclassifiedReturn row then
      (id, scopedRejection profile .unwitnessedRequirement id
        (js ": every test returned early with zero assertions and no recorded reason — " ++
          js "an unclassified return the emitter resolved to blocked (RFC 0148 §A); " ++
          js "a claim carrying it is rejected"))
    else if isCertifiable row then (id, .met)
    else (id, .notCertifiable)

/-- The rows of the scenarios that match a prefix, its summary row apart. -/
def matchingRows (p : JsString) : List BundleV2Requirement :=
  rows.filter fun r =>
    startsWith (scenarioBasename r.scenarioId) p && r.requirementId ≠ requirementIdForPrefix p

/-- The rows a prefix group is read from: the matching ones, else its summary row. -/
def consideredRows (p : JsString) : List BundleV2Requirement :=
  if (matchingRows rows p).length > 0 then matchingRows rows p
  else (firstRow rows (requirementIdForPrefix p)).toList

/-- The finding about a prefix group. -/
def prefixFinding (p : JsString) : JsString × Finding :=
  let id := requirementIdForPrefix p
  let considered := consideredRows rows p
  let vacuous := considered.filter isVacuousRow
  if considered.length = 0 then
    (id, scopedRejection profile .unwitnessedRequirement id
      (js ": no scenario matching '" ++ p ++ js "' recorded a row"))
  else if vacuous.length > 0 then
    (id, scopedRejection profile .vacuousPass id
      (js ": " ++ join (js ", ") (vacuous.map BundleV2Requirement.scenarioId) ++
        js " executed-pass with no witnessed assertion"))
  else if considered.any isWitnessedPass then (id, .met)
  else (id, .notCertifiable)

/-- The rows an any-of group is read from: its summary row, else its members' rows. -/
def consideredMembers (group : List JsString) : List BundleV2Requirement :=
  match firstRow rows (requirementIdForAnyOf group) with
  | some summary => [summary]
  | none => group.filterMap fun f => firstRow rows (requirementIdForScenario (scenarioBasename f))

/-- The finding about an any-of group. -/
def anyOfFinding (group : List JsString) : JsString × Finding :=
  let id := requirementIdForAnyOf group
  let considered := consideredMembers rows group
  if considered.length = 0 then
    (id, scopedRejection profile .unwitnessedRequirement id
      (js ": no alternative (" ++ join (js ", ") group ++ js ") recorded a row"))
  else if considered.any (fun r => isPass r && !isWitnessedPass r) then
    (id, scopedRejection profile .vacuousPass id (js ": executed-pass with no witnessed assertion"))
  else if considered.any (fun r => r.disposition = Disposition.executedFail.text) ||
      !considered.any isWitnessedPass then (id, .notCertifiable)
  else (id, .met)

end Findings

section Verify

/-- `requiredFor`: the floor of a profile on this document, with its files. -/
def requiredFor (profile : JsString) (document : Json) : Option (List JsString × ProfileFloor) := do
  let floor ← floorOf profile
  let files ← floorFilesFor profile (some document)
  return (files, floor)

/-- The verdict on one claimed profile. -/
def verifyProfileV2 (bundle : BundleV2) (profile : JsString) : BundleV2ProfileVerdict :=
  let derivable := profileDerivable bundle.document profile
  match requiredFor profile bundle.document with
  | none =>
    { profile, derivable, floorUnspecified := true, required := [], rejections := []
      notCertifiable := [], evidenceValid := true, certified := false }
  | some (files, floor) =>
    let findings := files.map (fileFinding bundle.requirements profile) ++
      floor.requiredAnyPrefix.map (prefixFinding bundle.requirements profile) ++
      floor.requiredAnyOf.map (anyOfFinding bundle.requirements profile)
    let rejections := findings.filterMap fun f => f.2.rejection?
    let notCertifiable := (findings.filter fun f => f.2 = .notCertifiable).map Prod.fst
    { profile, derivable, floorUnspecified := false, required := findings.map Prod.fst, rejections
      notCertifiable, evidenceValid := rejections = []
      certified := derivable ∧ rejections = [] ∧ notCertifiable = [] ∧
        (floor.discoveryOnly = true ∨ findings ≠ []) }

/-- The rejections of one row. -/
def rowRejections (r : BundleV2Requirement) : List BundleRejection :=
  (if (disposition? r.disposition).isNone then
    [{ kind := .unknownDisposition, requirementId := some r.requirementId
       detail := r.requirementId ++ js ": disposition " ++ quote r.disposition ++
        js " is not one of the five RFC 0148 §A names" }] else []) ++
  (if isPass r = false ∧ isBlank r.detail = true then
    [{ kind := .reasonMissing, requirementId := some r.requirementId
       detail := r.requirementId ++ js ": '" ++ r.disposition ++
        js "' recorded without a reason (RFC 0148 §A)" }] else [])

/-- The rejections of requirements with more than one row. -/
def duplicateRejections (rows : List BundleV2Requirement) : List BundleRejection :=
  (uniq (rows.map BundleV2Requirement.requirementId)).filterMap fun id =>
    let n := (rows.filter fun r => r.requirementId = id).length
    if n > 1 then
      some { kind := .duplicateRequirement, requirementId := some id
             detail := id ++ js ": " ++ decimal n ++
              js " rows — exactly one disposition per requirement per run (RFC 0148 §A)" }
    else none

/-- The names of the totals, with the dispositions they count. -/
def totalNames : List (JsString × Disposition) :=
  [(js "executedPass", .executedPass), (js "executedFail", .executedFail), (js "skipped", .skipped),
    (js "inapplicable", .inapplicable), (js "blocked", .blocked)]

/-- The rejections of totals that do not summarize the rows. -/
def totalsRejections (bundle : BundleV2) : List BundleRejection :=
  totalNames.filterMap fun k =>
    let expected := (bundle.requirements.filter fun r => r.disposition = k.2.text).length
    let stated := Record.get? bundle.totals k.1
    if stated.any (JsNumber.strictEquals (JsNumber.ofNat expected)) then none
    else some { kind := .totalsMismatch
                detail := js "totals." ++ k.1 ++ js " is " ++
                  (stated.map JsNumber.text).getD (js "undefined") ++ js " but the rows count " ++
                  decimal expected }

/-- `verifyBundleV2`. -/
def verifyBundleV2 (bundle : BundleV2) : BundleV2Verdict :=
  let rejections :=
    (if bundle.bundleVersion = js "2" then [] else
      [{ kind := .notV2, detail := js "bundleVersion is " ++ quote bundle.bundleVersion ++
          js ", expected \"2\"" }]) ++
    bundle.requirements.flatMap rowRejections ++ duplicateRejections bundle.requirements ++
    totalsRejections bundle ++
    (findLiteral bundle.toJson conformanceSecretCanary).map fun p =>
      { kind := .secretCanary, detail := js "conformance secret canary present at " ++ p ++
          js " — evidence leaked a secret (SR-1)" }
  let profiles := bundle.claimedProfiles.map (verifyProfileV2 bundle)
  let evidenceValid := rejections = [] ∧ profiles.all BundleV2ProfileVerdict.evidenceValid = true
  { evidenceValid
    certified := evidenceValid ∧ profiles ≠ [] ∧
      profiles.all BundleV2ProfileVerdict.certified = true
    rejections
    profiles }

end Verify

end OpenWop.Certification
