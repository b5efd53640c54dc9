import OpenWop.Certification.Profiles
import OpenWop.Js.Sort

/-!
# Requirement ids and floors

The requirement ids a profile's certification rests on: at major 2 those of the
declared floors, else those of the hand table, evaluated against the captured
discovery document.
-/

namespace OpenWop.Certification

open OpenWop.Js

/-- What the runner has installed and read before it derives. -/
structure Env where
  /-- The order `localeCompare` uses. -/
  collation : Collation
  /-- `OPENWOP_TARGET_MAJOR` is `2`. -/
  targetsMajor2 : Bool
  /-- The floors of the registry file, by profile. -/
  v2ProfileFloorFiles : Record JsString (List JsString)
  /-- The major-2 floor map, when one is installed. -/
  v2Floors : Option (Record JsString (List JsString))

/-- `v2FloorsActive`. -/
def Env.v2FloorsActive (env : Env) : Bool := env.v2Floors.isSome

/-- `basename.replace(/\.test\.ts$/, '')`. -/
def fileStem (file : JsString) : JsString := dropSuffix file (js ".test.ts")

/-- `requirementIdForScenario`. -/
def requirementIdForScenario (file : JsString) : JsString := js "openwop.floor." ++ fileStem file

/-- `requirementIdForPrefix`. -/
def requirementIdForPrefix (p : JsString) : JsString := js "openwop.floor.any." ++ p

/-- `requirementIdForAnyOf`. -/
def requirementIdForAnyOf (files : List JsString) : JsString :=
  js "openwop.floor.anyof." ++ join (js "+") (files.map fileStem)

/-- `readPath`: a dot path read out of a discovery document. -/
def readPath (document : Json) (path : JsString) : Option Json :=
  (splitOn path (unit '.')).foldl Json.read? (some document)

/-- The branch binds on this document. -/
def ConditionalFloor.holds (c : ConditionalFloor) (document : Json) : Bool :=
  (Json.items? (readPath document c.path)).any fun items => Json.str c.includes ∈ items

/-- `floorFilesFor`: nothing when the floor cannot be evaluated. -/
def floorFilesFor (profile : JsString) (document : Option Json) : Option (List JsString) := do
  let floor ← floorOf profile
  if floor.conditional = [] then return uniq floor.required
  let document ← document
  return uniq (floor.required ++
    (floor.conditional.filter fun c => c.holds document).flatMap ConditionalFloor.required)

/-- `requirementsFor`: nothing when the profile has no floor to evaluate. -/
def requirementsFor (env : Env) (profile : JsString) (document : Option Json) :
    Option (List JsString) :=
  match env.v2Floors with
  | some floors => (Record.get? floors profile).map fun files => files.map requirementIdForScenario
  | none => do
    let floor ← floorOf profile
    if floor.discoveryOnly = true then return []
    let files ← floorFilesFor profile document
    return files.map requirementIdForScenario ++ floor.requiredAnyPrefix.map requirementIdForPrefix ++
      floor.requiredAnyOf.map requirementIdForAnyOf

/-- `floorScenarioFiles`: every file of some profile's floor. -/
def floorScenarioFiles (env : Env) : List JsString :=
  (Record.values profileFloorScenarios).flatMap floorMemberFiles ++
    if env.targetsMajor2 || env.v2FloorsActive then (Record.values env.v2ProfileFloorFiles).flatten
    else []

/-- `requirementIdForFile`: the id a scenario file records under. -/
def requirementIdForFile (env : Env) (file : JsString) : JsString :=
  if file ∈ floorScenarioFiles env then requirementIdForScenario file
  else js "openwop.scenario." ++ fileStem file

/-- `scenarioFileOfItId`: the file of an id `openwop.it.<stem>.<title>`. -/
def scenarioFileOfItId (requirementId : JsString) : Option JsString :=
  if startsWith requirementId (js "openwop.it.") then
    let rest := requirementId.drop (js "openwop.it.").length
    match indexOf rest (js ".") with
    | some (dot + 1) => some (rest.take (dot + 1) ++ js ".test.ts")
    | _ => none
  else none

end OpenWop.Certification
