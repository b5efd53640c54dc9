import OpenWop.Audit.Checkpoint
import OpenWop.Js.JsonEqual
import OpenWop.Ledger.Record

/-!
# Two computations of the witness digest

The bundle's verifier and the companion gate each project the rows, sort them, build the
preimage and write it as canonical JSON. The gate's writer has no refusals. On I-JSON the two
digests are one.
-/

namespace OpenWop.Bundle

open OpenWop.Js OpenWop.Audit OpenWop.Ledger

section Model

/-- `BundleV3Requirement`, as far as the digest reads it. -/
structure Requirement where
  id : JsString
  scenario : Json
  result : Json
  assertions : Option Json := none
  detail : Option Json := none
  evidence : Option Json := none
  deriving DecidableEq, Repr

end Model

section Verifier

/-- A row of the verifier's preimage. -/
def canonicalRow (r : Requirement) : Json :=
  .obj ([(js "id", .str r.id), (js "scenario", r.scenario), (js "result", r.result)] ++
    optionalMember (js "assertions") r.assertions ++ optionalMember (js "detail") r.detail ++
    optionalMember (js "evidence") r.evidence)

/-- What `witnessDigest` hashes. -/
def witnessPreimage (rows : List Requirement) (relaxations : Option (List Json))
    (deployment : Option Json) : Json :=
  let canonicalRows := .arr ((sortBy (codeUnitOrder.on Requirement.id) rows).map canonicalRow)
  let relaxed := relaxations.any fun r => r.length > 0
  if relaxed = true ∨ deployment.isSome then
    .obj ([(js "rows", canonicalRows)] ++
      (if relaxed = true then [(js "relaxations", .arr (relaxations.getD []))] else []) ++
      optionalMember (js "deployment") deployment)
  else canonicalRows

/-- `witnessDigest` of `certification-bundle-v3`. -/
def witnessDigest (sha256 : Sha256) (rows : List Requirement) (relaxations : Option (List Json))
    (deployment : Option Json) : Except JcsRefusal JsString :=
  (Json.canonicalJSON (witnessPreimage rows relaxations deployment)).map (sha256Hex sha256)

end Verifier

section Companion

/-- `x < y` on strings. -/
def lessThan : JsString → JsString → Bool
  | [], [] => false
  | [], _ :: _ => true
  | _ :: _, [] => false
  | a :: s, b :: t => if a = b then lessThan s t else a < b

/-- `x.id < y.id ? -1 : x.id > y.id ? 1 : 0`. -/
def compareIds (x y : Requirement) : Int :=
  if lessThan x.id y.id then -1 else if lessThan y.id x.id then 1 else 0

mutual

/-- `canonicalJSON` of `companion-pairing`. -/
def keySortedJSON : Json → JsString
  | .arr items => unit '[' :: (join [unit ','] (keySortedItems items) ++ [unit ']'])
  | .obj members =>
    unit '\x7b' :: (join [unit ','] ((sortBy (codeUnitOrder.on Prod.fst)
      (keySortedMembers members)).map fun m => quote m.1 ++ unit ':' :: m.2) ++ [unit '\x7d'])
  | v => v.stringify

/-- The texts of the items. -/
def keySortedItems : List Json → List JsString
  | [] => []
  | v :: vs => keySortedJSON v :: keySortedItems vs

/-- The names with the texts of their values. -/
def keySortedMembers : List (JsString × Json) → List (JsString × JsString)
  | [] => []
  | (k, v) :: ms => (k, keySortedJSON v) :: keySortedMembers ms

end

/-- A row of the gate's preimage. -/
def proseRow (r : Requirement) : Json :=
  .obj ([(js "id", .str r.id), (js "scenario", r.scenario), (js "result", r.result)] ++
    optionalMember (js "assertions") r.assertions ++ optionalMember (js "detail") r.detail ++
    optionalMember (js "evidence") r.evidence)

/-- What `proseWitnessDigest` hashes: `b.host?.relaxations ?? []` is never undefined. -/
def prosePreimage (requirements : List Requirement) (hostRelaxations : Option (List Json))
    (deployment : Option Json) : Json :=
  let rows := .arr ((requirements.insertionSort fun x y => compareIds x y ≤ 0).map proseRow)
  let relaxations := hostRelaxations.getD []
  if relaxations.length > 0 ∨ deployment.isSome then
    .obj ([(js "rows", rows)] ++
      (if relaxations.length > 0 then [(js "relaxations", .arr relaxations)] else []) ++
      optionalMember (js "deployment") deployment)
  else rows

/-- `proseWitnessDigest` of `companion-pairing`. -/
def proseWitnessDigest (sha256 : Sha256) (requirements : List Requirement)
    (hostRelaxations : Option (List Json)) (deployment : Option Json) : JsString :=
  sha256Hex sha256 (keySortedJSON (prosePreimage requirements hostRelaxations deployment))

end Companion

section Texts

theorem keySortedItems_eq (items : List Json) : keySortedItems items = items.map keySortedJSON := by
  induction items with
  | nil => rfl
  | cons v vs ih => rw [keySortedItems, ih, List.map_cons]

theorem keySortedMembers_eq (members : List (JsString × Json)) :
    keySortedMembers members = members.map fun m => (m.1, keySortedJSON m.2) := by
  induction members with
  | nil => rfl
  | cons m ms ih => rw [keySortedMembers, ih, List.map_cons]

/-- The gate writes the JSON text of the normal form. -/
theorem keySortedJSON_eq (v : Json) : keySortedJSON v = v.normalize.stringify := by
  induction v with
  | null => rfl
  | bool b => rfl
  | num n =>
    rw [keySortedJSON, Json.normalize]
    · cases n with
      | finite d => rw [JsNumber.unsigned, Json.stringify, Json.stringify, Decimal.text_unsigned]
      | nan => rfl
      | infinity b => rfl
    all_goals simp
  | str s => rfl
  | arr items ih =>
    rw [keySortedJSON, Json.normalize, Json.stringify, keySortedItems_eq, Json.normalizeItems_eq,
      Json.stringifyItems_eq, List.map_map, List.map_congr_left ih]
    rfl
  | obj members ih =>
    rw [keySortedJSON, Json.normalize, Json.stringify, keySortedMembers_eq, Json.normalizeMembers_eq,
      Json.sortBy_map_fst, Json.sortBy_map_fst, Json.stringifyMembers_eq, List.map_map, List.map_map]
    have hmap : (sortBy (codeUnitOrder.on Prod.fst) members).map (fun m =>
        quote m.1 ++ unit ':' :: keySortedJSON m.2) = (sortBy (codeUnitOrder.on Prod.fst) members).map
          fun m => quote m.1 ++ unit ':' :: m.2.normalize.stringify :=
      List.map_congr_left fun m hm => by rw [ih m (mem_sortBy.mp hm)]
    exact congrArg (fun parts => unit '\x7b' :: (join [unit ','] parts ++ [unit '\x7d'])) hmap

/-- An I-JSON value has one canonical text. -/
theorem canonicalJSON_eq_keySortedJSON {v : Json} (h : Json.isIJson v = true) :
    Json.canonicalJSON v = .ok (keySortedJSON v) := by
  rw [keySortedJSON_eq]
  exact (Json.accepts_canonicalJSON v _).mpr ⟨Json.isPlain_normalize h, rfl⟩

end Texts

section Agreement

/-- The order of strings is the order by code units. -/
theorem lessThan_iff (s t : JsString) : lessThan s t = true ↔ compareCodeUnits s t < 0 := by
  induction s generalizing t with
  | nil =>
    rcases t with _ | ⟨b, t⟩
    · simp [lessThan, compareCodeUnits]
    · simp [lessThan, compareCodeUnits]
      omega
  | cons a s ih =>
    rcases t with _ | ⟨b, t⟩
    · simp [lessThan, compareCodeUnits]
      omega
    · by_cases h : a = b
      · simpa [lessThan, compareCodeUnits, h] using ih t
      · have hlt : a < b ↔ (a.toNat : Int) - b.toNat < 0 := by
          rw [UInt16.lt_iff_toNat_lt]
          omega
        simpa [lessThan, compareCodeUnits, h] using hlt

/-- Both comparisons put the same row first. -/
theorem compareIds_le_zero_iff (x y : Requirement) :
    compareIds x y ≤ 0 ↔ (codeUnitOrder.on Requirement.id).compare x y ≤ 0 := by
  change compareIds x y ≤ 0 ↔ compareCodeUnits x.id y.id ≤ 0
  have hxy := lessThan_iff x.id y.id
  have hyx := lessThan_iff y.id x.id
  have hswap := compareCodeUnits_swap x.id y.id
  rw [compareIds]
  split
  · next h =>
    have := hxy.mp h
    omega
  · next h =>
    rw [hxy] at h
    split
    · next h' =>
      have := hyx.mp h'
      omega
    · next h' =>
      rw [hyx] at h'
      omega

/-- Both sorts give one list, also where ids repeat. -/
theorem insertionSort_compareIds (rows : List Requirement) :
    rows.insertionSort (fun x y => compareIds x y ≤ 0) =
      sortBy (codeUnitOrder.on Requirement.id) rows := by
  have hrel : (fun x y => compareIds x y ≤ 0) =
      fun x y => (codeUnitOrder.on Requirement.id).compare x y ≤ 0 :=
    funext fun x => funext fun y => propext (compareIds_le_zero_iff x y)
  rw [sortBy]
  congr 1

/-- Both preimages are one value. -/
theorem prosePreimage_eq (rows : List Requirement) (relaxations : Option (List Json))
    (deployment : Option Json) :
    prosePreimage rows relaxations deployment = witnessPreimage rows relaxations deployment := by
  have hrelaxed : (relaxations.any fun r => r.length > 0) = true ↔ (relaxations.getD []).length > 0 := by
    cases relaxations <;> simp
  simp only [prosePreimage, witnessPreimage, insertionSort_compareIds, hrelaxed]
  rfl

variable {rows : List Requirement} {relaxations : Option (List Json)} {deployment : Option Json}

/-- The preimage of I-JSON parts is I-JSON. -/
theorem isIJson_witnessPreimage (hrows : ∀ r ∈ rows, Json.isIJson (canonicalRow r) = true)
    (hrelaxations : ∀ rs, relaxations = some rs → ∀ v ∈ rs, Json.isIJson v = true)
    (hdeployment : ∀ v, deployment = some v → Json.isIJson v = true) :
    Json.isIJson (witnessPreimage rows relaxations deployment) = true := by
  have harr : Json.isIJson (.arr ((sortBy (codeUnitOrder.on Requirement.id) rows).map
      canonicalRow)) = true := by
    rw [Json.isIJson, Json.isIJsonItems_iff, List.forall_mem_map]
    exact fun r hr => hrows r (mem_sortBy.mp hr)
  have hrelaxed : Json.isIJson (.arr (relaxations.getD [])) = true := by
    rw [Json.isIJson, Json.isIJsonItems_iff]
    rcases relaxations with _ | rs
    · simp
    · exact hrelaxations rs rfl
  rw [witnessPreimage]
  split
  · rw [Json.isIJson, Bool.and_eq_true, Json.isIJsonMembers_iff, decide_eq_true_eq]
    constructor
    · split <;> cases deployment <;> simp +decide [Record.keys, optionalMember]
    · intro m hm
      rw [List.mem_append, List.mem_append, List.mem_singleton] at hm
      rcases hm with (rfl | hm) | hm
      · exact ⟨(by decide : isWellFormed (js "rows") = true), harr⟩
      · split at hm
        · rw [List.mem_singleton.mp hm]
          exact ⟨(by decide : isWellFormed (js "relaxations") = true), hrelaxed⟩
        · cases hm
      · rcases deployment with _ | v
        · cases hm
        · rw [List.mem_singleton.mp hm]
          exact ⟨(by decide : isWellFormed (js "deployment") = true), hdeployment v rfl⟩
  · exact harr

/-- On I-JSON rows, relaxations and deployment the two witness digests are one. -/
theorem proseWitnessDigest_eq (sha256 : Sha256)
    (hrows : ∀ r ∈ rows, Json.isIJson (canonicalRow r) = true)
    (hrelaxations : ∀ rs, relaxations = some rs → ∀ v ∈ rs, Json.isIJson v = true)
    (hdeployment : ∀ v, deployment = some v → Json.isIJson v = true) :
    witnessDigest sha256 rows relaxations deployment =
      .ok (proseWitnessDigest sha256 rows relaxations deployment) := by
  have h := isIJson_witnessPreimage hrows hrelaxations hdeployment
  rw [witnessDigest, proseWitnessDigest, prosePreimage_eq, canonicalJSON_eq_keySortedJSON h]
  rfl

/-- A passed row with an astral id and a Greek evidence key, cut under a relaxation. -/
theorem companion_witnessDigest :
    let row : Requirement :=
      { id := js "webhook-𝄞", scenario := .str (js "s"), result := .str (js "executed-pass"),
        evidence := some (.obj [(js "λ", .num (.ofNat 3)), (js "a", .null)]) }
    let relaxation := Json.obj [(js "rule", .str (js "loopback"))]
    let marker := Json.str (js "colocated-companion")
    let zeros : Sha256 := fun _ => Vector.replicate 32 0
    witnessDigest zeros [row] (some [relaxation]) (some marker) =
      .ok (proseWitnessDigest zeros [row] (some [relaxation]) (some marker)) := by
  intro row relaxation marker zeros
  apply proseWitnessDigest_eq
  · rintro r hr
    rw [List.mem_singleton.mp hr]
    decide
  · rintro rs hrs v hv
    rw [← Option.some.inj hrs, List.mem_singleton] at hv
    rw [hv]
    decide
  · rintro v hv
    rw [← Option.some.inj hv]
    decide

end Agreement

end OpenWop.Bundle
