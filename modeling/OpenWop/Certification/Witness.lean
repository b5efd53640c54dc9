import OpenWop.Certification.Rows

/-!
# Certification without a witness

At major 2 a profile is reported certifiable only on a floor with a counted pass and
no requirement that failed, was blocked, was skipped or is missing. A pass whose
record carries no assertion count is not counted as zero assertions, so such a row
passes the floor as soon as another row of it is counted.
-/

namespace OpenWop.Certification

open OpenWop.Js OpenWop.Ledger

/-- The environment with the major-2 floors installed. -/
def Env.withFloors (env : Env) (floors : Record JsString (List JsString)) : Env :=
  { env with v2Floors := some floors }

section Standing

variable (env : Env) (report : Report) (ledger : LedgerRecords)

/-- Recorded as a pass without an assertion count, or not recorded and reported as passed by a
file whose name reads as a group. -/
def Uncounted (id : JsString) : Prop :=
  (∃ e, recordOf env report ledger id = some e ∧ e.disposition = .executedPass ∧
    e.assertionCount = none) ∨
  (ledger.get? id = none ∧ ∃ file, report.get? file = some .passed ∧
    requirementIdForFile env file = id ∧ startsWith file (js "anyof:") = true)

/-- The floor of the profile has counted and uncounted passes, and nothing else but
inapplicable requirements. -/
def MixesUncounted (document : Option Json) (profile : JsString) : Prop :=
  ∃ ids, requirementsFor env profile document = some ids ∧
    (∃ id ∈ ids, Counted env report ledger id) ∧ (∃ id ∈ ids, Uncounted env report ledger id) ∧
    ∀ id ∈ ids, Counted env report ledger id ∨ Uncounted env report ledger id ∨
      Inapplicable env report ledger id

/-- The floor is witnessed: a counted pass, and every requirement recorded with a row that is
neither failed, blocked or skipped nor a pass without assertions. -/
def FloorWitnessed (rows : List DerivedRequirement) (document : Option Json)
    (profile : JsString) : Prop :=
  ∃ ids, requirementsFor env profile document = some ids ∧
    (∃ id ∈ ids, (rowById rows id).any DerivedRequirement.witnessed = true) ∧
    ∀ id ∈ ids, (ledger.get? id).isSome = true ∧ ∃ r, rowById rows id = some r ∧
      r.disposition ∉ [.executedFail, .blocked, .skipped] ∧
      ¬ (r.disposition = .executedPass ∧ r.assertionCount.getD 0 = 0)

end Standing

section Disjoint

variable {env : Env} {report : Report} {ledger : LedgerRecords} {id : JsString}

/-- An uncounted pass is not a counted one. -/
theorem Uncounted.not_counted (hu : Uncounted env report ledger id) :
    ¬ Counted env report ledger id := by
  rintro ⟨e, he, _, hn⟩
  rcases hu with ⟨f, hf, _, hc⟩ | ⟨hg, _⟩
  · rw [he] at hf
    cases hf
    simp [hc] at hn
  · rw [recordOf_of_not_recorded hg] at he
    cases he

/-- An uncounted pass is not inapplicable. -/
theorem Uncounted.not_inapplicable (hu : Uncounted env report ledger id) :
    ¬ Inapplicable env report ledger id := by
  rintro ⟨e, he, hd⟩
  rcases hu with ⟨f, hf, hp, _⟩ | ⟨hg, _⟩
  · rw [he] at hf
    cases hf
    rw [hd] at hp
    cases hp
  · rw [recordOf_of_not_recorded hg] at he
    cases he

end Disjoint

section Floors

variable {env : Env} {report : Report} {ledger : LedgerRecords} {claimedProfiles : List JsString}
  {id : JsString}

/-- At major 2 no summary rows are written. -/
theorem rowById_derivedRows_at2 (hv : env.v2FloorsActive = true) :
    rowById (derivedRows env report ledger claimedProfiles) id = ownRow env report ledger id := by
  have hf : claimedFloors env claimedProfiles = [] := by simp [claimedFloors, hv]
  rw [rowById_derivedRows, ownRow]
  simp [prefixRows, prefixIds, anyOfRows, anyOfGroups, hf, uniq, sortBy, Map.empty]

/-- With a ledger present, the requirements that do not block a floor. -/
theorem isBlocking_eq_false_iff (hv : env.v2FloorsActive = true)
    (hp : ledgerPresent ledger = true) :
    isBlocking env ledger id (rowById (derivedRows env report ledger claimedProfiles) id) = false ↔
      Counted env report ledger id ∨ Uncounted env report ledger id ∨
        Inapplicable env report ledger id := by
  rw [rowById_derivedRows_at2 hv, Counted, Uncounted, Inapplicable]
  rcases h : recordOf env report ledger id with _ | e
  · rcases ownRow_of_recordOf_none h with hn | ⟨hg, file, state, hs, hid, hr⟩
    · have hne : ∀ file, ledger.get? id = none → report.get? file = some .passed →
          requirementIdForFile env file = id → False := fun file hg hf hi => by
        rw [ownRow, hg, Option.bind_none, Option.or_none,
          rowById_fileRows.mpr ⟨file, .passed, hf, hi, rfl⟩] at hn
        cases hn
      simp only [hn, isBlocking, isUnclassified, Option.isNone_none, Bool.true_or,
        Bool.true_eq_false, false_iff]
      rintro (⟨e, he, _⟩ | (⟨e, he, _⟩ | ⟨hg, file, hf, hi, _⟩) | ⟨e, he, _⟩)
      · cases he
      · cases he
      · exact hne file hg hf hi
      · cases he
    · have hsame : ∀ g, report.get? g = some .passed → requirementIdForFile env g = id →
          g = file := fun g hg hi => requirementIdForFile_injective (endsWith_of_get? hg)
            (endsWith_of_get? hs) (hi.trans hid.symm)
      have hrow : isBlocking env ledger id (some (fileRow env ledger file state)) = false ↔
          state = .passed ∧ startsWith file (js "anyof:") = true := by
        cases state <;>
          simp [isBlocking, isUnclassified, silent, fromLedger, vacuous, hg, hid, fileRow, hv, hp,
            certifiable, endsWith_star_of_get? hs]
      rw [hr, hrow]
      constructor
      · rintro ⟨rfl, ha⟩
        exact Or.inr (Or.inl (Or.inr ⟨hg, file, hs, hid, ha⟩))
      · rintro (⟨e, he, _⟩ | (⟨e, he, _⟩ | ⟨_, g, hgs, hgi, ha⟩) | ⟨e, he, _⟩)
        · cases he
        · cases he
        · obtain rfl := hsame g hgs hgi
          rw [hs] at hgs
          exact ⟨Option.some.inj hgs, ha⟩
        · cases he
  · obtain ⟨hg, file, hr⟩ := ownRow_of_recordOf h
    rw [hr]
    rcases e with ⟨_, d, detail, count, _, _⟩
    cases d <;> cases count <;>
      simp [isBlocking, isUnclassified, silent, fromLedger, vacuous, hg, testRow, hv, certifiable,
        Nat.pos_iff_ne_zero]

/-- The requirements whose row is recorded and witnesses something or does not apply. -/
theorem ownRow_witnesses_iff :
    ((ledger.get? id).isSome = true ∧ ∃ r, ownRow env report ledger id = some r ∧
        r.disposition ∉ [.executedFail, .blocked, .skipped] ∧
        ¬ (r.disposition = .executedPass ∧ r.assertionCount.getD 0 = 0)) ↔
      Counted env report ledger id ∨ Inapplicable env report ledger id := by
  rw [Counted, Inapplicable]
  rcases h : recordOf env report ledger id with _ | e
  · rcases ownRow_of_recordOf_none h with hn | ⟨hg, _⟩
    · simp [hn]
    · simp [hg]
  · obtain ⟨hg, file, hr⟩ := ownRow_of_recordOf h
    rw [hr]
    rcases e with ⟨_, d, detail, count, _, _⟩
    cases d <;> simp [hg, testRow, Nat.pos_iff_ne_zero]

/-- When the major-2 verdict on a profile is certifiable. -/
theorem certifiable_iff (hv : env.v2FloorsActive = true) (document : Option Json)
    (profile : JsString) :
    (profileVerdict env ledger (derivedRows env report ledger claimedProfiles) document
      profile).certifiable = true ↔
      ∃ ids, requirementsFor env profile document = some ids ∧
        (∃ id ∈ ids, Counted env report ledger id) ∧
        ∀ id ∈ ids, Counted env report ledger id ∨ Uncounted env report ledger id ∨
          Inapplicable env report ledger id := by
  have hpresent : ∀ id, Counted env report ledger id → ledgerPresent ledger = true := by
    rintro id ⟨e, he, _⟩
    have hm := (LedgerRecords.get?_eq_some.mp (ownRow_of_recordOf he).1).1
    exact decide_eq_true (List.length_pos_of_mem hm)
  rcases hr : requirementsFor env profile document with _ | ids
  · simp [profileVerdict, hr]
  · have hc : (profileVerdict env ledger (derivedRows env report ledger claimedProfiles) document
        profile).certifiable = true ↔
        (∃ id ∈ ids, Counted env report ledger id) ∧ ∀ id ∈ ids,
          isBlocking env ledger id (rowById (derivedRows env report ledger claimedProfiles) id) =
            false := by
      simp only [profileVerdict, hr, hv, if_true, decide_eq_true_eq, List.length_eq_zero_iff,
        List.filter_eq_nil_iff, ge_iff_le, Nat.one_le_iff_ne_zero, ne_eq, Bool.not_eq_true,
        rowById_derivedRows_at2 hv, ← ownRow_witnessed_iff]
      constructor
      · rintro ⟨_, hb, hw⟩
        simp only [not_forall] at hw
        obtain ⟨id, hm, hw⟩ := hw
        exact ⟨⟨id, hm, by simpa using hw⟩, hb⟩
      · rintro ⟨⟨id, hm, hw⟩, hb⟩
        refine ⟨List.length_pos_of_mem hm, hb, fun hn => ?_⟩
        rw [hn id hm] at hw
        cases hw
    rw [hc]
    simp only [Option.some.injEq, exists_eq_left']
    refine and_congr_right fun ⟨id, _, hid⟩ => forall₂_congr fun _ _ => ?_
    exact isBlocking_eq_false_iff hv (hpresent id hid)

/-- When the floor of a profile is witnessed. -/
theorem floorWitnessed_iff (hv : env.v2FloorsActive = true) (document : Option Json)
    (profile : JsString) :
    FloorWitnessed env ledger (derivedRows env report ledger claimedProfiles) document profile ↔
      ∃ ids, requirementsFor env profile document = some ids ∧
        (∃ id ∈ ids, Counted env report ledger id) ∧
        ∀ id ∈ ids, Counted env report ledger id ∨ Inapplicable env report ledger id := by
  simp only [FloorWitnessed, rowById_derivedRows_at2 hv, ownRow_witnessed_iff, ownRow_witnesses_iff]

end Floors

/-- With major-2 floors, and for every report, ledger and list of claims: certifiable profiles
are witnessed, and no file without assertions records a pass, exactly when no claimed floor
mixes counted with uncounted passes. -/
theorem certifiable_witnessed_iff (env : Env) (floors : Record JsString (List JsString))
    (report : Report) (ledger : LedgerRecords) (claimedProfiles : List JsString)
    (document : Option Json) :
    ((∀ verdict ∈ (deriveRequirementDispositions (env.withFloors floors) ledger report
        claimedProfiles document).verdicts, verdict.certifiable = true →
        FloorWitnessed (env.withFloors floors) ledger
          (deriveRequirementDispositions (env.withFloors floors) ledger report claimedProfiles
            document).requirements document verdict.profile) ∧
      ∀ corpus states gateReason noted specCoherenceFile failures,
        (resolveFileRecord corpus states gateReason 0 noted specCoherenceFile
          failures).disposition ≠ .executedPass) ↔
    ∀ profile ∈ claimedProfiles,
      ¬ MixesUncounted (env.withFloors floors) report ledger document profile := by
  have hv : (env.withFloors floors).v2FloorsActive = true := rfl
  rw [and_iff_left resolveFileRecord_ne_executedPass]
  simp only [deriveRequirementDispositions, List.forall_mem_map, certifiable_iff hv,
    profileVerdict_profile, floorWitnessed_iff hv]
  refine forall₂_congr fun profile _ => ?_
  constructor
  · rintro h ⟨ids, hr, hc, ⟨id, hm, hu⟩, hall⟩
    obtain ⟨ids', hr', _, hw⟩ := h ⟨ids, hr, hc, hall⟩
    rw [hr] at hr'
    cases hr'
    exact (hw id hm).elim hu.not_counted hu.not_inapplicable
  · rintro h ⟨ids, hr, hc, hall⟩
    refine ⟨ids, hr, hc, fun id hm => ?_⟩
    rcases hall id hm with hc' | hu | hi
    · exact Or.inl hc'
    · exact absurd ⟨ids, hr, hc, ⟨id, hm, hu⟩, hall⟩ h
    · exact Or.inr hi

/-- A host whose second floor file recorded a pass without an assertion count. -/
def uncountedLedger : LedgerRecords where
  entries := [
    { requirementId := js "openwop.floor.v2-era-key", disposition := .executedPass, detail := none
      assertionCount := some 3, scenarioFile := none, evidence := none },
    { requirementId := js "openwop.floor.v2-run-cancel", disposition := .executedPass, detail := none
      assertionCount := none, scenarioFile := none, evidence := none }]
  nodup := by decide

/-- Both floor files passed. -/
def passedReport : Report where
  states := ⟨[(js "v2-era-key.test.ts", .passed), (js "v2-run-cancel.test.ts", .passed)], by decide⟩
  scenarios := by decide
  basenames := by decide

/-- The floors and the environment of that host. -/
def uncountedEnv : Env where
  collation := codeUnitOrder
  targetsMajor2 := true
  v2ProfileFloorFiles := [(js "openwop-core-standard", [js "v2-era-key.test.ts", js "v2-run-cancel.test.ts"])]
  v2Floors := some [(js "openwop-core-standard", [js "v2-era-key.test.ts", js "v2-run-cancel.test.ts"])]

/-- The profile is certifiable beside a pass that counted nothing. -/
theorem uncounted_pass_certifies :
    ¬ ∀ verdict ∈ (deriveRequirementDispositions uncountedEnv uncountedLedger passedReport
        [js "openwop-core-standard"] none).verdicts, verdict.certifiable = true →
      FloorWitnessed uncountedEnv uncountedLedger
        (deriveRequirementDispositions uncountedEnv uncountedLedger passedReport
          [js "openwop-core-standard"] none).requirements none verdict.profile := by
  intro h
  obtain ⟨ids, hids, _, hall⟩ := h _ (List.mem_singleton.mpr rfl) (by decide)
  have he : some ids = some [js "openwop.floor.v2-era-key", js "openwop.floor.v2-run-cancel"] :=
    hids.symm.trans (by decide)
  cases he
  obtain ⟨_, r, hr, _, hn⟩ := hall (js "openwop.floor.v2-run-cancel") (by decide)
  have hrow : some r = some (testRow
      { requirementId := js "openwop.floor.v2-run-cancel", disposition := .executedPass, detail := none
        assertionCount := none, scenarioFile := none, evidence := none }
      (js "v2-run-cancel.test.ts")) := hr.symm.trans (by decide)
  cases hrow
  exact hn ⟨rfl, rfl⟩

end OpenWop.Certification
