import OpenWop.Certification.Floors

/-!
# Emitter and verifier

The verifier of a bundle reads the floors of the claimed profiles a second time, from
the rows the derivation wrote. The two verdicts differ on a pass without an assertion
count, on a prefix group that one counted file meets for the emitter and every matching
row has to meet for the verifier, and on a runtime-derived floor with a skipped or
inapplicable row.
-/

namespace OpenWop.Certification

open OpenWop.Js OpenWop.Ledger

section Floor

variable {env : Env} {report : Report} {ledger : LedgerRecords} {claimedProfiles : List JsString}
  {document : Json} {profile : JsString} {files : List JsString} {floor : ProfileFloor}

theorem of_requiredFor (h : requiredFor profile document = some (files, floor)) :
    floorOf profile = some floor ∧ floorFilesFor profile (some document) = some files := by
  simp only [requiredFor, Option.bind_eq_bind, Option.bind_eq_some_iff, Option.pure_def,
    Option.some.injEq, Prod.mk.injEq] at h
  obtain ⟨floor', hf, files', hfiles, rfl, rfl⟩ := h
  exact ⟨hf, hfiles⟩

theorem floorOf_eq_none (h : requiredFor profile document = none) : floorOf profile = none := by
  rcases hf : floorOf profile with _ | floor
  · rfl
  · rw [requiredFor, floorFilesFor, hf] at h
    by_cases hc : floor.conditional = [] <;> simp [hc] at h

/-- The files of a floor, from its branches. -/
theorem mem_files_iff (h : requiredFor profile document = some (files, floor)) {file : JsString} :
    file ∈ files ↔ file ∈ floor.required ∨
      ∃ c ∈ floor.conditional, c.holds document = true ∧ file ∈ c.required := by
  obtain ⟨hf, hfiles⟩ := of_requiredFor h
  rw [floorFilesFor, hf] at hfiles
  by_cases hc : floor.conditional = []
  · have hu : uniq floor.required = files := by simpa [hc] using hfiles
    rw [← hu, mem_uniq]
    simp [hc]
  · have hu : uniq (floor.required ++ (floor.conditional.filter fun c => c.holds document).flatMap
        ConditionalFloor.required) = files := by simpa [hc] using hfiles
    rw [← hu, mem_uniq, List.mem_append, List.mem_flatMap]
    simp [and_assoc]

theorem mem_tableFiles (h : requiredFor profile document = some (files, floor)) {file : JsString}
    (hm : file ∈ files) : file ∈ tableFloors.flatMap floorMemberFiles := by
  refine List.mem_flatMap.mpr ⟨floor, mem_tableFloors (of_requiredFor h).1, ?_⟩
  rw [floorMemberFiles, List.mem_append, List.mem_append]
  rcases (mem_files_iff h).mp hm with hm | ⟨c, hc, _, hm⟩
  · exact Or.inl (Or.inl hm)
  · exact Or.inl (Or.inr (List.mem_flatMap.mpr ⟨c, hc, hm⟩))

theorem files_eq_nil (h : requiredFor profile document = some (files, floor))
    (hr : floor.required = []) (hc : floor.conditional = []) : files = [] := by
  refine List.eq_nil_iff_forall_not_mem.mpr fun file hm => ?_
  rw [mem_files_iff h, hr, hc] at hm
  simp at hm

variable (env report ledger claimedProfiles) in
/-- The any-of groups of a floor have witnessed summary rows. -/
def GroupsWitnessed (floor : ProfileFloor) : Prop :=
  ∀ g ∈ floor.requiredAnyOf, (rowById (derivedRows env report ledger claimedProfiles)
    (requirementIdForAnyOf g)).any DerivedRequirement.witnessed = true

theorem rowById_file (h : requiredFor profile document = some (files, floor)) {file : JsString}
    (hm : file ∈ files) :
    rowById (derivedRows env.atMajor1 report ledger claimedProfiles) (requirementIdForScenario file) =
      ownRow env.atMajor1 report ledger (requirementIdForScenario file) :=
  rowById_derivedRows_of_not_group fun floor' hf' hid =>
    not_mem_groupIds_of_mem_tableFiles file (mem_tableFiles h hm)
      (List.mem_flatMap.mpr ⟨floor', mem_claimedFloors hf', hid⟩)

theorem claimed_of_group (hc : profile ∈ claimedProfiles)
    (h : requiredFor profile document = some (files, floor)) {id : JsString}
    (hid : id ∈ floor.groupIds) : floor ∈ claimedFloors env.atMajor1 claimedProfiles :=
  mem_claimedFloors_of_claimed hc (of_requiredFor h).1 (List.ne_nil_of_mem hid)

theorem prefixId_mem {p : JsString} (hp : p ∈ floor.requiredAnyPrefix) :
    requirementIdForPrefix p ∈ floor.groupIds :=
  List.mem_append_left _ (List.mem_map_of_mem hp)

theorem anyOfId_mem {g : List JsString} (hg : g ∈ floor.requiredAnyOf) :
    requirementIdForAnyOf g ∈ floor.groupIds :=
  List.mem_append_right _ (List.mem_map_of_mem hg)

/-- When the verifier certifies a claimed profile on the rows of the derivation. -/
theorem verifier_iff (hc : profile ∈ claimedProfiles) (hd : profileDerivable document profile = true)
    (h : requiredFor profile document = some (files, floor)) {bundle : BundleV2}
    (hrows : bundle.requirements = (derivedRows env.atMajor1 report ledger claimedProfiles).map
      DerivedRequirement.toBundle) (hdoc : bundle.document = document) :
    (verifyProfileV2 bundle profile).certified = true ↔
      (∀ file ∈ files, Settled env.atMajor1 report ledger (requirementIdForScenario file)) ∧
      (∀ p ∈ floor.requiredAnyPrefix,
        PrefixWitnessed env.atMajor1 report ledger claimedProfiles p ∧
        ¬ PrefixVacuous env.atMajor1 report ledger claimedProfiles p) ∧
      GroupsWitnessed env.atMajor1 report ledger claimedProfiles floor ∧
      (floor.discoveryOnly = true ∨
        ¬ (files = [] ∧ floor.requiredAnyPrefix = [] ∧ floor.requiredAnyOf = [])) := by
  subst hdoc
  rw [certified_iff h, and_iff_right hd, hrows]
  refine and_congr (forall₂_congr fun file hm => ?_) (and_congr (forall₂_congr fun p hp => ?_)
    (and_congr (forall₂_congr fun g hg => ?_) Iff.rfl))
  · have hslash := (of_mem_tableFiles file (mem_tableFiles h hm)).2.1
    rw [fileFinding_met_iff nodup_derivedRows (scenarioBasename_of_not_mem hslash), rowById_file h hm,
      ownRow_settled_iff]
  · exact prefixFinding_derived_iff (claimed_of_group hc h (prefixId_mem hp)) hp
  · obtain ⟨members, matching, hr⟩ := @rowById_anyOf env report ledger claimedProfiles floor
      (claimed_of_group hc h (anyOfId_mem hg)) g hg
    rw [anyOfFinding_met_iff nodup_derivedRows hr, hr, Option.any_some]

theorem requirementsFor_atMajor1 (h : requiredFor profile document = some (files, floor))
    (ho : floor.discoveryOnly = false) : requirementsFor env.atMajor1 profile (some document) =
      some (files.map requirementIdForScenario ++ floor.requiredAnyPrefix.map requirementIdForPrefix ++
        floor.requiredAnyOf.map requirementIdForAnyOf) := by
  obtain ⟨hf, hfiles⟩ := of_requiredFor h
  simp [requirementsFor, Env.atMajor1, hf, hfiles, ho]

/-- When the emitter reports a claimed profile certifiable. -/
theorem emitter_iff (hc : profile ∈ claimedProfiles)
    (h : requiredFor profile document = some (files, floor)) (ho : floor.discoveryOnly = false) :
    (profileVerdict env.atMajor1 ledger (derivedRows env.atMajor1 report ledger claimedProfiles)
      (some document) profile).certifiable = true ↔
      (if floor.runtimeDerived = true then
        ∀ file ∈ files, Counted env.atMajor1 report ledger (requirementIdForScenario file)
      else
        (∀ file ∈ files, Settled env.atMajor1 report ledger (requirementIdForScenario file) ∨
          CountMissing env.atMajor1 report ledger (requirementIdForScenario file)) ∧
        ∀ p ∈ floor.requiredAnyPrefix, PrefixCounted env.atMajor1 report ledger p) ∧
      GroupsWitnessed env.atMajor1 report ledger claimedProfiles floor ∧
        ¬ (files = [] ∧ floor.requiredAnyPrefix = [] ∧ floor.requiredAnyOf = []) := by
  have hf := (of_requiredFor h).1
  have hfile : ∀ file ∈ files, (rowById (derivedRows env.atMajor1 report ledger claimedProfiles)
      (requirementIdForScenario file)).any DerivedRequirement.witnessed = true ↔
      Counted env.atMajor1 report ledger (requirementIdForScenario file) := fun file hm => by
    rw [rowById_file h hm, ownRow_witnessed_iff]
  have hgroup : ∀ g ∈ floor.requiredAnyOf, isBlocking env.atMajor1 ledger (requirementIdForAnyOf g)
      (rowById (derivedRows env.atMajor1 report ledger claimedProfiles) (requirementIdForAnyOf g)) =
        false ↔ (rowById (derivedRows env.atMajor1 report ledger claimedProfiles)
          (requirementIdForAnyOf g)).any DerivedRequirement.witnessed = true := fun g hg => by
    obtain ⟨members, matching, hr⟩ := @rowById_anyOf env report ledger claimedProfiles floor
      (claimed_of_group hc h (anyOfId_mem hg)) g hg
    rw [hr, isBlocking_summary (isSummary_anyOfRow ..), Option.any_some]
  have hprefixes : ∀ p ∈ floor.requiredAnyPrefix, isBlocking env.atMajor1 ledger
      (requirementIdForPrefix p) (rowById (derivedRows env.atMajor1 report ledger claimedProfiles)
        (requirementIdForPrefix p)) = false ↔ PrefixCounted env.atMajor1 report ledger p :=
    fun p hp => by
      rw [rowById_prefixGroup (claimed_of_group hc h (prefixId_mem hp)) hp,
        isBlocking_summary (isSummary_prefixRow ..), prefix_witnessed_iff]
  unfold profileVerdict
  rw [requirementsFor_atMajor1 h ho]
  simp only [v2FloorsActive_atMajor1, hf, Option.any_some, ho, Bool.not_false, Bool.true_and,
    Bool.false_eq_true, if_false, false_or]
  set ids := files.map requirementIdForScenario ++
    floor.requiredAnyPrefix.map requirementIdForPrefix ++
    floor.requiredAnyOf.map requirementIdForAnyOf with hids
  have hlen : ids.length > 0 ↔
      ¬ (files = [] ∧ floor.requiredAnyPrefix = [] ∧ floor.requiredAnyOf = []) := by
    rw [gt_iff_lt, List.length_pos_iff, hids]
    simp
  have hall : ∀ P : JsString → Prop, (∀ id ∈ ids, P id) ↔
      (∀ file ∈ files, P (requirementIdForScenario file)) ∧
      (∀ p ∈ floor.requiredAnyPrefix, P (requirementIdForPrefix p)) ∧
      ∀ g ∈ floor.requiredAnyOf, P (requirementIdForAnyOf g) := fun P => by
    simp [hids, or_imp, forall_and]
  split
  · next hr =>
    have hp := (of_runtimeDerived floor (mem_tableFloors hf) hr).2
    rw [decide_eq_true_eq, hlen, List.length_filter_eq_length_iff, hall, forall₂_congr hfile,
      GroupsWitnessed]
    simp only [hp, List.not_mem_nil, false_imp_iff, implies_true, true_and]
    tauto
  · rw [decide_eq_true_eq, hlen, List.length_eq_zero_iff, List.filter_eq_nil_iff]
    simp only [Bool.not_eq_true]
    rw [hall, forall₂_congr fun file hm => (by rw [rowById_file h hm, isBlocking_file (mem_tableFiles h hm)] :
        isBlocking env.atMajor1 ledger (requirementIdForScenario file)
          (rowById (derivedRows env.atMajor1 report ledger claimedProfiles)
            (requirementIdForScenario file)) = false ↔ _),
      forall₂_congr hprefixes, forall₂_congr hgroup, GroupsWitnessed]
    tauto

end Floor

section Agreement

variable {env : Env} {report : Report} {ledger : LedgerRecords} {claimedProfiles : List JsString}
  {document : Json} {profile : JsString}

/-- A settled requirement did not pass without a count. -/
theorem CountMissing.not_settled {id : JsString} (h : CountMissing env report ledger id) :
    ¬ Settled env report ledger id := by
  intro hs
  have he : ∃ e, recordOf env report ledger id = some e ∧
      ((e.disposition = .executedPass ∧ e.assertionCount.getD 0 > 0) ∨ e.disposition = .skipped ∨
        e.disposition = .inapplicable) := by
    rcases hs with ⟨e, he, hp, hn⟩ | ⟨e, he, hd⟩
    · exact ⟨e, he, Or.inl ⟨hp, hn⟩⟩
    · exact ⟨e, he, Or.inr hd⟩
  obtain ⟨e, he, hd⟩ := he
  rcases h with ⟨f, hf, hp, hc⟩ | ⟨hempty, _⟩
  · rw [he] at hf
    cases hf
    simp [hp, hc] at hd
  · have hm := (LedgerRecords.get?_eq_some.mp (ownRow_of_recordOf he).1).1
    rw [hempty] at hm
    cases hm

/-- The two sides part over a file or a prefix. -/
theorem Diverges.nonempty {files prefixes : List JsString} {runtimeDerived : Bool}
    (h : Diverges env report ledger claimedProfiles files prefixes runtimeDerived) :
    ¬ (files = [] ∧ prefixes = []) := by
  rintro ⟨rfl, rfl⟩
  cases h with
  | notHeld _ _ hn => obtain ⟨_, hm, _⟩ := hn; cases hm
  | countMissing _ _ _ hn => obtain ⟨_, hm, _⟩ := hn; cases hm
  | vacuousMember _ _ _ hn => obtain ⟨_, hm, _⟩ := hn; cases hm
  | testsOnly _ _ _ hn => obtain ⟨_, hm, _⟩ := hn; cases hm

/-- Over a runtime-derived floor the two sides part exactly when it is settled but not held. -/
theorem diverges_runtime_iff {files : List JsString} :
    ((∀ file ∈ files, Settled env report ledger (requirementIdForScenario file)) ↔
      ∀ file ∈ files, Counted env report ledger (requirementIdForScenario file)) ↔
    ¬ Diverges env report ledger claimedProfiles files [] true := by
  constructor
  · intro h hdiv
    cases hdiv with
    | notHeld _ hf hn =>
      obtain ⟨file, hm, hn⟩ := hn
      exact hn (h.mp hf file hm)
    | countMissing hr => cases hr
    | vacuousMember hr => cases hr
    | testsOnly hr => cases hr
  · intro h
    refine ⟨fun hf => ?_, fun hf file hm => Or.inl (hf file hm)⟩
    by_contra hn
    push Not at hn
    exact h (.notHeld rfl hf hn)

/-- Over any other floor the two sides part on missing counts, vacuous members and prefixes whose
witnesses are tests only. -/
theorem diverges_static_iff {files prefixes : List JsString} :
    (((∀ file ∈ files, Settled env.atMajor1 report ledger (requirementIdForScenario file)) ∧
      ∀ p ∈ prefixes, PrefixWitnessed env.atMajor1 report ledger claimedProfiles p ∧
        ¬ PrefixVacuous env.atMajor1 report ledger claimedProfiles p) ↔
      (∀ file ∈ files, Settled env.atMajor1 report ledger (requirementIdForScenario file) ∨
        CountMissing env.atMajor1 report ledger (requirementIdForScenario file)) ∧
      ∀ p ∈ prefixes, PrefixCounted env.atMajor1 report ledger p) ↔
    ¬ Diverges env.atMajor1 report ledger claimedProfiles files prefixes false := by
  constructor
  · intro h hdiv
    cases hdiv with
    | notHeld hr => cases hr
    | countMissing _ hf hp hn =>
      obtain ⟨file, hm, hn⟩ := hn
      exact hn.not_settled ((h.mpr ⟨hf, hp⟩).1 file hm)
    | vacuousMember _ hf hp hn =>
      obtain ⟨p, hm, hn⟩ := hn
      exact ((h.mpr ⟨hf, hp⟩).2 p hm).2 hn
    | testsOnly _ hf hp hn =>
      obtain ⟨p, hm, hn⟩ := hn
      exact hn ((h.mp ⟨hf, hp⟩).2 p hm)
  · intro h
    constructor
    · rintro ⟨hf, hp⟩
      refine ⟨fun file hm => Or.inl (hf file hm), ?_⟩
      by_contra hn
      push Not at hn
      exact h (.testsOnly rfl hf hp hn)
    · rintro ⟨hf, hp⟩
      refine ⟨fun file hm => (hf file hm).resolve_right fun hn =>
        h (.countMissing rfl hf hp ⟨file, hm, hn⟩), fun p hm => ⟨(hp p hm).witnessed, fun hn =>
        h (.vacuousMember rfl hf hp ⟨p, hm, hn⟩)⟩⟩

/-- The verdicts on one claimed profile agree unless its floor is one the two sides part over. -/
theorem verdict_agrees_iff (hc : profile ∈ claimedProfiles)
    (hd : profileDerivable document profile = true) {bundle : BundleV2}
    (hrows : bundle.requirements = (derivedRows env.atMajor1 report ledger claimedProfiles).map
      DerivedRequirement.toBundle) (hdoc : bundle.document = document) :
    (verifyProfileV2 bundle profile).certified = (profileVerdict env.atMajor1 ledger
      (derivedRows env.atMajor1 report ledger claimedProfiles) (some document) profile).certifiable ↔
      ∀ files floor, requiredFor profile document = some (files, floor) →
        ¬ Diverges env.atMajor1 report ledger claimedProfiles files floor.requiredAnyPrefix
          floor.runtimeDerived := by
  rcases h : requiredFor profile document with _ | ⟨files, floor⟩
  · have hv : (verifyProfileV2 bundle profile).certified = false := by
      simp [verifyProfileV2, hdoc, h]
    have hr : requirementsFor env.atMajor1 profile (some document) = none := by
      simp [requirementsFor, Env.atMajor1, floorOf_eq_none h]
    simp [hv, profileVerdict, hr]
  simp only [Option.some.injEq, Prod.mk.injEq, and_imp, forall_apply_eq_imp_iff, forall_eq']
  have hf := (of_requiredFor h).1
  have hfloor := mem_tableFloors hf
  have hverifier := verifier_iff hc hd h hrows hdoc
  cases ho : floor.discoveryOnly with
  | true =>
    obtain ⟨hreq, hcond, hp, hg⟩ := of_discoveryOnly floor hfloor ho
    have hfiles := files_eq_nil h hreq hcond
    have hr : floor.runtimeDerived = false := by
      by_contra hr
      rw [Bool.not_eq_false] at hr
      rw [(of_runtimeDerived floor hfloor hr).1] at ho
      cases ho
    have hv : (verifyProfileV2 bundle profile).certified = true :=
      hverifier.mpr (by simp [hfiles, hp, GroupsWitnessed, hg, ho])
    have he : requirementsFor env.atMajor1 profile (some document) = some [] := by
      simp [requirementsFor, Env.atMajor1, hf, ho]
    refine iff_of_true ?_ fun hdiv => hdiv.nonempty ⟨hfiles, hp⟩
    simp [hv, profileVerdict, he, hf, ho, hr]
  | false =>
    rw [Bool.eq_iff_iff, hverifier, emitter_iff hc h ho, ho]
    simp only [Bool.false_eq_true, false_or]
    by_cases hg : floor.requiredAnyOf = []
    · have hgroups : GroupsWitnessed env.atMajor1 report ledger claimedProfiles floor := by
        simp [GroupsWitnessed, hg]
      by_cases hn : files = [] ∧ floor.requiredAnyPrefix = []
      · exact iff_of_true (by simp [hn, hg]) fun hdiv => hdiv.nonempty hn
      · have hn' : ¬ (files = [] ∧ floor.requiredAnyPrefix = [] ∧ floor.requiredAnyOf = []) :=
          fun h => hn ⟨h.1, h.2.1⟩
        simp only [hgroups, hn', not_false_eq_true, and_true]
        cases hr : floor.runtimeDerived with
        | true =>
          rw [(of_runtimeDerived floor hfloor hr).2, ← diverges_runtime_iff]
          simp
        | false =>
          rw [← diverges_static_iff]
          simp
    · obtain ⟨hreq, hcond, hp, hr⟩ := of_requiredAnyOf floor hfloor hg
      have hfiles := files_eq_nil h hreq hcond
      refine iff_of_true ?_ fun hdiv => hdiv.nonempty ⟨hfiles, hp⟩
      simp [hfiles, hp, hr]

@[simp] theorem verifyProfileV2_profile (bundle : BundleV2) (profile : JsString) :
    (verifyProfileV2 bundle profile).profile = profile := by
  unfold verifyProfileV2
  dsimp only
  split <;> rfl

/-- For every ledger, report and list of claimed profiles that the document derives, the bundle of
the derivation is certified profile by profile as the emitter reported it, exactly when no claimed
profile has a floor that the two sides part over. -/
theorem verdicts_agree_iff (env : Env) (report : Report) (ledger : LedgerRecords) (document : Json)
    (claimedProfiles : List JsString) (discovery rest : List (JsString × Json))
    (hd : ∀ profile ∈ claimedProfiles, profileDerivable document profile = true) :
    ((verifyBundleV2 ((deriveRequirementDispositions env.atMajor1 ledger report claimedProfiles
        (some document)).toBundle document claimedProfiles discovery rest)).profiles.map
          fun v => (v.profile, v.certified)) =
      ((deriveRequirementDispositions env.atMajor1 ledger report claimedProfiles
        (some document)).verdicts.map fun v => (v.profile, v.certifiable)) ↔
    ∀ profile ∈ claimedProfiles, ∀ files floor, requiredFor profile document = some (files, floor) →
      ¬ Diverges env.atMajor1 report ledger claimedProfiles files floor.requiredAnyPrefix
        floor.runtimeDerived := by
  simp only [verifyBundleV2, deriveRequirementDispositions, Derivation.toBundle, List.map_map,
    List.map_inj_left, Function.comp_apply, verifyProfileV2_profile, profileVerdict_profile,
    Prod.mk.injEq, true_and]
  exact forall₂_congr fun profile hc => verdict_agrees_iff hc (hd profile hc) rfl rfl

/-- The discovery document of a minimal major-1 host. -/
def minimalDocument : Json :=
  .obj [(js "protocolVersion", .str (js "1.0")), (js "supportedEnvelopes", .arr []),
    (js "schemaVersions", .obj []),
    (js "limits", .obj [(js "clarificationRounds", .num (.ofNat 1)),
      (js "schemaRounds", .num (.ofNat 1)), (js "envelopesPerTurn", .num (.ofNat 1))])]

/-- A run that reported one file, passed. -/
def streamReport : Report where
  states := ⟨[(js "stream-modes.test.ts", .passed)], by decide⟩
  scenarios := by decide
  basenames := by decide

/-- A ledger that records that file as a pass with some assertion count, or none. -/
def streamLedger (assertionCount : Option Nat) : LedgerRecords where
  entries := [{ requirementId := js "openwop.floor.stream-modes", disposition := .executedPass
                detail := none, assertionCount, scenarioFile := none, evidence := none }]
  nodup := List.nodup_singleton _

/-- On a counted pass the two sides agree. -/
theorem counted_verdicts_agree :
    ((verifyBundleV2 ((deriveRequirementDispositions (Env.atMajor1 ⟨codeUnitOrder, false, [], none⟩)
        (streamLedger (some 4)) streamReport [js "openwop-stream-poll"]
        (some minimalDocument)).toBundle minimalDocument [js "openwop-stream-poll"] [] [])).profiles.map
          fun v => (v.profile, v.certified)) =
      ((deriveRequirementDispositions (Env.atMajor1 ⟨codeUnitOrder, false, [], none⟩)
        (streamLedger (some 4)) streamReport [js "openwop-stream-poll"]
        (some minimalDocument)).verdicts.map fun v => (v.profile, v.certifiable)) := by
  refine (verdicts_agree_iff ⟨codeUnitOrder, false, [], none⟩ streamReport (streamLedger (some 4))
    minimalDocument [js "openwop-stream-poll"] [] [] (by decide)).mpr ?_
  intro profile hm files floor h
  obtain rfl := List.mem_singleton.mp hm
  have he : some (files, floor) = some ([js "stream-modes.test.ts"],
      { required := [js "stream-modes.test.ts"] }) := h.symm.trans (by decide)
  cases he
  have hs : ∀ file ∈ [js "stream-modes.test.ts"], Settled (Env.atMajor1 ⟨codeUnitOrder, false, [], none⟩)
      streamReport (streamLedger (some 4)) (requirementIdForScenario file) := fun file hf => by
    obtain rfl := List.mem_singleton.mp hf
    have hr : recordOf (Env.atMajor1 ⟨codeUnitOrder, false, [], none⟩) streamReport
        (streamLedger (some 4)) (requirementIdForScenario (js "stream-modes.test.ts")) =
          (streamLedger (some 4)).entries.head? := by
      decide
    exact Or.inl ⟨_, hr, rfl, by decide⟩
  exact diverges_static_iff.mp
    (iff_of_true ⟨hs, by simp⟩ ⟨fun file hf => Or.inl (hs file hf), by simp⟩)

/-- A pass without an assertion count is certifiable for the emitter and not certified by the
verifier. -/
theorem uncounted_verdicts_disagree :
    (∀ profile ∈ [js "openwop-stream-poll"], profileDerivable minimalDocument profile = true) ∧
    ((verifyBundleV2 ((deriveRequirementDispositions (Env.atMajor1 ⟨codeUnitOrder, false, [], none⟩)
        (streamLedger none) streamReport [js "openwop-stream-poll"]
        (some minimalDocument)).toBundle minimalDocument [js "openwop-stream-poll"] [] [])).profiles.map
          fun v => (v.profile, v.certified)) ≠
      ((deriveRequirementDispositions (Env.atMajor1 ⟨codeUnitOrder, false, [], none⟩)
        (streamLedger none) streamReport [js "openwop-stream-poll"]
        (some minimalDocument)).verdicts.map fun v => (v.profile, v.certifiable)) := by
  decide

end Agreement

end OpenWop.Certification
