import OpenWop.Certification.Groups
import OpenWop.Certification.Findings

/-!
# Floors at major 1

When a file or a group of a major-1 floor satisfies the emitter and when it satisfies
the verifier, in terms of the ledger and the report.
-/

namespace OpenWop.Certification

open OpenWop.Js OpenWop.Ledger

section Standing

variable (env : Env) (report : Report) (ledger : LedgerRecords) (claimedProfiles : List JsString)

/-- Recorded as a pass with assertions, as skipped or as inapplicable. -/
def Settled (id : JsString) : Prop :=
  Counted env report ledger id ∨ ∃ e, recordOf env report ledger id = some e ∧
    (e.disposition = .skipped ∨ e.disposition = .inapplicable)

/-- Recorded as a pass without an assertion count, or reported as passed without any ledger. -/
def CountMissing (id : JsString) : Prop :=
  (∃ e, recordOf env report ledger id = some e ∧ e.disposition = .executedPass ∧
    e.assertionCount = none) ∨
  (ledger.entries = [] ∧ ∃ file, report.get? file = some .passed ∧
    requirementIdForFile env file = id)

/-- The reported file a record's row stands under, unless a group's summary row has its id. -/
def scenarioOf (e : LedgerEntry) : Option JsString :=
  if e.requirementId ∈ (claimedFloors env claimedProfiles).flatMap ProfileFloor.groupIds then none
  else ((report.states.keys.find? fun file => requirementIdForFile env file = e.requirementId).or
    (attributedFile e)).filter fun file => (report.get? file).isSome

/-- The record's row stands under a file whose name starts with the prefix. -/
def UnderPrefix (p : JsString) (e : LedgerEntry) : Prop :=
  e ∈ ledger.entries ∧ (scenarioOf env report claimedProfiles e).any (startsWith · p) = true

/-- A reported file whose name starts with the prefix is recorded as a pass with assertions. -/
def PrefixCounted (p : JsString) : Prop :=
  ∃ file, (report.get? file).isSome = true ∧ startsWith file p = true ∧
    ∃ e, ledger.get? (requirementIdForFile env file) = some e ∧ e.disposition = .executedPass ∧
      e.assertionCount.getD 0 > 0

/-- Some record under the prefix is a pass with assertions. -/
def PrefixWitnessed (p : JsString) : Prop :=
  ∃ e, UnderPrefix env report ledger claimedProfiles p e ∧ e.disposition = .executedPass ∧
    e.assertionCount.getD 0 > 0

/-- Some record under the prefix is a pass without assertions or an unclassified return, or an
unrecorded file of that prefix is reported as passed. -/
def PrefixVacuous (p : JsString) : Prop :=
  (∃ e, UnderPrefix env report ledger claimedProfiles p e ∧
    ((e.disposition = .executedPass ∧ e.assertionCount.getD 0 = 0) ∨
      (e.disposition = .blocked ∧ e.detail = some unclassifiedReturnDetail))) ∨
  ∃ file, report.get? file = some .passed ∧ startsWith file p = true ∧
    ledger.get? (requirementIdForFile env file) = none

/-- The records and reports on which the two sides part over a floor: its required files, its
prefixes, and whether it is runtime-derived. -/
inductive Diverges (files prefixes : List JsString) (runtimeDerived : Bool) : Prop
  /-- A runtime-derived floor is settled, and something in it is skipped or inapplicable. -/
  | notHeld (hr : runtimeDerived = true)
      (hf : ∀ file ∈ files, Settled env report ledger (requirementIdForScenario file))
      (hn : ∃ file ∈ files, ¬ Counted env report ledger (requirementIdForScenario file))
  /-- A required file passed without a count, and the emitter has nothing against the floor. -/
  | countMissing (hr : runtimeDerived = false)
      (hf : ∀ file ∈ files, Settled env report ledger (requirementIdForScenario file) ∨
        CountMissing env report ledger (requirementIdForScenario file))
      (hp : ∀ p ∈ prefixes, PrefixCounted env report ledger p)
      (hn : ∃ file ∈ files, CountMissing env report ledger (requirementIdForScenario file))
  /-- A prefix group with a counted file has a vacuous row too. -/
  | vacuousMember (hr : runtimeDerived = false)
      (hf : ∀ file ∈ files, Settled env report ledger (requirementIdForScenario file) ∨
        CountMissing env report ledger (requirementIdForScenario file))
      (hp : ∀ p ∈ prefixes, PrefixCounted env report ledger p)
      (hn : ∃ p ∈ prefixes, PrefixVacuous env report ledger claimedProfiles p)
  /-- The witnesses of a prefix group are tests only, none of its files. -/
  | testsOnly (hr : runtimeDerived = false)
      (hf : ∀ file ∈ files, Settled env report ledger (requirementIdForScenario file))
      (hp : ∀ p ∈ prefixes, PrefixWitnessed env report ledger claimedProfiles p ∧
        ¬ PrefixVacuous env report ledger claimedProfiles p)
      (hn : ∃ p ∈ prefixes, ¬ PrefixCounted env report ledger p)

end Standing

section Emitter

variable {env : Env} {report : Report} {ledger : LedgerRecords} {claimedProfiles : List JsString}

/-- A summary row: not skipped, not inapplicable, and counted when it is a pass. -/
def IsSummary (r : DerivedRequirement) : Prop :=
  (endsWith r.scenarioId (js "*") = true ∨ startsWith r.scenarioId (js "anyof:") = true) ∧
    r.disposition ∉ [.skipped, .inapplicable] ∧
    (r.disposition = .executedPass → r.assertionCount.isSome = true)

theorem isSummary_prefixRow (p : JsString) (matching : List DerivedRequirement) :
    IsSummary (prefixRow p matching) := by
  refine ⟨Or.inl ?_, ?_⟩
  · rw [prefixRow_scenarioId]
    exact endsWith_iff.mpr (List.suffix_append p _)
  · unfold prefixRow
    dsimp only
    split_ifs <;> simp

theorem isSummary_anyOfRow (id : JsString) (members : List JsString)
    (matching : List DerivedRequirement) : IsSummary (anyOfRow id members matching) := by
  refine ⟨Or.inr ?_, ?_⟩
  · rw [anyOfRow_scenarioId]
    exact startsWith_iff.mpr (List.prefix_append _ _)
  · unfold anyOfRow
    dsimp only
    split_ifs <;> simp

/-- At major 1 a summary row does not block its floor exactly when it is witnessed. -/
theorem isBlocking_summary {r : DerivedRequirement} (hs : IsSummary r) (id : JsString) :
    isBlocking env.atMajor1 ledger id (some r) = false ↔ r.witnessed = true := by
  obtain ⟨hname, hd, hc⟩ := hs
  rcases r with ⟨rid, scenario, d, detail, count⟩
  rcases hname with hname | hname <;> rcases count with _ | n <;> cases d <;>
    simp_all [isBlocking, isUnclassified, silent, fromLedger, vacuous, certifiable,
      DerivedRequirement.witnessed, Nat.pos_iff_ne_zero]

/-- The requirement's own row is a counted pass, skipped or inapplicable. -/
theorem ownRow_settled_iff {id : JsString} :
    (∃ r, ownRow env report ledger id = some r ∧ (r.witnessed = true ∨ r.disposition = .skipped ∨
      r.disposition = .inapplicable)) ↔ Settled env report ledger id := by
  rw [Settled, Counted]
  rcases h : recordOf env report ledger id with _ | e
  · rcases ownRow_of_recordOf_none h with hn | ⟨hg, file, state, _, hid, hr⟩
    · simp [hn]
    · rw [hr]
      cases state <;> simp [fileRow, hid, hg, DerivedRequirement.witnessed]
  · obtain ⟨_, file, hr⟩ := ownRow_of_recordOf h
    simp [hr, testRow, DerivedRequirement.witnessed]

/-- At major 1 a required file does not block its floor exactly when it is settled or passed
without a count. -/
theorem isBlocking_file {file : JsString} (hf : file ∈ tableFloors.flatMap floorMemberFiles) :
    isBlocking env.atMajor1 ledger (requirementIdForScenario file)
        (ownRow env.atMajor1 report ledger (requirementIdForScenario file)) = false ↔
      Settled env.atMajor1 report ledger (requirementIdForScenario file) ∨
        CountMissing env.atMajor1 report ledger (requirementIdForScenario file) := by
  obtain ⟨hend, _, hany⟩ := of_mem_tableFiles file hf
  have hid : requirementIdForFile env.atMajor1 file = requirementIdForScenario file := by
    rw [requirementIdForFile, floorScenarioFiles_atMajor1, if_pos hf]
  have hsame : ∀ {g state}, report.get? g = some state →
      requirementIdForFile env.atMajor1 g = requirementIdForScenario file → g = file :=
    fun hg hi => requirementIdForFile_injective (endsWith_of_get? hg) hend (hi.trans hid.symm)
  rw [Settled, Counted, CountMissing]
  rcases h : recordOf env.atMajor1 report ledger (requirementIdForScenario file) with _ | e
  · have hempty : (∃ g, report.get? g = some .passed ∧
        requirementIdForFile env.atMajor1 g = requirementIdForScenario file) ↔
        report.get? file = some .passed := by
      constructor
      · rintro ⟨g, hg, hi⟩
        exact hsame hg hi ▸ hg
      · exact fun hg => ⟨file, hg, hid⟩
    rw [hempty]
    rcases ownRow_of_recordOf_none h with hn | ⟨hg, g, state, hs, hi, hr⟩
    · have hnot : report.get? file ≠ some .passed := fun hg => by
        rw [ownRow, rowById_fileRows.mpr ⟨file, .passed, hg, hid, rfl⟩] at hn
        cases hn
      simp [hn, isBlocking, isUnclassified, hnot]
    · obtain rfl := hsame hs hi
      have hstar := endsWith_star_of_get? hs
      rw [hr]
      cases state <;>
        simp [isBlocking, isUnclassified, silent, fromLedger, vacuous, hg, hi, fileRow, hs, hstar,
          hany, certifiable, ledgerPresent]
  · obtain ⟨hg, g, hr⟩ := ownRow_of_recordOf h
    have hne : ledger.entries ≠ [] :=
      List.ne_nil_of_mem (LedgerRecords.get?_eq_some.mp hg).1
    rw [hr]
    rcases e with ⟨_, d, detail, count, _, _⟩
    cases d <;> cases count <;>
      simp [isBlocking, isUnclassified, silent, fromLedger, vacuous, hg, testRow, certifiable, hne,
        Nat.pos_iff_ne_zero]

end Emitter

section Prefixes

variable {env : Env} {report : Report} {ledger : LedgerRecords} {claimedProfiles : List JsString}

theorem fileRow_witnessed_iff {file : JsString} {state : ReportState} :
    (fileRow env ledger file state).witnessed = true ↔
      ∃ e, ledger.get? (requirementIdForFile env file) = some e ∧ e.disposition = .executedPass ∧
        e.assertionCount.getD 0 > 0 := by
  rcases hg : ledger.get? (requirementIdForFile env file) with _ | e
  · cases state <;> simp [fileRow, hg, DerivedRequirement.witnessed]
  · simp [fileRow_of_record state hg, testRow, DerivedRequirement.witnessed]

/-- The summary row of a prefix is witnessed exactly when some matching row is. -/
theorem prefixRow_witnessed_iff {p : JsString} {matching : List DerivedRequirement} :
    (prefixRow p matching).witnessed = true ↔ ∃ r ∈ matching, r.witnessed = true := by
  have hsum : ∀ rows : List DerivedRequirement,
      0 < assertionSum rows ↔ ∃ r ∈ rows, 0 < r.assertionCount.getD 0 := fun rows => by
    rw [assertionSum, List.sum_pos_iff_exists_pos_nat]
    simp
  unfold prefixRow
  dsimp only
  split
  · simp [DerivedRequirement.witnessed, hsum, and_assoc]
  · next h =>
    have hnone : ¬ ∃ r ∈ matching, r.witnessed = true := by
      rintro ⟨r, hr, hw⟩
      refine h (List.any_eq_true.mpr ⟨r, hr, ?_⟩)
      simp only [DerivedRequirement.witnessed, decide_eq_true_eq] at hw
      simp [hw.1]
    split_ifs <;> simpa [DerivedRequirement.witnessed] using hnone

/-- For the emitter a prefix is met by a counted file. -/
theorem prefix_witnessed_iff {p : JsString} :
    (prefixRow p (prefixMatching env report ledger p)).witnessed = true ↔
      PrefixCounted env report ledger p := by
  rw [prefixRow_witnessed_iff, PrefixCounted]
  constructor
  · rintro ⟨r, hr, hw⟩
    obtain ⟨f, hf, rfl⟩ := List.mem_map.mp hr
    obtain ⟨hm, hp⟩ := List.mem_filter.mp hf
    exact ⟨f.1, by rw [mem_reportedFiles.mp hm]; rfl, hp, fileRow_witnessed_iff.mp hw⟩
  · rintro ⟨file, hs, hp, hw⟩
    obtain ⟨state, hs⟩ := Option.isSome_iff_exists.mp hs
    have hm : (file, state) ∈ reportedFiles env report := mem_reportedFiles.mpr hs
    exact ⟨_, List.mem_map_of_mem (f := fun f : JsString × ReportState => fileRow env ledger f.1 f.2)
      (List.mem_filter.mpr ⟨hm, hp⟩), fileRow_witnessed_iff.mpr hw⟩

/-- The group ids of the claimed floors are the ids of the group rows. -/
theorem mem_groupIds_iff {id : JsString} :
    id ∈ (claimedFloors env claimedProfiles).flatMap ProfileFloor.groupIds ↔
      ∃ r, (r ∈ prefixRows env report ledger claimedProfiles ∨
        r ∈ anyOfRows env report ledger claimedProfiles) ∧ r.requirementId = id := by
  constructor
  · intro h
    obtain ⟨floor, hf, h⟩ := List.mem_flatMap.mp h
    rcases List.mem_append.mp h with h | h
    · obtain ⟨p, hp, rfl⟩ := List.mem_map.mp h
      exact ⟨_, Or.inl (mem_prefixRows.mpr ⟨floor, hf, p, hp, rfl⟩), prefixRow_requirementId ..⟩
    · obtain ⟨g, hg, rfl⟩ := List.mem_map.mp h
      obtain ⟨m, hm, hid⟩ := exists_mem_anyOfGroups hf hg
      exact ⟨_, Or.inr (List.mem_map_of_mem (f := fun g : JsString × List JsString =>
        anyOfRow g.1 g.2 (g.2.filterMap (perFile? env report ledger))) hm), by simpa using hid⟩
  · rintro ⟨r, hr, rfl⟩
    exact List.mem_flatMap.mpr (groupRows_requirementId hr)

/-- At major 1 the scenario of a record is the file recording under its id, else the reported
file it is attributed to when it is no group. -/
theorem scenarioOf_eq_some {e : LedgerEntry} {file : JsString} :
    scenarioOf env.atMajor1 report claimedProfiles e = some file ↔
      (∃ state, report.get? file = some state ∧
        requirementIdForFile env.atMajor1 file = e.requirementId) ∨
      (e.requirementId ∉ (claimedFloors env.atMajor1 claimedProfiles).flatMap ProfileFloor.groupIds ∧
        (∀ g ∈ report.states.keys, requirementIdForFile env.atMajor1 g ≠ e.requirementId) ∧
        attributedFile e = some file ∧ (report.get? file).isSome = true) := by
  have hkey : ∀ {g}, g ∈ report.states.keys ↔ (report.get? g).isSome = true := Map.get?_isSome_iff.symm
  have hfile : ∀ g, requirementIdForFile env.atMajor1 g = e.requirementId →
      e.requirementId ∉ (claimedFloors env.atMajor1 claimedProfiles).flatMap ProfileFloor.groupIds :=
    fun g hg h => by
      obtain ⟨floor, hf, h⟩ := List.mem_flatMap.mp h
      exact requirementIdForFile_not_mem_groupIds env g (mem_claimedFloors hf) (hg ▸ h)
  rw [scenarioOf]
  rcases hfind : report.states.keys.find? (fun g => requirementIdForFile env.atMajor1 g =
    e.requirementId) with _ | g
  · have hnone : ∀ g ∈ report.states.keys, requirementIdForFile env.atMajor1 g ≠ e.requirementId :=
      by simpa using List.find?_eq_none.mp hfind
    have hleft : ¬ ∃ state, report.get? file = some state ∧
        requirementIdForFile env.atMajor1 file = e.requirementId := fun ⟨state, hs, hid⟩ =>
      hnone file (hkey.mpr (Option.isSome_of_eq_some hs)) hid
    simp only [hleft, false_or, ne_eq, Option.none_or]
    split
    · next hg => exact iff_of_false (by simp) fun h => h.1 hg
    · next hg => rw [Option.filter_eq_some_iff]; exact ⟨fun h => ⟨hg, hnone, h⟩, fun h => h.2.2⟩
  · have hid : requirementIdForFile env.atMajor1 g = e.requirementId := by
      simpa only [decide_eq_true_eq] using List.find?_some hfind
    have hg := hkey.mp (List.mem_of_find?_eq_some hfind)
    obtain ⟨gstate, hgs⟩ := Option.isSome_iff_exists.mp hg
    have hright : ¬ ∀ f ∈ report.states.keys, requirementIdForFile env.atMajor1 f ≠ e.requirementId :=
      fun h => h g (List.mem_of_find?_eq_some hfind) hid
    rw [if_neg (hfile g hid), Option.some_or, Option.filter_some, if_pos hg, Option.some.injEq]
    constructor
    · rintro rfl
      exact Or.inl ⟨gstate, hgs, hid⟩
    · rintro (⟨state, hs, hf⟩ | ⟨_, h, _⟩)
      · exact requirementIdForFile_injective (endsWith_of_get? hgs) (endsWith_of_get? hs)
          (hid.trans hf.symm)
      · exact absurd h hright

/-- The rows of a derivation at major 1: the group rows, the recorded rows under their files,
and the rows of unrecorded files. -/
theorem mem_derivedRows_atMajor1 {r : DerivedRequirement} :
    r ∈ derivedRows env.atMajor1 report ledger claimedProfiles ↔
      (r ∈ prefixRows env.atMajor1 report ledger claimedProfiles ∨
        r ∈ anyOfRows env.atMajor1 report ledger claimedProfiles) ∨
      (∃ e ∈ ledger.entries, ∃ file,
        scenarioOf env.atMajor1 report claimedProfiles e = some file ∧ r = testRow e file) ∨
      ∃ file state, report.get? file = some state ∧
        ledger.get? (requirementIdForFile env.atMajor1 file) = none ∧
        r = fileRow env.atMajor1 ledger file state := by
  have hbase : ∀ q, q ∈ baseRows env.atMajor1 report ledger claimedProfiles ↔
      q ∈ fileRows env.atMajor1 report ledger ∨
        (q ∈ prefixRows env.atMajor1 report ledger claimedProfiles ∨
          q ∈ anyOfRows env.atMajor1 report ledger claimedProfiles) := fun q => by
    rw [baseRows, List.mem_append, List.mem_append, or_assoc]
  have hids : ∀ id, id ∉ (baseRows env.atMajor1 report ledger claimedProfiles).map
      DerivedRequirement.requirementId ↔
      id ∉ (claimedFloors env.atMajor1 claimedProfiles).flatMap ProfileFloor.groupIds ∧
        ∀ g ∈ report.states.keys, requirementIdForFile env.atMajor1 g ≠ id := fun id => by
    rw [@mem_groupIds_iff env.atMajor1 report ledger, ← not_exists_mem, ← not_or]
    refine not_congr ?_
    rw [List.mem_map]
    constructor
    · rintro ⟨q, hq, rfl⟩
      rcases (hbase q).mp hq with hq | hq
      · obtain ⟨g, state, hs, rfl⟩ := mem_fileRows.mp hq
        exact Or.inr ⟨g, Map.get?_isSome_iff.mp (Option.isSome_of_eq_some hs), by simp⟩
      · exact Or.inl ⟨q, hq, rfl⟩
    · rintro (⟨q, hq, rfl⟩ | ⟨g, hg, rfl⟩)
      · exact ⟨q, (hbase q).mpr (Or.inr hq), rfl⟩
      · obtain ⟨state, hs⟩ := Option.isSome_iff_exists.mp (Map.get?_isSome_iff.mpr hg)
        exact ⟨_, (hbase _).mpr (Or.inl (mem_fileRows.mpr ⟨g, state, hs, rfl⟩)), by simp⟩
  rw [mem_derivedRows, hbase]
  constructor
  · rintro ((hr | hr) | ⟨e, he, hid, ht⟩)
    · obtain ⟨file, state, hs, rfl⟩ := mem_fileRows.mp hr
      rcases hg : ledger.get? (requirementIdForFile env.atMajor1 file) with _ | e
      · exact Or.inr (Or.inr ⟨file, state, hs, hg, rfl⟩)
      · obtain ⟨he, hid⟩ := LedgerRecords.get?_eq_some.mp hg
        exact Or.inr (Or.inl ⟨e, he, file, scenarioOf_eq_some.mpr (Or.inl ⟨state, hs, hid.symm⟩),
          fileRow_of_record state hg⟩)
    · exact Or.inl hr
    · obtain ⟨hgroup, hfile⟩ := (hids _).mp hid
      rw [testRow?, Option.bind_eq_some_iff] at ht
      obtain ⟨file, hf, ht⟩ := ht
      split at ht
      · next hs =>
        cases ht
        exact Or.inr (Or.inl ⟨e, he, file,
          scenarioOf_eq_some.mpr (Or.inr ⟨hgroup, hfile, hf, hs⟩), rfl⟩)
      · cases ht
  · rintro (hr | ⟨e, he, file, hsc, rfl⟩ | ⟨file, state, hs, _, rfl⟩)
    · exact Or.inl (Or.inr hr)
    · rcases scenarioOf_eq_some.mp hsc with ⟨state, hs, hid⟩ | ⟨hgroup, hfile, hf, hs⟩
      · have hg : ledger.get? (requirementIdForFile env.atMajor1 file) = some e :=
          LedgerRecords.get?_eq_some.mpr ⟨he, hid.symm⟩
        exact Or.inl (Or.inl (mem_fileRows.mpr ⟨file, state, hs, (fileRow_of_record state hg).symm⟩))
      · exact Or.inr ⟨e, he, (hids _).mpr ⟨hgroup, hfile⟩, by simp [testRow?, hf, hs]⟩
    · exact Or.inl (Or.inl (mem_fileRows.mpr ⟨file, state, hs, rfl⟩))

/-- The details of an unrecorded skipped file are not that of an unclassified return. -/
theorem skippedDetail_ne : ¬ (if ledgerPresent ledger = true then
    js "unclassified return: the file recorded no disposition — " ++
      js "RFC 0148 §A resolves it to blocked, never to a pass"
    else js "runner cannot classify a skipped file without a ledger; " ++
      js "RFC 0148 §A resolves an unclassifiable requirement to blocked") = unclassifiedReturnDetail := by
  split <;> (intro h; have hd := congrArg List.head? h; revert hd; decide)

/-- A counted file of a prefix is a witness of it. -/
theorem PrefixCounted.witnessed {p : JsString} (h : PrefixCounted env.atMajor1 report ledger p) :
    PrefixWitnessed env.atMajor1 report ledger claimedProfiles p := by
  obtain ⟨file, hs, hp, e, hg, hd, hc⟩ := h
  obtain ⟨state, hs⟩ := Option.isSome_iff_exists.mp hs
  obtain ⟨he, hid⟩ := LedgerRecords.get?_eq_some.mp hg
  have hsc : scenarioOf env.atMajor1 report claimedProfiles e = some file :=
    scenarioOf_eq_some.mpr (Or.inl ⟨state, hs, hid.symm⟩)
  exact ⟨e, ⟨he, by simp [hsc, hp]⟩, hd, hc⟩

theorem scenarioBasename_of_not_mem {file : JsString} (h : unit '/' ∉ file) :
    scenarioBasename file = file := by
  rw [scenarioBasename, splitOn_of_not_mem h]
  rfl

theorem slash_not_mem_of_get? {file : JsString} {state : ReportState}
    (h : report.get? file = some state) : unit '/' ∉ file :=
  report.basenames file (Map.get?_isSome_iff.mp (Option.isSome_of_eq_some h))

/-- No group row stands under a scenario of a prefix of the table. -/
theorem groupRow_not_matching {floor : ProfileFloor} (hf : floor ∈ tableFloors) {p : JsString}
    (hp : p ∈ floor.requiredAnyPrefix) {r : DerivedRequirement}
    (hr : r ∈ prefixRows env report ledger claimedProfiles ∨
      r ∈ anyOfRows env report ledger claimedProfiles)
    (hid : r.requirementId ≠ requirementIdForPrefix p) :
    startsWith (scenarioBasename r.scenarioId) p = false := by
  obtain rfl := eq_of_requiredAnyPrefix floor hf p hp
  rcases hr with hr | hr
  · obtain ⟨floor', hf', q, hq, rfl⟩ := mem_prefixRows.mp hr
    obtain rfl := eq_of_requiredAnyPrefix floor' (mem_claimedFloors hf') q hq
    exact absurd (prefixRow_requirementId ..) hid
  · obtain ⟨m, hm, rfl⟩ := List.mem_map.mp hr
    obtain ⟨_, floor', hf', hg⟩ := mem_anyOfGroups hm
    rw [anyOfRow_scenarioId, eq_of_requiredAnyOf floor' (mem_claimedFloors hf') m.2 hg]
    decide

/-- The scenario of a record is a reported file, and the record is no group's. -/
theorem of_scenarioOf {e : LedgerEntry} {file : JsString}
    (h : scenarioOf env report claimedProfiles e = some file) :
    (∃ state, report.get? file = some state) ∧
      e.requirementId ∉ (claimedFloors env claimedProfiles).flatMap ProfileFloor.groupIds := by
  rw [scenarioOf] at h
  split at h
  · cases h
  · next hid => exact ⟨Option.isSome_iff_exists.mp (Option.filter_eq_some_iff.mp h).2, hid⟩

/-- The rows the verifier reads a prefix from: the recorded rows under the prefix and the rows of
its unrecorded files. -/
theorem mem_matchingRows {floor : ProfileFloor}
    (hf : floor ∈ claimedFloors env.atMajor1 claimedProfiles) {p : JsString}
    (hp : p ∈ floor.requiredAnyPrefix) {b : BundleV2Requirement} :
    b ∈ matchingRows ((derivedRows env.atMajor1 report ledger claimedProfiles).map
        DerivedRequirement.toBundle) p ↔
      (∃ e file, UnderPrefix env.atMajor1 report ledger claimedProfiles p e ∧
        scenarioOf env.atMajor1 report claimedProfiles e = some file ∧
        b = (testRow e file).toBundle) ∨
      ∃ file state, report.get? file = some state ∧ startsWith file p = true ∧
        ledger.get? (requirementIdForFile env.atMajor1 file) = none ∧
        b = (fileRow env.atMajor1 ledger file state).toBundle := by
  have hmem : requirementIdForPrefix p ∈
      (claimedFloors env.atMajor1 claimedProfiles).flatMap ProfileFloor.groupIds :=
    List.mem_flatMap.mpr ⟨floor, hf, List.mem_append_left _ (List.mem_map_of_mem hp)⟩
  have hbase : ∀ {file state}, report.get? file = some state → scenarioBasename file = file :=
    fun hs => scenarioBasename_of_not_mem (slash_not_mem_of_get? hs)
  rw [matchingRows, List.mem_filter, List.mem_map]
  simp only [ne_eq, Bool.and_eq_true, decide_not, Bool.not_eq_true', decide_eq_false_iff_not]
  constructor
  · rintro ⟨⟨r, hr, rfl⟩, hs, hid⟩
    rcases mem_derivedRows_atMajor1.mp hr with hr | ⟨e, he, file, hsc, rfl⟩ |
      ⟨file, state, hfile, hg, rfl⟩
    · have hne := groupRow_not_matching (mem_claimedFloors hf) hp hr hid
      exact absurd (hs.symm.trans hne) (by decide)
    · obtain ⟨⟨state, hfile⟩, _⟩ := of_scenarioOf hsc
      have hs : startsWith (scenarioBasename file) p = true := hs
      rw [hbase hfile] at hs
      exact Or.inl ⟨e, file, ⟨he, by simp [hsc, hs]⟩, hsc, rfl⟩
    · have hs : startsWith (scenarioBasename (fileRow env.atMajor1 ledger file state).scenarioId) p =
        true := hs
      rw [fileRow_scenarioId, hbase hfile] at hs
      exact Or.inr ⟨file, state, hfile, hs, hg, rfl⟩
  · rintro (⟨e, file, ⟨he, hu⟩, hsc, rfl⟩ | ⟨file, state, hfile, hs, hg, rfl⟩)
    · obtain ⟨⟨state, hfile⟩, hid⟩ := of_scenarioOf hsc
      rw [hsc, Option.any_some] at hu
      refine ⟨⟨_, mem_derivedRows_atMajor1.mpr (Or.inr (Or.inl ⟨e, he, file, hsc, rfl⟩)), rfl⟩, ?_, ?_⟩
      · change startsWith (scenarioBasename file) p = true
        rwa [hbase hfile]
      · intro h
        have h : e.requirementId = _ := h
        exact hid (h ▸ hmem)
    · refine ⟨⟨_, mem_derivedRows_atMajor1.mpr (Or.inr (Or.inr ⟨file, state, hfile, hg, rfl⟩)), rfl⟩,
        ?_, ?_⟩
      · change startsWith (scenarioBasename (fileRow env.atMajor1 ledger file state).scenarioId) p =
          true
        rwa [fileRow_scenarioId, hbase hfile]
      · intro h
        have h : (fileRow env.atMajor1 ledger file state).requirementId = _ := h
        rw [fileRow_requirementId] at h
        exact requirementIdForFile_not_mem_groupIds env file (mem_claimedFloors hf)
          (h ▸ List.mem_append_left _ (List.mem_map_of_mem hp))

/-- The verifier's reading of a prefix: some record under it is a witness and nothing under it is
vacuous. -/
theorem prefixFinding_derived_iff {floor : ProfileFloor} {profile : JsString}
    (hf : floor ∈ claimedFloors env.atMajor1 claimedProfiles) {p : JsString}
    (hp : p ∈ floor.requiredAnyPrefix) :
    (prefixFinding ((derivedRows env.atMajor1 report ledger claimedProfiles).map
        DerivedRequirement.toBundle) profile p).2 = .met ↔
      PrefixWitnessed env.atMajor1 report ledger claimedProfiles p ∧
        ¬ PrefixVacuous env.atMajor1 report ledger claimedProfiles p := by
  set rows := (derivedRows env.atMajor1 report ledger claimedProfiles).map
    DerivedRequirement.toBundle with hrows
  have hread : ∀ Q : BundleV2Requirement → Prop, (∃ b ∈ matchingRows rows p, Q b) ↔
      (∃ e file, UnderPrefix env.atMajor1 report ledger claimedProfiles p e ∧
        scenarioOf env.atMajor1 report claimedProfiles e = some file ∧
        Q (testRow e file).toBundle) ∨
      ∃ file state, report.get? file = some state ∧ startsWith file p = true ∧
        ledger.get? (requirementIdForFile env.atMajor1 file) = none ∧
        Q (fileRow env.atMajor1 ledger file state).toBundle := fun Q => by
    simp only [hrows, mem_matchingRows hf hp]
    constructor
    · rintro ⟨b, (⟨e, file, hu, hsc, rfl⟩ | ⟨file, state, hs, hm, hg, rfl⟩), hq⟩
      · exact Or.inl ⟨e, file, hu, hsc, hq⟩
      · exact Or.inr ⟨file, state, hs, hm, hg, hq⟩
    · rintro (⟨e, file, hu, hsc, hq⟩ | ⟨file, state, hs, hm, hg, hq⟩)
      · exact ⟨_, Or.inl ⟨e, file, hu, hsc, rfl⟩, hq⟩
      · exact ⟨_, Or.inr ⟨file, state, hs, hm, hg, rfl⟩, hq⟩
  have hscenario : ∀ {e}, UnderPrefix env.atMajor1 report ledger claimedProfiles p e →
      ∃ file, scenarioOf env.atMajor1 report claimedProfiles e = some file := fun hu => by
    obtain ⟨file, hsc, _⟩ := (Option.any_eq_true ..).mp hu.2
    exact ⟨file, hsc⟩
  have hw : (∃ b ∈ matchingRows rows p, isWitnessedPass b = true) ↔
      PrefixWitnessed env.atMajor1 report ledger claimedProfiles p := by
    rw [hread, PrefixWitnessed]
    constructor
    · rintro (⟨e, file, hu, _, hq⟩ | ⟨file, state, _, _, hg, hq⟩)
      · exact ⟨e, hu, by simpa [testRow, DerivedRequirement.witnessed] using hq⟩
      · rw [isWitnessedPass_toBundle, fileRow_witnessed_iff, hg] at hq
        obtain ⟨_, hq, _⟩ := hq
        cases hq
    · rintro ⟨e, hu, hq⟩
      obtain ⟨file, hsc⟩ := hscenario hu
      exact Or.inl ⟨e, file, hu, hsc, by simpa [testRow, DerivedRequirement.witnessed] using hq⟩
  have hv : (∃ b ∈ matchingRows rows p, isVacuousRow b = true) ↔
      PrefixVacuous env.atMajor1 report ledger claimedProfiles p := by
    have htest : ∀ e file, isVacuousRow (testRow e file).toBundle = true ↔
        ((e.disposition = .executedPass ∧ e.assertionCount.getD 0 = 0) ∨
          (e.disposition = .blocked ∧ e.detail = some unclassifiedReturnDetail)) := fun e file => by
      cases hd : e.disposition <;>
        simp [isVacuousRow, testRow, DerivedRequirement.witnessed, hd]
    have hfile : ∀ file state, ledger.get? (requirementIdForFile env.atMajor1 file) = none →
        (isVacuousRow (fileRow env.atMajor1 ledger file state).toBundle = true ↔
          state = .passed) := fun file state hg => by
      cases state with
      | passed => simp [isVacuousRow, fileRow, hg, DerivedRequirement.witnessed]
      | failed => simp [isVacuousRow, fileRow, hg]
      | skipped => simp [isVacuousRow, fileRow, hg, skippedDetail_ne]
    rw [hread, PrefixVacuous]
    refine or_congr ⟨?_, ?_⟩ ⟨?_, ?_⟩
    · rintro ⟨e, file, hu, _, hq⟩
      exact ⟨e, hu, (htest e file).mp hq⟩
    · rintro ⟨e, hu, hq⟩
      obtain ⟨file, hsc⟩ := hscenario hu
      exact ⟨e, file, hu, hsc, (htest e file).mpr hq⟩
    · rintro ⟨file, state, hs, hm, hg, hq⟩
      obtain rfl := (hfile file state hg).mp hq
      exact ⟨file, hs, hm, hg⟩
    · rintro ⟨file, hs, hm, hg⟩
      exact ⟨file, .passed, hs, hm, hg, (hfile file .passed hg).mpr rfl⟩
  have hconsidered : matchingRows rows p = [] → ¬ ∃ b ∈ consideredRows rows p,
      isWitnessedPass b = true := by
    intro hnil
    rw [consideredRows, hnil, hrows, firstRow_toBundle nodup_derivedRows, rowById_prefixGroup hf hp]
    rintro ⟨b, hb, hq⟩
    obtain rfl : b = _ := by simpa using hb
    rw [isWitnessedPass_toBundle, prefix_witnessed_iff] at hq
    obtain ⟨b, hb, _⟩ := hw.mpr hq.witnessed
    rw [hnil] at hb
    cases hb
  rw [prefixFinding_met_iff, ← hw, ← hv]
  by_cases hnil : matchingRows rows p = []
  · refine iff_of_false (fun h => hconsidered hnil h.1) fun h => ?_
    rw [hnil] at h
    obtain ⟨⟨b, hb, _⟩, _⟩ := h
    cases hb
  · have hc : consideredRows rows p = matchingRows rows p := by
      rw [consideredRows, if_pos (List.length_pos_of_ne_nil hnil)]
    simp [hc]

end Prefixes

end OpenWop.Certification
