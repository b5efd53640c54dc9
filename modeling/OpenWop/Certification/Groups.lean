import OpenWop.Certification.Rows

/-!
# Every row of a derivation

The rows of a derivation have distinct requirement ids: the scenario files, the
prefix and any-of groups of the claimed floors, and the recorded requirements that
are neither. At major 1 the hand table decides the groups.
-/

namespace OpenWop.Certification

open OpenWop.Js OpenWop.Ledger

/-- The environment of a run at major 1, where the hand table gives the floors. -/
def Env.atMajor1 (env : Env) : Env := { env with targetsMajor2 := false, v2Floors := none }

@[simp] theorem v2FloorsActive_atMajor1 (env : Env) : env.atMajor1.v2FloorsActive = false := rfl

/-- The floors of the hand table. -/
def tableFloors : List ProfileFloor := Record.values profileFloorScenarios

/-- The ids of a floor's groups. -/
def ProfileFloor.groupIds (floor : ProfileFloor) : List JsString :=
  floor.requiredAnyPrefix.map requirementIdForPrefix ++ floor.requiredAnyOf.map requirementIdForAnyOf

section Table

theorem mem_tableFloors {profile : JsString} {floor : ProfileFloor} (h : floorOf profile = some floor) :
    floor ∈ tableFloors :=
  List.mem_map_of_mem (f := Prod.snd) (Record.mem_of_get? h)

@[simp] theorem floorScenarioFiles_atMajor1 (env : Env) :
    floorScenarioFiles env.atMajor1 = tableFloors.flatMap floorMemberFiles := by
  simp [floorScenarioFiles, tableFloors, show env.atMajor1.targetsMajor2 = false from rfl]

/-- The table has one prefix. -/
theorem eq_of_requiredAnyPrefix : ∀ floor ∈ tableFloors, ∀ p ∈ floor.requiredAnyPrefix,
    p = js "interrupt-" := by
  decide

/-- The table has one any-of group. -/
theorem eq_of_requiredAnyOf : ∀ floor ∈ tableFloors, ∀ g ∈ floor.requiredAnyOf,
    g = [js "byok-roundtrip.test.ts", js "secrets-run-witness.test.ts"] := by
  decide

/-- A floor with an any-of group has nothing else. -/
theorem of_requiredAnyOf : ∀ floor ∈ tableFloors, floor.requiredAnyOf ≠ [] →
    floor.required = [] ∧ floor.conditional = [] ∧ floor.requiredAnyPrefix = [] ∧
      floor.runtimeDerived = false := by
  decide

/-- A runtime-derived floor has files only. -/
theorem of_runtimeDerived : ∀ floor ∈ tableFloors, floor.runtimeDerived = true →
    floor.discoveryOnly = false ∧ floor.requiredAnyPrefix = [] := by
  decide

/-- A floor that certifies on discovery alone is empty. -/
theorem of_discoveryOnly : ∀ floor ∈ tableFloors, floor.discoveryOnly = true →
    floor.required = [] ∧ floor.conditional = [] ∧ floor.requiredAnyPrefix = [] ∧
      floor.requiredAnyOf = [] := by
  decide

/-- The files of the table. -/
theorem tableFiles_eq : tableFloors.flatMap floorMemberFiles =
    [js "runs-lifecycle.test.ts", js "discovery.test.ts", js "auth.test.ts",
      js "eventOrdering.test.ts", js "failure-path.test.ts", js "idempotency.test.ts",
      js "idempotency-key-determinism.test.ts", js "webhook-negative.test.ts",
      js "stream-modes.test.ts", js "stream-modes-buffer.test.ts",
      js "stream-modes-mixed.test.ts", js "stream-modes.test.ts", js "pack-registry.test.ts",
      js "pack-registry-publish.test.ts", js "interrupt-clarification.test.ts",
      js "byok-roundtrip.test.ts", js "secrets-run-witness.test.ts", js "policies.test.ts",
      js "providerPolicyEnforcement.test.ts", js "memory-capability-model-shape.test.ts",
      js "memory-attribution-shape.test.ts", js "memory-attribution-emits-on-write.test.ts",
      js "memory-degraded-projection.test.ts", js "trigger-bridge-shape.test.ts",
      js "trigger-bridge-delivery.test.ts", js "agent-platform-aggregate-evidence.test.ts",
      js "agent-manifest-runtime.test.ts", js "agent-live-runtime-shape.test.ts",
      js "tool-descriptor-shape.test.ts", js "tool-hooks-shape.test.ts",
      js "safefetch-behavior.test.ts", js "provider-usage.test.ts",
      js "prompt-list-and-fetch.test.ts", js "memory-capability-model-shape.test.ts",
      js "feedback-capability-shape.test.ts", js "replayDeterminism.test.ts",
      js "replayDeterminism.test.ts", js "replay-side-effect-suppression.test.ts",
      js "replay-fork.test.ts"] := by
  rfl

/-- The files of the table are base names of scenario files, and read as no group. -/
theorem of_mem_tableFiles : ∀ file ∈ tableFloors.flatMap floorMemberFiles,
    endsWith file (js ".test.ts") = true ∧ unit '/' ∉ file ∧
      startsWith file (js "anyof:") = false := by
  rw [tableFiles_eq]
  apply forall_mem_of_eq
  · repeat apply js_cons_eq rfl
    rfl
  · decide +kernel

/-- No file of the table records under the id of a group. -/
theorem not_mem_groupIds_of_mem_tableFiles : ∀ file ∈ tableFloors.flatMap floorMemberFiles,
    requirementIdForScenario file ∉ tableFloors.flatMap ProfileFloor.groupIds := by
  rw [tableFiles_eq]
  apply forall_mem_of_eq
  · repeat apply js_cons_eq rfl
    rfl
  · decide +kernel

theorem prefix_ne_anyOf (p : JsString) (g : List JsString) :
    requirementIdForPrefix p ≠ requirementIdForAnyOf g := by
  intro h
  have h17 := congrArg (fun s : JsString => s[17]?) h
  rw [requirementIdForPrefix, requirementIdForAnyOf, List.getElem?_append_left (by decide),
    List.getElem?_append_left (by decide)] at h17
  revert h17
  decide

/-- At major 1 no scenario file records under the id of a group. -/
theorem requirementIdForFile_not_mem_groupIds (env : Env) (file : JsString) {floor : ProfileFloor}
    (hf : floor ∈ tableFloors) : requirementIdForFile env.atMajor1 file ∉ floor.groupIds := by
  rw [requirementIdForFile, floorScenarioFiles_atMajor1]
  split
  · next hm =>
    exact fun h => not_mem_groupIds_of_mem_tableFiles file hm (List.mem_flatMap.mpr ⟨floor, hf, h⟩)
  · rw [ProfileFloor.groupIds, List.mem_append, List.mem_map, List.mem_map]
    rintro (⟨p, _, h⟩ | ⟨g, _, h⟩)
    · exact floor_ne_scenario (js "any." ++ p) _ (by simpa [requirementIdForPrefix, js] using h)
    · exact floor_ne_scenario (js "anyof." ++ _) _ (by simpa [requirementIdForAnyOf, js] using h)

end Table

section Rows

variable {env : Env} {report : Report} {ledger : LedgerRecords} {claimedProfiles : List JsString}

theorem rowById_append (rows rows' : List DerivedRequirement) (id : JsString) :
    rowById (rows ++ rows') id = (rowById rows' id).or (rowById rows id) := by
  rw [rowById, List.filter_append, List.getLast?_append, rowById, rowById]

variable (env report ledger claimedProfiles) in
/-- The rows of the files and the groups. -/
def baseRows : List DerivedRequirement :=
  fileRows env report ledger ++ prefixRows env report ledger claimedProfiles ++
    anyOfRows env report ledger claimedProfiles

/-- The rows of the records, in terms of the rows before them. -/
theorem mem_foldl_addTestRow {entries : List LedgerEntry}
    (hn : (entries.map LedgerEntry.requirementId).Nodup) (rows : List DerivedRequirement)
    (r : DerivedRequirement) : r ∈ entries.foldl (addTestRow report) rows ↔ r ∈ rows ∨
      ∃ e ∈ entries, e.requirementId ∉ rows.map DerivedRequirement.requirementId ∧
        testRow? report e = some r := by
  induction entries generalizing rows with
  | nil => simp
  | cons e entries ih =>
    rw [List.map_cons, List.nodup_cons] at hn
    have hids : ∀ f ∈ entries,
        (f.requirementId ∉ (addTestRow report rows e).map DerivedRequirement.requirementId ↔
          f.requirementId ∉ rows.map DerivedRequirement.requirementId) := fun f hf => by
      have hne : e.requirementId ≠ f.requirementId := fun he =>
        hn.1 (he ▸ List.mem_map_of_mem (f := LedgerEntry.requirementId) hf)
      rw [← rowById_eq_none_iff, ← rowById_eq_none_iff, rowById_addTestRow_of_ne hne]
    have hmem : r ∈ addTestRow report rows e ↔ r ∈ rows ∨
        (e.requirementId ∉ rows.map DerivedRequirement.requirementId ∧
          testRow? report e = some r) := by
      rw [addTestRow_eq]
      split
      · next hm => simp [hm]
      · next hm => simp [hm, Option.mem_toList]
    rw [List.foldl_cons, ih hn.2, hmem, List.exists_mem_cons_iff, or_assoc]
    refine or_congr_right (or_congr_right (exists_congr fun f => and_congr_right fun hf => ?_))
    rw [hids f hf]

/-- Adding rows of records keeps the ids distinct. -/
theorem nodup_foldl_addTestRow (entries : List LedgerEntry) {rows : List DerivedRequirement}
    (hn : (rows.map DerivedRequirement.requirementId).Nodup) :
    ((entries.foldl (addTestRow report) rows).map DerivedRequirement.requirementId).Nodup := by
  induction entries generalizing rows with
  | nil => exact hn
  | cons e entries ih =>
    refine ih ?_
    rw [addTestRow_eq]
    split
    · exact hn
    · next hm =>
      rcases hr : testRow? report e with _ | r
      · simpa using hn
      · rw [Option.toList_some, List.map_append, List.map_singleton, testRow?_requirementId hr]
        refine List.nodup_append.mpr ⟨hn, List.nodup_singleton _, fun a ha b hb => ?_⟩
        rintro rfl
        exact hm (List.mem_singleton.mp hb ▸ ha)

/-- The rows of a derivation. -/
theorem mem_derivedRows {r : DerivedRequirement} :
    r ∈ derivedRows env report ledger claimedProfiles ↔
      r ∈ baseRows env report ledger claimedProfiles ∨ ∃ e ∈ ledger.entries,
        e.requirementId ∉ (baseRows env report ledger claimedProfiles).map
          DerivedRequirement.requirementId ∧ testRow? report e = some r := by
  have hp := sortBy_perm (env.collation.on LedgerEntry.requirementId) ledger.entries
  rw [derivedRows, mem_foldl_addTestRow ((hp.map LedgerEntry.requirementId).nodup_iff.mpr ledger.nodup)]
  refine or_congr_right (exists_congr fun e => ?_)
  rw [hp.mem_iff, baseRows]

end Rows

section Groups

variable {env : Env} {report : Report} {ledger : LedgerRecords} {claimedProfiles : List JsString}

theorem mem_claimedFloors {floor : ProfileFloor} (h : floor ∈ claimedFloors env claimedProfiles) :
    floor ∈ tableFloors := by
  rw [claimedFloors] at h
  split at h
  · cases h
  · obtain ⟨m, hm, rfl⟩ := List.mem_map.mp h
    exact List.mem_map_of_mem (f := Prod.snd) (List.mem_of_mem_filter hm)

/-- The prefix rows are those of the prefixes of the claimed floors. -/
theorem mem_prefixRows {r : DerivedRequirement} : r ∈ prefixRows env report ledger claimedProfiles ↔
    ∃ floor ∈ claimedFloors env claimedProfiles, ∃ p ∈ floor.requiredAnyPrefix,
      r = prefixRow p (prefixMatching env report ledger p) := by
  simp only [prefixRows, prefixIds, List.mem_map, mem_sortBy, mem_uniq, List.mem_flatMap]
  constructor
  · rintro ⟨p, ⟨floor, hf, hp⟩, rfl⟩
    exact ⟨floor, hf, p, hp, rfl⟩
  · rintro ⟨floor, hf, p, hp, rfl⟩
    exact ⟨p, ⟨floor, hf, hp⟩, rfl⟩

/-- The any-of groups are those of the claimed floors, under their ids. -/
theorem mem_anyOfGroups {m : JsString × List JsString} (h : m ∈ anyOfGroups env claimedProfiles) :
    m.1 = requirementIdForAnyOf m.2 ∧
      ∃ floor ∈ claimedFloors env claimedProfiles, m.2 ∈ floor.requiredAnyOf := by
  rw [anyOfGroups, mem_sortBy, Map.mem_entries_iff, Map.get?_foldl_set, Map.get?_empty,
    Option.or_none] at h
  have hm := List.mem_filter.mp (List.mem_of_getLast? h)
  exact ⟨(of_decide_eq_true hm.2).symm, List.mem_flatMap.mp hm.1⟩

/-- Every any-of group of a claimed floor has an entry. -/
theorem exists_mem_anyOfGroups {floor : ProfileFloor} (hf : floor ∈ claimedFloors env claimedProfiles)
    {g : List JsString} (hg : g ∈ floor.requiredAnyOf) :
    ∃ m ∈ anyOfGroups env claimedProfiles, m.1 = requirementIdForAnyOf g := by
  have hne : (((claimedFloors env claimedProfiles).flatMap ProfileFloor.requiredAnyOf).filter fun v =>
      requirementIdForAnyOf v = requirementIdForAnyOf g) ≠ [] :=
    List.ne_nil_of_mem (List.mem_filter.mpr ⟨List.mem_flatMap.mpr ⟨floor, hf, hg⟩, by simp⟩)
  refine ⟨(requirementIdForAnyOf g, List.getLast _ hne), ?_, rfl⟩
  rw [anyOfGroups, mem_sortBy, Map.mem_entries_iff, Map.get?_foldl_set, Map.get?_empty,
    Option.or_none]
  exact List.getLast?_eq_some_getLast hne

@[simp] theorem prefixRow_requirementId (p : JsString) (matching : List DerivedRequirement) :
    (prefixRow p matching).requirementId = requirementIdForPrefix p := by
  unfold prefixRow
  dsimp only
  split_ifs <;> rfl

@[simp] theorem prefixRow_scenarioId (p : JsString) (matching : List DerivedRequirement) :
    (prefixRow p matching).scenarioId = p ++ js "*" := by
  unfold prefixRow
  dsimp only
  split_ifs <;> rfl

@[simp] theorem anyOfRow_requirementId (id : JsString) (members : List JsString)
    (matching : List DerivedRequirement) : (anyOfRow id members matching).requirementId = id := by
  unfold anyOfRow
  dsimp only
  split_ifs <;> rfl

@[simp] theorem anyOfRow_scenarioId (id : JsString) (members : List JsString)
    (matching : List DerivedRequirement) :
    (anyOfRow id members matching).scenarioId = js "anyof:" ++ join (js "|") members := by
  unfold anyOfRow
  dsimp only
  split_ifs <;> rfl

/-- The ids of the group rows. -/
theorem groupRows_requirementId {r : DerivedRequirement}
    (h : r ∈ prefixRows env report ledger claimedProfiles ∨
      r ∈ anyOfRows env report ledger claimedProfiles) :
    ∃ floor ∈ claimedFloors env claimedProfiles, r.requirementId ∈ floor.groupIds := by
  rcases h with h | h
  · obtain ⟨floor, hf, p, hp, rfl⟩ := mem_prefixRows.mp h
    exact ⟨floor, hf, List.mem_append_left _
      (by simpa using List.mem_map_of_mem (f := requirementIdForPrefix) hp)⟩
  · obtain ⟨m, hm, rfl⟩ := List.mem_map.mp h
    obtain ⟨hid, floor, hf, hg⟩ := mem_anyOfGroups hm
    exact ⟨floor, hf, List.mem_append_right _
      (by simpa [hid] using List.mem_map_of_mem (f := requirementIdForAnyOf) hg)⟩

theorem nodup_prefixRows : ((prefixRows env report ledger claimedProfiles).map
    DerivedRequirement.requirementId).Nodup := by
  have hids : (prefixRows env report ledger claimedProfiles).map DerivedRequirement.requirementId =
      (prefixIds env claimedProfiles).map requirementIdForPrefix := by
    simp [prefixRows, Function.comp_def]
  rw [hids]
  refine List.Nodup.map (fun p q h => List.append_cancel_left h) ?_
  exact (sortBy_perm ..).nodup_iff.mpr (nodup_uniq _)

theorem nodup_anyOfRows : ((anyOfRows env report ledger claimedProfiles).map
    DerivedRequirement.requirementId).Nodup := by
  have hids : (anyOfRows env report ledger claimedProfiles).map DerivedRequirement.requirementId =
      (anyOfGroups env claimedProfiles).map Prod.fst := by
    simp [anyOfRows, Function.comp_def]
  rw [hids, anyOfGroups, ((sortBy_perm ..).map Prod.fst).nodup_iff]
  exact Map.nodup _

end Groups

section AtMajor1

variable {env : Env} {report : Report} {ledger : LedgerRecords} {claimedProfiles : List JsString}

/-- A group row and a file row have distinct ids. -/
theorem requirementId_ne_of_mem_groupRows {r : DerivedRequirement}
    (h : r ∈ prefixRows env.atMajor1 report ledger claimedProfiles ∨
      r ∈ anyOfRows env.atMajor1 report ledger claimedProfiles) (file : JsString) :
    requirementIdForFile env.atMajor1 file ≠ r.requirementId := by
  intro he
  obtain ⟨floor, hf, hid⟩ := groupRows_requirementId h
  exact requirementIdForFile_not_mem_groupIds env file (mem_claimedFloors hf) (he ▸ hid)

/-- At major 1 the file and group rows have distinct ids. -/
theorem nodup_baseRows : ((baseRows env.atMajor1 report ledger claimedProfiles).map
    DerivedRequirement.requirementId).Nodup := by
  rw [baseRows, List.map_append, List.map_append]
  refine List.nodup_append.mpr
    ⟨List.nodup_append.mpr ⟨nodup_fileRows, nodup_prefixRows, ?_⟩, nodup_anyOfRows, ?_⟩
  · intro a ha b hb
    obtain ⟨r, hr, rfl⟩ := List.mem_map.mp ha
    obtain ⟨q, hq, rfl⟩ := List.mem_map.mp hb
    obtain ⟨file, state, _, rfl⟩ := mem_fileRows.mp hr
    simpa using requirementId_ne_of_mem_groupRows (Or.inl hq) file
  · intro a ha b hb
    obtain ⟨q, hq, rfl⟩ := List.mem_map.mp hb
    rcases List.mem_append.mp ha with ha | ha
    · obtain ⟨r, hr, rfl⟩ := List.mem_map.mp ha
      obtain ⟨file, state, _, rfl⟩ := mem_fileRows.mp hr
      simpa using requirementId_ne_of_mem_groupRows (Or.inr hq) file
    · obtain ⟨r, hr, rfl⟩ := List.mem_map.mp ha
      obtain ⟨_, _, p, _, rfl⟩ := mem_prefixRows.mp hr
      obtain ⟨m, hm, rfl⟩ := List.mem_map.mp hq
      rw [prefixRow_requirementId, anyOfRow_requirementId, (mem_anyOfGroups hm).1]
      exact prefix_ne_anyOf p m.2

/-- At major 1 the rows of a derivation have distinct ids. -/
theorem nodup_derivedRows : ((derivedRows env.atMajor1 report ledger claimedProfiles).map
    DerivedRequirement.requirementId).Nodup :=
  nodup_foldl_addTestRow _ nodup_baseRows

/-- A file or group row is the row of its requirement. -/
theorem rowById_of_mem_baseRows {r : DerivedRequirement}
    (h : r ∈ baseRows env.atMajor1 report ledger claimedProfiles) :
    rowById (derivedRows env.atMajor1 report ledger claimedProfiles) r.requirementId = some r :=
  rowById_of_mem nodup_derivedRows (mem_derivedRows.mpr (Or.inl h))

/-- A requirement that is no group has its own row. -/
theorem rowById_derivedRows_of_not_group {id : JsString}
    (h : ∀ floor ∈ claimedFloors env claimedProfiles, id ∉ floor.groupIds) :
    rowById (derivedRows env report ledger claimedProfiles) id = ownRow env report ledger id := by
  have hnone : ∀ {rows : List DerivedRequirement},
      (∀ r ∈ rows, r ∈ prefixRows env report ledger claimedProfiles ∨
        r ∈ anyOfRows env report ledger claimedProfiles) → rowById rows id = none := by
    intro rows hrows
    refine rowById_eq_none_iff.mpr fun hid => ?_
    obtain ⟨r, hr, rfl⟩ := List.mem_map.mp hid
    obtain ⟨floor, hf, hg⟩ := groupRows_requirementId (hrows r hr)
    exact h floor hf hg
  rw [rowById_derivedRows, ownRow, rowById_append, rowById_append, hnone fun r hr => Or.inr hr,
    hnone fun r hr => Or.inl hr, Option.none_or, Option.none_or]

/-- A claimed profile with a floor that has groups has that floor among the claimed ones. -/
theorem mem_claimedFloors_of_claimed {profile : JsString} (hc : profile ∈ claimedProfiles)
    {floor : ProfileFloor} (hf : floorOf profile = some floor) (hg : floor.groupIds ≠ []) :
    floor ∈ claimedFloors env.atMajor1 claimedProfiles := by
  have hu : undeprecated profile = profile := by
    rw [undeprecated, if_neg]
    rintro rfl
    have he : floorOf (js "openwop-core") = some { required := [], discoveryOnly := true } := by
      decide
    rw [he] at hf
    cases hf
    exact hg rfl
  rw [claimedFloors, if_neg (by simp)]
  refine List.mem_map.mpr ⟨(profile, floor), List.mem_filter.mpr ⟨Record.mem_of_get? hf, ?_⟩, rfl⟩
  exact decide_eq_true (List.mem_map.mpr ⟨profile, hc, hu⟩)

/-- The summary row of a prefix of a claimed floor. -/
theorem rowById_prefixGroup {floor : ProfileFloor}
    (hf : floor ∈ claimedFloors env.atMajor1 claimedProfiles) {p : JsString}
    (hp : p ∈ floor.requiredAnyPrefix) :
    rowById (derivedRows env.atMajor1 report ledger claimedProfiles) (requirementIdForPrefix p) =
      some (prefixRow p (prefixMatching env.atMajor1 report ledger p)) := by
  have hm := @rowById_of_mem_baseRows env report ledger claimedProfiles
    (prefixRow p (prefixMatching env.atMajor1 report ledger p))
    (List.mem_append_left _ (List.mem_append_right _ (mem_prefixRows.mpr ⟨floor, hf, p, hp, rfl⟩)))
  rwa [prefixRow_requirementId] at hm

/-- The summary row of an any-of group of a claimed floor. -/
theorem rowById_anyOf {floor : ProfileFloor}
    (hf : floor ∈ claimedFloors env.atMajor1 claimedProfiles) {g : List JsString}
    (hg : g ∈ floor.requiredAnyOf) : ∃ members matching,
    rowById (derivedRows env.atMajor1 report ledger claimedProfiles) (requirementIdForAnyOf g) =
      some (anyOfRow (requirementIdForAnyOf g) members matching) := by
  obtain ⟨m, hm, hid⟩ := exists_mem_anyOfGroups hf hg
  refine ⟨m.2, m.2.filterMap (perFile? env.atMajor1 report ledger), ?_⟩
  have hr := @rowById_of_mem_baseRows env report ledger claimedProfiles _
    (List.mem_append_right _ (List.mem_map_of_mem (f := fun g : JsString × List JsString =>
      anyOfRow g.1 g.2 (g.2.filterMap (perFile? env.atMajor1 report ledger))) hm))
  simpa [hid] using hr

end AtMajor1

end OpenWop.Certification
