import OpenWop.Certification.Derive

/-!
# The row of a requirement

What the derivation's row of a requirement says, read off the inputs. Scenario
files record under distinct ids, so a requirement that a reported file records under
has that file's row; any other recorded requirement has a row of its own when its
record is attributed to a reported file.
-/

namespace OpenWop.Certification

open OpenWop.Js OpenWop.Ledger

section Ids

/-- Scenario files with the same stem are the same file. -/
theorem fileStem_injective {f g : JsString} (hf : endsWith f (js ".test.ts") = true)
    (hg : endsWith g (js ".test.ts") = true) (h : fileStem f = fileStem g) : f = g := by
  rw [← dropSuffix_append hf, ← dropSuffix_append hg]
  exact congrArg (· ++ js ".test.ts") h

theorem floor_ne_scenario (a b : JsString) :
    js "openwop.floor." ++ a ≠ js "openwop.scenario." ++ b := by
  intro h
  have h8 := congrArg (fun s : JsString => s[8]?) h
  rw [List.getElem?_append_left (by decide), List.getElem?_append_left (by decide)] at h8
  revert h8
  decide

/-- Distinct scenario files record under distinct ids. -/
theorem requirementIdForFile_injective {env : Env} {f g : JsString}
    (hf : endsWith f (js ".test.ts") = true) (hg : endsWith g (js ".test.ts") = true)
    (h : requirementIdForFile env f = requirementIdForFile env g) : f = g := by
  rw [requirementIdForFile, requirementIdForFile, requirementIdForScenario,
    requirementIdForScenario] at h
  split at h
  · split at h
    · exact fileStem_injective hf hg (List.append_cancel_left h)
    · exact absurd h (floor_ne_scenario _ _)
  · split at h
    · exact absurd h.symm (floor_ne_scenario _ _)
    · exact fileStem_injective hf hg (List.append_cancel_left h)

end Ids

section RowById

variable {rows : List DerivedRequirement} {id : JsString} {r : DerivedRequirement}

theorem rowById_append_singleton : rowById (rows ++ [r]) id =
    if r.requirementId = id then some r else rowById rows id := by
  rw [rowById, List.filter_append]
  by_cases h : r.requirementId = id
  · simp [h]
  · simp [h, rowById]

theorem mem_of_rowById (h : rowById rows id = some r) : r ∈ rows ∧ r.requirementId = id := by
  have hm := List.mem_of_getLast? h
  simpa using hm

theorem rowById_eq_none_iff : rowById rows id = none ↔ id ∉ rows.map DerivedRequirement.requirementId := by
  rw [rowById, List.getLast?_eq_none_iff, List.filter_eq_nil_iff, List.mem_map]
  simp

/-- Under distinct ids a row is the row of its requirement. -/
theorem rowById_of_mem (hn : (rows.map DerivedRequirement.requirementId).Nodup) (h : r ∈ rows) :
    rowById rows r.requirementId = some r := by
  rcases hr : rowById rows r.requirementId with _ | r'
  · exact absurd (List.mem_map_of_mem h) (rowById_eq_none_iff.mp hr)
  · obtain ⟨hm, he⟩ := mem_of_rowById hr
    rw [List.inj_on_of_nodup_map hn hm h he]

end RowById

section TestRows

variable {report : Report}

/-- The record is attributed to a reported file. -/
def isAttributed (report : Report) (e : LedgerEntry) : Bool :=
  (attributedFile e).any fun file => (report.get? file).isSome

/-- The row of a record, when it is attributed to a reported file. -/
def testRow? (report : Report) (e : LedgerEntry) : Option DerivedRequirement :=
  (attributedFile e).bind fun file => if (report.get? file).isSome then some (testRow e file) else none

theorem addTestRow_eq (rows : List DerivedRequirement) (e : LedgerEntry) :
    addTestRow report rows e =
      if e.requirementId ∈ rows.map DerivedRequirement.requirementId then rows
      else rows ++ (testRow? report e).toList := by
  rw [addTestRow, testRow?]
  rcases attributedFile e with _ | file
  · simp
  · by_cases hm : e.requirementId ∈ rows.map DerivedRequirement.requirementId
    · simp [hm]
    · by_cases hs : (report.get? file).isSome = true
      · simp [hm, hs]
      · simp [hm, hs]

theorem testRow?_requirementId {e : LedgerEntry} {r : DerivedRequirement}
    (h : testRow? report e = some r) : r.requirementId = e.requirementId := by
  rw [testRow?, Option.bind_eq_some_iff] at h
  obtain ⟨file, _, h⟩ := h
  split at h
  · cases h
    rfl
  · cases h

theorem rowById_addTestRow_of_ne {rows : List DerivedRequirement} {e : LedgerEntry} {id : JsString}
    (h : e.requirementId ≠ id) : rowById (addTestRow report rows e) id = rowById rows id := by
  rw [addTestRow_eq]
  split
  · rfl
  · rcases hr : testRow? report e with _ | r
    · simp
    · rw [Option.toList_some, rowById_append_singleton, testRow?_requirementId hr, if_neg h]

theorem rowById_addTestRow_self {rows : List DerivedRequirement} {e : LedgerEntry} :
    rowById (addTestRow report rows e) e.requirementId =
      (rowById rows e.requirementId).or (testRow? report e) := by
  rw [addTestRow_eq]
  split
  · next hm =>
    rcases hr : rowById rows e.requirementId with _ | r
    · exact absurd hm (rowById_eq_none_iff.mp hr)
    · simp
  · next hm =>
    rw [rowById_eq_none_iff.mpr hm, Option.none_or]
    rcases hr : testRow? report e with _ | r
    · rw [Option.toList_none, List.append_nil, rowById_eq_none_iff.mpr hm]
    · rw [Option.toList_some, rowById_append_singleton, testRow?_requirementId hr, if_pos rfl]

/-- The rows of the records add a row for a requirement that had none. -/
theorem rowById_foldl_addTestRow {entries : List LedgerEntry}
    (hn : (entries.map LedgerEntry.requirementId).Nodup) (rows : List DerivedRequirement)
    (id : JsString) :
    rowById (entries.foldl (addTestRow report) rows) id =
      (rowById rows id).or
        ((entries.find? fun e => e.requirementId = id).bind (testRow? report)) := by
  induction entries generalizing rows with
  | nil => simp
  | cons e entries ih =>
    rw [List.map_cons, List.nodup_cons] at hn
    rw [List.foldl_cons, ih hn.2]
    by_cases h : e.requirementId = id
    · subst h
      have hnone : entries.find? (fun f => f.requirementId = e.requirementId) = none := by
        rw [List.find?_eq_none]
        intro f hf he
        exact hn.1 (List.mem_map.mpr ⟨f, hf, by simpa using he⟩)
      rw [rowById_addTestRow_self, hnone]
      simp
    · rw [rowById_addTestRow_of_ne h]
      simp [h]

end TestRows

section FileRows

variable {env : Env} {report : Report} {ledger : LedgerRecords}

@[simp] theorem fileRow_requirementId (file : JsString) (state : ReportState) :
    (fileRow env ledger file state).requirementId = requirementIdForFile env file := by
  unfold fileRow
  dsimp only
  split
  · rfl
  · split <;> rfl

@[simp] theorem fileRow_scenarioId (file : JsString) (state : ReportState) :
    (fileRow env ledger file state).scenarioId = file := by
  unfold fileRow
  dsimp only
  split
  · rfl
  · split <;> rfl

theorem mem_reportedFiles {f : JsString × ReportState} :
    f ∈ reportedFiles env report ↔ report.get? f.1 = some f.2 := by
  rw [reportedFiles, mem_sortBy, Report.get?, ← Map.mem_entries_iff]

theorem endsWith_of_get? {file : JsString} {state : ReportState}
    (h : report.get? file = some state) : endsWith file (js ".test.ts") = true :=
  report.scenarios file (Map.get?_isSome_iff.mp (Option.isSome_of_eq_some h))

theorem mem_fileRows {r : DerivedRequirement} : r ∈ fileRows env report ledger ↔
    ∃ file state, report.get? file = some state ∧ r = fileRow env ledger file state := by
  rw [fileRows, List.mem_map]
  constructor
  · rintro ⟨f, hf, rfl⟩
    exact ⟨f.1, f.2, mem_reportedFiles.mp hf, rfl⟩
  · rintro ⟨file, state, hf, rfl⟩
    exact ⟨(file, state), mem_reportedFiles.mpr hf, rfl⟩

/-- The reported files record under distinct ids. -/
theorem nodup_fileRows :
    ((fileRows env report ledger).map DerivedRequirement.requirementId).Nodup := by
  have hperm := (sortBy_perm (env.collation.on Prod.fst) report.states.entries).map Prod.fst
  have hkeys : ((reportedFiles env report).map Prod.fst).Nodup := hperm.nodup_iff.mpr report.states.nodup
  have hids : (fileRows env report ledger).map DerivedRequirement.requirementId =
      ((reportedFiles env report).map Prod.fst).map (requirementIdForFile env) := by
    simp [fileRows, Function.comp_def]
  rw [hids]
  refine hkeys.map_on fun f hf g hg he => ?_
  obtain ⟨m, hm, rfl⟩ := List.mem_map.mp hf
  obtain ⟨n, hn, rfl⟩ := List.mem_map.mp hg
  exact requirementIdForFile_injective (endsWith_of_get? (mem_reportedFiles.mp hm))
    (endsWith_of_get? (mem_reportedFiles.mp hn)) he

/-- The row of a requirement among the file rows is that of the file recording it. -/
theorem rowById_fileRows {id : JsString} {r : DerivedRequirement} :
    rowById (fileRows env report ledger) id = some r ↔ ∃ file state,
      report.get? file = some state ∧ requirementIdForFile env file = id ∧
        r = fileRow env ledger file state := by
  constructor
  · intro h
    obtain ⟨hm, hid⟩ := mem_of_rowById h
    obtain ⟨file, state, hf, rfl⟩ := mem_fileRows.mp hm
    exact ⟨file, state, hf, by rwa [fileRow_requirementId] at hid, rfl⟩
  · rintro ⟨file, state, hf, rfl, rfl⟩
    have hr := rowById_of_mem (@nodup_fileRows env report ledger)
      (mem_fileRows.mpr ⟨file, state, hf, rfl⟩)
    rwa [fileRow_requirementId] at hr

/-- A recorded file's row is its record. -/
theorem fileRow_of_record {file : JsString} {e : LedgerEntry} (state : ReportState)
    (h : ledger.get? (requirementIdForFile env file) = some e) :
    fileRow env ledger file state = testRow e file := by
  have hid := (LedgerRecords.get?_eq_some.mp h).2
  unfold fileRow
  simp only [h, testRow, hid]

/-- The row of a requirement is its file's row, else the row of its record. -/
theorem rowById_derivedRows (claimedProfiles : List JsString) (id : JsString) :
    rowById (derivedRows env report ledger claimedProfiles) id =
      (rowById (fileRows env report ledger ++ prefixRows env report ledger claimedProfiles ++
        anyOfRows env report ledger claimedProfiles) id).or
      ((ledger.get? id).bind (testRow? report)) := by
  have hp := sortBy_perm (env.collation.on LedgerEntry.requirementId) ledger.entries
  have hn := (hp.map LedgerEntry.requirementId).nodup_iff.mpr ledger.nodup
  have hfind : (sortBy (env.collation.on LedgerEntry.requirementId) ledger.entries).find?
      (fun e => e.requirementId = id) = ledger.get? id := by
    refine Option.ext fun e => ?_
    have hs := @LedgerRecords.get?_eq_some ⟨_, hn⟩ id e
    rw [LedgerRecords.get?] at hs
    rw [hs, LedgerRecords.get?_eq_some, hp.mem_iff]
  rw [derivedRows, rowById_foldl_addTestRow hn, hfind]

end FileRows

section Standing

variable (env : Env) (report : Report) (ledger : LedgerRecords)

/-- The record that gives a requirement its row: some reported file records under the id, or
the record is attributed to a reported file. -/
def recordOf (id : JsString) : Option LedgerEntry :=
  (ledger.get? id).filter fun e =>
    report.states.keys.any (fun file => requirementIdForFile env file = id) || isAttributed report e

/-- Recorded as a pass with assertions. -/
def Counted (id : JsString) : Prop :=
  ∃ e, recordOf env report ledger id = some e ∧ e.disposition = .executedPass ∧
    e.assertionCount.getD 0 > 0

/-- Recorded as inapplicable. -/
def Inapplicable (id : JsString) : Prop :=
  ∃ e, recordOf env report ledger id = some e ∧ e.disposition = .inapplicable

/-- The row of a requirement that is not a group: its file's, else its record's. -/
def ownRow (id : JsString) : Option DerivedRequirement :=
  (rowById (fileRows env report ledger) id).or ((ledger.get? id).bind (testRow? report))

end Standing

section OwnRow

variable {env : Env} {report : Report} {ledger : LedgerRecords} {id : JsString}

theorem recordOf_of_not_recorded (hg : ledger.get? id = none) :
    recordOf env report ledger id = none := by
  rw [recordOf, hg]
  rfl

/-- The row of a recorded requirement carries its record. -/
theorem ownRow_of_recordOf {e : LedgerEntry} (h : recordOf env report ledger id = some e) :
    ledger.get? id = some e ∧ ∃ file, ownRow env report ledger id = some (testRow e file) := by
  rw [recordOf, Option.filter_eq_some_iff, Bool.or_eq_true] at h
  obtain ⟨hg, hr⟩ := h
  refine ⟨hg, ?_⟩
  rw [ownRow]
  rcases hrow : rowById (fileRows env report ledger) id with _ | r
  · rcases hr with hr | hr
    · obtain ⟨file, hk, hid⟩ := List.any_eq_true.mp hr
      obtain ⟨state, hs⟩ := Option.isSome_iff_exists.mp (Map.get?_isSome_iff.mpr hk)
      have hsome := rowById_fileRows.mpr ⟨file, state, hs, by simpa using hid,
        (rfl : fileRow env ledger file state = _)⟩
      rw [hrow] at hsome
      cases hsome
    · obtain ⟨file, hf, hs⟩ := (Option.any_eq_true ..).mp hr
      exact ⟨file, by simp [hg, testRow?, hf, hs]⟩
  · obtain ⟨file, state, hs, hid, rfl⟩ := rowById_fileRows.mp hrow
    exact ⟨file, by rw [Option.some_or, fileRow_of_record state (hid ▸ hg)]⟩

/-- A requirement without such a record has no row, or the row its report gives it. -/
theorem ownRow_of_recordOf_none (h : recordOf env report ledger id = none) :
    ownRow env report ledger id = none ∨
    (ledger.get? id = none ∧ ∃ file state, report.get? file = some state ∧
      requirementIdForFile env file = id ∧
      ownRow env report ledger id = some (fileRow env ledger file state)) := by
  rw [recordOf, Option.filter_eq_none_iff] at h
  rw [ownRow]
  rcases hrow : rowById (fileRows env report ledger) id with _ | r
  · left
    rcases hg : ledger.get? id with _ | e
    · rfl
    · have hr := h e hg
      rw [Bool.or_eq_true, not_or] at hr
      rcases hf : attributedFile e with _ | file
      · simp [testRow?, hf]
      · have hs : (report.get? file).isSome ≠ true := fun hs =>
          hr.2 ((Option.any_eq_true ..).mpr ⟨file, hf, hs⟩)
        simp [testRow?, hf, hs]
  · right
    obtain ⟨file, state, hs, hid, rfl⟩ := rowById_fileRows.mp hrow
    refine ⟨Option.eq_none_iff_forall_ne_some.mpr fun e hg => ?_, file, state, hs, hid, rfl⟩
    have hk : file ∈ report.states.keys := Map.get?_isSome_iff.mp (Option.isSome_of_eq_some hs)
    exact h e hg (by simpa using Or.inl ⟨file, hk, hid⟩)

/-- The witnessed rows are those of counted requirements. -/
theorem ownRow_witnessed_iff : (ownRow env report ledger id).any DerivedRequirement.witnessed = true ↔
    Counted env report ledger id := by
  rw [Counted]
  rcases h : recordOf env report ledger id with _ | e
  · rcases ownRow_of_recordOf_none h with hn | ⟨hg, file, state, _, hid, hr⟩
    · simp [hn]
    · rw [hr]
      cases state <;> simp [fileRow, hid, hg, DerivedRequirement.witnessed]
  · obtain ⟨_, file, hr⟩ := ownRow_of_recordOf h
    simp [hr, testRow, DerivedRequirement.witnessed]

/-- A scenario file is not named like a prefix group. -/
theorem endsWith_star_of_get? {file : JsString} {state : ReportState}
    (h : report.get? file = some state) : endsWith file (js "*") = false := by
  obtain ⟨s, rfl⟩ := endsWith_iff.mp (endsWith_of_get? h)
  rw [Bool.eq_false_iff, Ne, endsWith_iff]
  rintro ⟨t, ht⟩
  have hl := congrArg List.getLast? ht
  rw [List.getLast?_append_of_ne_nil _ (by decide), List.getLast?_append_of_ne_nil _ (by decide)] at hl
  revert hl
  decide

@[simp] theorem profileVerdict_profile (rows : List DerivedRequirement) (document : Option Json)
    (profile : JsString) :
    (profileVerdict env ledger rows document profile).profile = profile := by
  unfold profileVerdict
  split <;> rfl

end OwnRow

end OpenWop.Certification
