import OpenWop.Ledger.Record

/-!
# The requirement ledger: reading the sink back

`readLedgerFile` keeps, per requirement and scenario file, the last line among the
least certifiable ones, and then folds the files of each requirement into one row:
the least certifiable file decides, counts sum, and a tie names the first file.

The first pass is characterized by the lines of each requirement and file alone,
so any reordering of the sink that keeps those sequences gives the same tables.
-/

namespace OpenWop.Ledger

open OpenWop.Js

/-- `e.scenarioFile ?? ''`. -/
def LedgerEntry.fileKey (e : LedgerEntry) : JsString := e.scenarioFile.getD []

/-- The rows of one requirement, by scenario file. -/
abbrev FileRows := Map JsString LedgerEntry

/-- Keep a line when its file has none yet, or none less certifiable. -/
def keepLine (files : FileRows) (e : LedgerEntry) : FileRows :=
  match files.get? e.fileKey with
  | none => files.set e.fileKey e
  | some prior =>
    if certifiabilityRank e.disposition ≤ certifiabilityRank prior.disposition then
      files.set e.fileKey e
    else files

/-- One line of the first pass. -/
def addLine (perFile : Map JsString FileRows) (e : LedgerEntry) : Map JsString FileRows :=
  perFile.set e.requirementId (keepLine ((perFile.get? e.requirementId).getD Map.empty) e)

/-- The first pass, per requirement and scenario file. -/
def readPerFile (lines : List LedgerEntry) : Map JsString FileRows :=
  lines.foldl addLine Map.empty

/-- The least certifiable row first, then by the name of the file. -/
def rowOrder (collation : Collation) : Comparator LedgerEntry :=
  (Comparator.byNat.on fun e => certifiabilityRank e.disposition).orElse
    (collation.on LedgerEntry.fileKey)

/-- The second pass on the files of one requirement. No requirement is without a file. -/
def mergeFiles (collation : Collation) (files : FileRows) : Option LedgerEntry :=
  match sortBy (rowOrder collation) files.values with
  | [] => none
  | winner :: others =>
    let rows := winner :: others
    if others = [] ∨ rows.any (fun r => r.assertionCount.isSome) = false then some winner
    else some { winner with
      assertionCount := some (rows.map fun r => r.assertionCount.getD 0).sum }

/-- `readLedgerFile`. -/
def readLedgerFile (collation : Collation) (lines : List Json) : List LedgerEntry :=
  sortBy (collation.on LedgerEntry.requirementId)
    ((readPerFile (lines.filterMap readLine)).values.filterMap (mergeFiles collation))

/-- The sink a list of entries writes. -/
def sinkOf (entries : List LedgerEntry) : List Json := entries.map LedgerEntry.toJson

@[simp] theorem filterMap_readLine_sinkOf (entries : List LedgerEntry) :
    (sinkOf entries).filterMap readLine = entries := by
  rw [sinkOf, List.filterMap_map]
  have hr : readLine ∘ LedgerEntry.toJson = some := funext readLine_toJson
  rw [hr, List.filterMap_some]

section Groups

/-- The line belongs to that requirement and scenario file. -/
def inGroup (requirementId file : JsString) (e : LedgerEntry) : Bool :=
  e.requirementId = requirementId ∧ e.fileKey = file

/-- One line of a single group. -/
def keepLast (prior : Option LedgerEntry) (e : LedgerEntry) : Option LedgerEntry :=
  match prior with
  | none => some e
  | some p =>
    if certifiabilityRank e.disposition ≤ certifiabilityRank p.disposition then some e else some p

/-- The row a group of lines comes to. -/
def groupRow (lines : List LedgerEntry) : Option LedgerEntry := lines.foldl keepLast none

theorem get?_keepLine (files : FileRows) (e : LedgerEntry) (file : JsString) :
    (keepLine files e).get? file =
      if e.fileKey = file then keepLast (files.get? file) e else files.get? file := by
  rw [keepLine]
  by_cases hf : e.fileKey = file
  · subst hf
    rcases hp : files.get? e.fileKey with _ | prior
    · simp [keepLast]
    · simp only [keepLast, if_true]
      split <;> simp [hp]
  · have hs (v : LedgerEntry) : (files.set e.fileKey v).get? file = files.get? file := by
      rw [Map.get?_set, if_neg (Ne.symm hf)]
    rcases files.get? e.fileKey with _ | prior
    · simp [hf, hs]
    · simp only [hf, if_false]
      split <;> simp [hs]

/-- The files of a requirement after the first pass; none before its first line. -/
def filesOf (perFile : Map JsString FileRows) (requirementId : JsString) : FileRows :=
  (perFile.get? requirementId).getD Map.empty

theorem filesOf_addLine (perFile : Map JsString FileRows) (e : LedgerEntry)
    (requirementId : JsString) :
    filesOf (addLine perFile e) requirementId =
      if e.requirementId = requirementId then keepLine (filesOf perFile requirementId) e
      else filesOf perFile requirementId := by
  rw [filesOf, addLine, Map.get?_set]
  by_cases h : e.requirementId = requirementId
  · subst h
    simp [filesOf]
  · simp [filesOf, h, Ne.symm h]

private theorem get?_foldl_addLine (lines : List LedgerEntry) (perFile : Map JsString FileRows)
    (requirementId file : JsString) :
    (filesOf (lines.foldl addLine perFile) requirementId).get? file =
      (lines.filter (inGroup requirementId file)).foldl keepLast
        ((filesOf perFile requirementId).get? file) := by
  induction lines generalizing perFile with
  | nil => rfl
  | cons e lines ih =>
    rw [List.foldl_cons, ih, filesOf_addLine]
    by_cases hi : e.requirementId = requirementId
    · by_cases hf : e.fileKey = file
      · simp [inGroup, hi, hf, get?_keepLine]
      · simp [inGroup, hi, hf, get?_keepLine]
    · simp [inGroup, hi]

/-- The first pass holds, per requirement and file, what that group of lines comes to. -/
theorem get?_filesOf_readPerFile (lines : List LedgerEntry) (requirementId file : JsString) :
    (filesOf (readPerFile lines) requirementId).get? file =
      groupRow (lines.filter (inGroup requirementId file)) :=
  get?_foldl_addLine lines Map.empty requirementId file

/-- The row of a group is one of its lines. -/
theorem mem_of_groupRow {lines : List LedgerEntry} {e : LedgerEntry}
    (h : groupRow lines = some e) : e ∈ lines := by
  induction lines using List.reverseRecOn generalizing e with
  | nil => cases h
  | append_singleton lines x ih =>
    rw [groupRow, List.foldl_append, ← groupRow] at h
    rw [List.mem_append, List.mem_singleton]
    rcases hg : groupRow lines with _ | p
    · simp only [hg, List.foldl_cons, List.foldl_nil, keepLast, Option.some.injEq] at h
      exact Or.inr h.symm
    · simp only [hg, List.foldl_cons, List.foldl_nil, keepLast] at h
      split at h
      · exact Or.inr (Option.some.inj h).symm
      · exact Or.inl (ih (hg.trans h))

/-- A group with a line has a row. -/
theorem groupRow_ne_none {lines : List LedgerEntry} {e : LedgerEntry} (h : e ∈ lines) :
    groupRow lines ≠ none := by
  induction lines using List.reverseRecOn with
  | nil => cases h
  | append_singleton lines x _ =>
    rw [groupRow, List.foldl_append, List.foldl_cons, List.foldl_nil]
    unfold keepLast
    split
    · simp
    · split <;> simp

/-- No line of a group is less certifiable than its row. -/
theorem rank_groupRow_le {lines : List LedgerEntry} {r : LedgerEntry}
    (h : groupRow lines = some r) :
    ∀ e ∈ lines, certifiabilityRank r.disposition ≤ certifiabilityRank e.disposition := by
  induction lines using List.reverseRecOn generalizing r with
  | nil => cases h
  | append_singleton lines x ih =>
    rw [groupRow, List.foldl_append, ← groupRow] at h
    intro e he
    rw [List.mem_append, List.mem_singleton] at he
    rcases hg : groupRow lines with _ | p
    · have hn : lines = [] := by
        by_contra hne
        obtain ⟨y, hy⟩ := List.exists_mem_of_ne_nil _ hne
        exact absurd hg (groupRow_ne_none hy)
      simp only [hg, List.foldl_cons, List.foldl_nil, keepLast, Option.some.injEq] at h
      rw [he.resolve_left (by simp [hn]), h]
    · simp only [hg, List.foldl_cons, List.foldl_nil, keepLast] at h
      split at h
      · next hle =>
        cases h
        rcases he with he | rfl
        · exact hle.trans (ih hg e he)
        · exact le_refl _
      · next hlt =>
        cases h
        rcases he with he | rfl
        · exact ih hg e he
        · omega

private theorem get?_foldl_addLine_isSome (lines : List LedgerEntry)
    (perFile : Map JsString FileRows) (requirementId : JsString) :
    ((lines.foldl addLine perFile).get? requirementId).isSome ↔
      (perFile.get? requirementId).isSome ∨ ∃ e ∈ lines, e.requirementId = requirementId := by
  induction lines generalizing perFile with
  | nil => simp
  | cons e lines ih =>
    rw [List.foldl_cons, ih, addLine, Map.get?_set]
    by_cases hi : e.requirementId = requirementId
    · simp [hi]
    · simp [hi, Ne.symm hi]

/-- The first pass holds exactly the requirements some line records. -/
theorem get?_readPerFile_isSome {lines : List LedgerEntry} {requirementId : JsString} :
    ((readPerFile lines).get? requirementId).isSome ↔
      ∃ e ∈ lines, e.requirementId = requirementId := by
  rw [readPerFile, get?_foldl_addLine_isSome]
  simp

end Groups

section Merge

variable {collation : Collation} {files files' : FileRows} {row : LedgerEntry}

/-- The count a row contributes. -/
def LedgerEntry.count (e : LedgerEntry) : Nat := e.assertionCount.getD 0

/-- The row that folds the final rows of a requirement's files. -/
structure FoldOf (finals : List LedgerEntry) (row : LedgerEntry) : Prop where
  decided : ∃ f ∈ finals, f.requirementId = row.requirementId ∧ f.disposition = row.disposition
  least : ∀ f ∈ finals, certifiabilityRank row.disposition ≤ certifiabilityRank f.disposition
  counted : row.count = (finals.map LedgerEntry.count).sum
  uncounted : row.assertionCount = none ↔ ∀ f ∈ finals, f.assertionCount = none

/-- Rows with the same members and the same sum fold to the same rows. -/
theorem FoldOf.congr {finals finals' : List LedgerEntry} (hm : ∀ r, r ∈ finals ↔ r ∈ finals')
    (hs : (finals.map LedgerEntry.count).sum = (finals'.map LedgerEntry.count).sum)
    (hr : FoldOf finals row) : FoldOf finals' row where
  decided := by simpa only [hm] using hr.decided
  least := by simpa only [hm] using hr.least
  counted := hr.counted.trans hs
  uncounted := by simpa only [hm] using hr.uncounted

/-- Where the first row of a sorted list ranks among all rows. -/
theorem rank_head_le {rows : List LedgerEntry} {winner : LedgerEntry} {others : List LedgerEntry}
    (h : sortBy (rowOrder collation) rows = winner :: others) :
    ∀ r ∈ rows, certifiabilityRank winner.disposition ≤ certifiabilityRank r.disposition := by
  intro r hr
  by_cases hw : r = winner
  · rw [hw]
  · have hc := Comparator.le_of_orElse (compare_head_sortBy h hr hw)
    simp only [Comparator.on, Comparator.byNat] at hc
    omega

/-- The second pass folds the rows of a requirement's files. -/
theorem foldOf_mergeFiles (h : mergeFiles collation files = some row) :
    FoldOf files.values row := by
  rw [mergeFiles] at h
  have hperm := sortBy_perm (rowOrder collation) files.values
  have hrank {winner others} := @rank_head_le collation files.values winner others
  rcases hs : sortBy (rowOrder collation) files.values with _ | ⟨winner, others⟩
  · simp [hs] at h
  · rw [hs] at hperm
    simp only [hs] at h
    refine FoldOf.congr (fun _ => hperm.mem_iff) (hperm.map _).sum_eq ?_
    have hleast : ∀ f ∈ winner :: others,
        certifiabilityRank winner.disposition ≤ certifiabilityRank f.disposition :=
      fun f hf => hrank hs f (hperm.mem_iff.mp hf)
    split at h
    · next hc =>
      cases h
      rcases hc with rfl | hc
      · exact ⟨⟨_, List.mem_cons_self .., rfl, rfl⟩, hleast, by simp, by simp⟩
      · have hn : ∀ f ∈ row :: others, f.assertionCount = none := fun f hf => by
          simpa using List.any_eq_false.mp hc f hf
        have hz : ∀ n ∈ (row :: others).map LedgerEntry.count, n = 0 := fun n hm => by
          obtain ⟨f, hf, rfl⟩ := List.mem_map.mp hm
          simp [LedgerEntry.count, hn f hf]
        have hw : row.assertionCount = none := hn row (List.mem_cons_self ..)
        refine ⟨⟨_, List.mem_cons_self .., rfl, rfl⟩, hleast, ?_, fun _ => hn, fun _ => hw⟩
        rw [List.sum_eq_zero hz, LedgerEntry.count, hw]
        rfl
    · next hc =>
      cases h
      refine ⟨⟨_, List.mem_cons_self .., rfl, rfl⟩, hleast, rfl, by simp, fun hn => ?_⟩
      refine absurd (Or.inr (List.any_eq_false.mpr fun f hf => ?_)) hc
      simp [hn f hf]

/-- The rows read back, one for each requirement of the first pass. -/
theorem mem_readLedgerFile {log : List LedgerEntry} :
    row ∈ readLedgerFile collation (sinkOf log) ↔
      ∃ id files, (readPerFile log).get? id = some files ∧
        mergeFiles collation files = some row := by
  rw [readLedgerFile, filterMap_readLine_sinkOf, mem_sortBy, List.mem_filterMap]
  simp only [Map.mem_values_iff]
  constructor
  · rintro ⟨files, ⟨id, hf⟩, hr⟩
    exact ⟨id, files, hf, hr⟩
  · rintro ⟨id, files, hf, hr⟩
    exact ⟨files, ⟨id, hf⟩, hr⟩

/-- A requirement with a file has a row. -/
theorem mergeFiles_isSome {r : LedgerEntry} (h : r ∈ files.values) :
    ∃ row, mergeFiles collation files = some row := by
  have hm : r ∈ sortBy (rowOrder collation) files.values := mem_sortBy.mpr h
  rw [mergeFiles]
  rcases hs : sortBy (rowOrder collation) files.values with _ | ⟨winner, others⟩
  · rw [hs] at hm
    cases hm
  · simp only
    split
    · exact ⟨_, rfl⟩
    · exact ⟨_, rfl⟩

/-- A row is about the requirement its files were kept under. -/
theorem requirementId_of_mergeFiles {lines : List LedgerEntry} {id : JsString}
    (hf : (readPerFile lines).get? id = some files)
    (hr : mergeFiles collation files = some row) : row.requirementId = id := by
  obtain ⟨w, hw, hid, _⟩ := (foldOf_mergeFiles hr).decided
  obtain ⟨file, hg⟩ := Map.mem_values_iff.mp hw
  have he := get?_filesOf_readPerFile lines id file
  rw [filesOf, hf, Option.getD_some, hg] at he
  have hm := (List.mem_filter.mp (mem_of_groupRow he.symm)).2
  rw [inGroup, decide_eq_true_eq] at hm
  exact hid.symm.trans hm.1

/-- The second pass keeps one of the rows, but for its count. -/
theorem eq_of_mergeFiles (h : mergeFiles collation files = some row) :
    ∃ winner ∈ files.values, row = { winner with assertionCount := row.assertionCount } := by
  rw [mergeFiles] at h
  have hperm := sortBy_perm (rowOrder collation) files.values
  rcases hs : sortBy (rowOrder collation) files.values with _ | ⟨winner, others⟩
  · simp [hs] at h
  · rw [hs] at hperm
    simp only [hs] at h
    refine ⟨winner, hperm.mem_iff.mp (List.mem_cons_self ..), ?_⟩
    split at h <;> cases h <;> rfl

/-- No requirement is read back twice. -/
theorem nodup_readLedgerFile (collation : Collation) (lines : List Json) :
    ((readLedgerFile collation lines).map LedgerEntry.requirementId).Nodup := by
  have hp := (sortBy_perm (collation.on LedgerEntry.requirementId)
    ((readPerFile (lines.filterMap readLine)).values.filterMap (mergeFiles collation))).map
    LedgerEntry.requirementId
  rw [readLedgerFile, hp.nodup_iff, List.Nodup, List.pairwise_map, Map.values, Record.values,
    List.filterMap_map]
  have hkeys := List.pairwise_map.mp (readPerFile (lines.filterMap readLine)).nodup
  refine (List.Pairwise.and_mem.mp hkeys).filterMap _ fun m m' hne row hr row' hr' => ?_
  obtain ⟨hm, hm', hne⟩ := hne
  rwa [requirementId_of_mergeFiles (Map.mem_entries_iff.mp hm) hr,
    requirementId_of_mergeFiles (Map.mem_entries_iff.mp hm') hr']

end Merge

/-- The records of a ledger file, one for each requirement. -/
structure LedgerRecords where
  entries : List LedgerEntry
  nodup : (entries.map LedgerEntry.requirementId).Nodup
  deriving Repr

/-- The records a sink reads back as. -/
def LedgerRecords.ofFile (collation : Collation) (lines : List Json) : LedgerRecords :=
  ⟨readLedgerFile collation lines, nodup_readLedgerFile collation lines⟩

/-- The record of a requirement. -/
def LedgerRecords.get? (ledger : LedgerRecords) (id : JsString) : Option LedgerEntry :=
  ledger.entries.find? fun e => e.requirementId = id

theorem LedgerRecords.get?_eq_some {ledger : LedgerRecords} {id : JsString} {e : LedgerEntry} :
    ledger.get? id = some e ↔ e ∈ ledger.entries ∧ e.requirementId = id := by
  constructor
  · intro h
    exact ⟨List.mem_of_find?_eq_some h, by simpa using List.find?_some h⟩
  · rintro ⟨hm, rfl⟩
    rcases hg : ledger.get? e.requirementId with _ | f
    · have hne := List.find?_eq_none.mp hg e hm
      simp at hne
    · have hf : f.requirementId = e.requirementId := by simpa using List.find?_some hg
      have hfm := List.mem_of_find?_eq_some hg
      rw [List.inj_on_of_nodup_map ledger.nodup hfm hm hf]

/-- A requirement with a line has a record: one of its least certifiable lines, but for the
count. -/
theorem exists_record (collation : Collation) {log : List LedgerEntry} {e : LedgerEntry}
    (he : e ∈ log) : ∃ line ∈ log, line.requirementId = e.requirementId ∧ ∃ row,
      (LedgerRecords.ofFile collation (sinkOf log)).get? e.requirementId = some row ∧
      row = { line with assertionCount := row.assertionCount } ∧
      certifiabilityRank row.disposition ≤ certifiabilityRank e.disposition := by
  obtain ⟨files, hf⟩ := Option.isSome_iff_exists.mp
    (get?_readPerFile_isSome.mpr ⟨e, he, rfl⟩)
  have hread (file : JsString) : files.get? file =
      groupRow (log.filter (inGroup e.requirementId file)) := by
    rw [← get?_filesOf_readPerFile, filesOf, hf, Option.getD_some]
  have hmem : e ∈ log.filter (inGroup e.requirementId e.fileKey) := by
    simp [List.mem_filter, inGroup, he]
  obtain ⟨r, hr⟩ := Option.ne_none_iff_exists'.mp (groupRow_ne_none hmem)
  have hv : r ∈ files.values := Map.mem_values_iff.mpr ⟨e.fileKey, (hread _).trans hr⟩
  obtain ⟨row, hrow⟩ := @mergeFiles_isSome collation files r hv
  obtain ⟨line, hline, heq⟩ := eq_of_mergeFiles hrow
  obtain ⟨file, hg⟩ := Map.mem_values_iff.mp hline
  have hl := List.mem_filter.mp (mem_of_groupRow ((hread file).symm.trans hg))
  have hi : line.requirementId = e.requirementId := by
    have hi := hl.2
    rw [inGroup, decide_eq_true_eq] at hi
    exact hi.1
  refine ⟨line, hl.1, hi, row, ?_, heq, ?_⟩
  · rw [LedgerRecords.get?_eq_some]
    exact ⟨mem_readLedgerFile.mpr ⟨_, files, hf, hrow⟩, requirementId_of_mergeFiles hf hrow⟩
  · exact ((foldOf_mergeFiles hrow).least r hv).trans (rank_groupRow_le hr e hmem)

end OpenWop.Ledger
