import OpenWop.Certification.Groups
import OpenWop.Core.Interleave
import OpenWop.OptOut.Recorder

/-!
# Opt-outs that reach the verifier

A row has one disposition and one reason, so an opt-out reaches the verifier when it is what its
test came to, and what the requirement came to. That is the case when every test of the
requirement either came out as the skip of that one opt-out or recorded none and was inapplicable.
-/

namespace OpenWop.OptOut

open OpenWop.Js OpenWop.Core OpenWop.Ledger OpenWop.Certification

section Test

/-- The test records opt-outs of one name only, and the opt-out is what it comes to. -/
structure OptsOut (env : RunnerEnv) (name : JsString) (s : LedgerState) (t : Test) : Prop where
  only : ∀ other ∈ optOutsOf env.gates s t.body, other = name
  hosted : isCoherence env.corpus t.file = false
  unfailed : t.state ≠ .fail
  unasserted : t.state = .pass → t.assertionCalls = 0
  applicable : ∀ e ∈ journalSince env.gates s t.body, e.disposition ≠ .inapplicable
  first : ((journalSince env.gates s t.body).find? fun e => e.disposition = .skipped).map
    LedgerEntry.detail = some (some (optOutReason name))

/-- The test records no opt-out and comes out inapplicable. -/
structure OutOfScope (env : RunnerEnv) (s : LedgerState) (t : Test) : Prop where
  none : optOutsOf env.gates s t.body = []
  inapplicable : (t.resolve env (journalSince env.gates s t.body)).disposition = .inapplicable

variable {env : RunnerEnv} {name : JsString} {s : LedgerState} {t : Test}

/-- Such a test is resolved to the skip of its opt-out. -/
theorem OptsOut.resolve (h : OptsOut env name s t) :
    t.resolve env (journalSince env.gates s t.body) =
      { disposition := .skipped, detail := some (optOutReason name) } := by
  have hi : (journalSince env.gates s t.body).find? (fun e => e.disposition = .inapplicable) =
      Option.none :=
    List.find?_eq_none.mpr fun e he => by simpa using h.applicable e he
  obtain ⟨e, he, hd⟩ := Option.map_eq_some_iff.mp h.first
  have hg : gateNote (journalSince env.gates s t.body) =
      some ⟨.skipped, some (optOutReason name)⟩ := by
    rw [gateNote, hi, he, Option.map_none, Option.none_or, Option.map_some, hd]
  have hp : ¬ (t.state = .pass ∧ t.assertionCalls > 0) := fun hp => by
    have := h.unasserted hp.1
    omega
  rw [Test.resolve, if_neg (by simp [h.hosted]), hg, resolveItRecord_gate h.unfailed hp]
  rfl

/-- A text that starts with something visible is not blank. -/
theorem isBlank_cons {u : UInt16} (hu : isTrimmed u = false) (s : JsString) :
    isBlank (some (u :: s)) = false := by
  have hne : trim (u :: s) ≠ [] := by
    rw [trim, List.dropWhile_cons_of_neg (by simp [hu]), Ne, List.rdropWhile_eq_nil_iff]
    intro h
    exact absurd (h u (List.mem_cons_self ..)) (by simp [hu])
  simpa [isBlank] using hne

/-- The reason of an opt-out names it, whatever was observed besides. -/
theorem optOutDetail_attachObservation (hn : IsOptOutName name) (observation : Option JsString) :
    ∃ d, attachObservation (some (optOutReason name)) observation = some d ∧
      isBlank (some d) = false ∧ optOutDetail d = some name := by
  have hr : optOutReason name = js "operator declared an honest opt-out via " ++
      (optOutMarker ++ name) := by
    rw [optOutReason, List.append_assoc]
  have hb (tail : JsString) : isBlank (some (optOutReason name ++ tail)) = false := by
    have ho : js "operator declared an honest opt-out via " =
        unit 'o' :: js "perator declared an honest opt-out via " := by decide
    rw [hr, ho]
    exact isBlank_cons (by decide) _
  have hd {tail : JsString} (ht : EndsName tail) :
      optOutDetail (optOutReason name ++ tail) = some name := by
    rw [hr, List.append_assoc, optOutDetail_append (by decide)]
    exact optOutDetail_marker hn ht
  rw [attachObservation]
  by_cases ho : isBlank observation = true
  · refine ⟨optOutReason name, if_pos ho, by simpa using hb [], ?_⟩
    simpa using @hd [] (by simp [EndsName])
  · have hb' : isBlank (some (optOutReason name)) = false := by simpa using hb []
    refine ⟨optOutReason name ++ (js " · " ++ observationPrefix ++ observation.getD []), ?_,
      hb _, hd ?_⟩
    · simp [ho, hb']
    · intro u hu
      cases hu
      decide

end Test

section Ledger

/-- A record of the requirement that names the opt-out, or is inapplicable. -/
structure Names (report : Report) (name : JsString) (e : LedgerEntry) : Prop where
  filed : ∃ file, e.scenarioFile = some file ∧ (report.get? file).isSome
  detailed : e.detail.isSome
  outcome : e.disposition = .inapplicable ∨
    e.disposition = .skipped ∧ ∃ d, e.detail = some d ∧ optOutDetail d = some name

/-- Every record of the requirement names the opt-out, or is inapplicable. -/
structure Settled (report : Report) (id name : JsString) (s : LedgerState) : Prop where
  journaled : ∀ e ∈ s.journal, e.requirementId = id → Names report name e
  held : ∀ e, s.ledger.get? id = some e → Names report name e

variable {report : Report} {id name : JsString} {s : LedgerState} {call : Call}

theorem settled_initial : Settled report id name LedgerState.initial where
  journaled _ h := by simp [LedgerState.initial] at h
  held _ h := by simp [LedgerState.initial] at h

/-- An accepted call that is no pass has a detail. -/
theorem detail_isSome_of_accepted {prior : Option LedgerEntry} (h : refusal prior call = none)
    (hp : call.disposition ≠ .executedPass) : call.detail.isSome := by
  rw [refusal, Option.or_eq_none_iff] at h
  rcases hd : call.detail with _ | d
  · simp [hp, hd, isBlank] at h
  · rfl

/-- The side that decides a fold brings its own detail. -/
theorem Names.foldEntry {prior : LedgerEntry} (hp : Names report name prior)
    (hc : Names report name call.entry) : Names report name (foldEntry call prior call.entry) := by
  obtain ⟨d, hd⟩ := Option.isSome_iff_exists.mp hp.detailed
  obtain ⟨d', hd'⟩ := Option.isSome_iff_exists.mp hc.detailed
  by_cases hk : certifiabilityRank prior.disposition ≤ certifiabilityRank call.disposition
  · have hf : (Ledger.foldEntry call prior call.entry).detail = prior.detail := by
      simp [Ledger.foldEntry, hk, hd]
    refine ⟨?_, ?_, ?_⟩
    · simpa [Ledger.foldEntry, hk] using hp.filed
    · rw [hf]
      exact hp.detailed
    · rw [hf]
      simpa [Ledger.foldEntry, hk] using hp.outcome
  · have hf : (Ledger.foldEntry call prior call.entry).detail = call.entry.detail := by
      simp [Ledger.foldEntry, hk, hd']
    refine ⟨?_, ?_, ?_⟩
    · simpa [Ledger.foldEntry, hk] using hc.filed
    · rw [hf]
      exact hc.detailed
    · rw [hf]
      simpa [Ledger.foldEntry, hk] using hc.outcome

theorem Names.stored {prior : Option LedgerEntry} (hp : ∀ e, prior = some e → Names report name e)
    (hc : Names report name call.entry) : Names report name (stored prior call) := by
  rcases prior with _ | prior
  · exact hc
  · rw [Ledger.stored]
    split
    · exact (hp prior rfl).foldEntry hc
    · exact hc

/-- A record of another requirement changes nothing for this one. -/
theorem Settled.after_of_ne (hs : Settled report id name s) (h : call.requirementId ≠ id) :
    Settled report id name (s.after call) := by
  rcases after_cases s call with ⟨_, he⟩ | ⟨_, he⟩
  · rwa [he]
  · rw [he]
    constructor
    · intro e hm hi
      rcases List.mem_append.mp hm with hm | hm
      · exact hs.journaled e hm hi
      · rw [List.mem_singleton.mp hm, stored_requirementId] at hi
        exact absurd hi h
    · intro e hg
      rw [LedgerState.append, Map.get?_set, stored_requirementId, if_neg (Ne.symm h)] at hg
      exact hs.held e hg

/-- A record of this requirement is folded into the one before it. -/
theorem Settled.after (hs : Settled report id name s) (h : call.requirementId = id)
    (hc : call.detail.isSome → Names report name call.entry)
    (hp : call.disposition ≠ .executedPass) : Settled report id name (s.after call) := by
  rcases after_cases s call with ⟨_, he⟩ | ⟨hr, he⟩
  · rwa [he]
  · have hn : Names report name (stored (s.ledger.get? call.requirementId) call) :=
      Names.stored (fun e hg => hs.held e (h ▸ hg)) (hc (detail_isSome_of_accepted hr hp))
    rw [he]
    constructor
    · intro e hm hi
      rcases List.mem_append.mp hm with hm | hm
      · exact hs.journaled e hm hi
      · rwa [List.mem_singleton.mp hm]
    · intro e hg
      rw [LedgerState.append, Map.get?_set, stored_requirementId, if_pos h.symm] at hg
      cases hg
      exact hn

/-- The journal only grows. -/
theorem mem_journal_after {e : LedgerEntry} (he : e ∈ s.journal) (call : Call) :
    e ∈ (s.after call).journal := by
  rcases after_cases s call with ⟨_, ha⟩ | ⟨_, ha⟩
  · rwa [ha]
  · rw [ha]
    exact List.mem_append_left _ he

end Ledger

section Worker

variable {env : RunnerEnv} {report : Report} {id name : JsString} {s : LedgerState}

/-- What holds of a ledger and of every ledger a record leads to holds after a body. -/
theorem runBody_invariant {I : LedgerState → Prop} {body : List BodyStep}
    (hstep : ∀ s, I s → ∀ call : Call, call.requirementId ∈ body.map BodyStep.recordsUnder →
      I (s.after call)) (h0 : I s) : I (runBody env.gates s body) := by
  induction body generalizing s with
  | nil => exact h0
  | cons step body ih =>
    refine ih (fun s hs call hc => hstep s hs call (List.mem_cons_of_mem _ hc)) ?_
    rcases step.run_cases env.gates s with he | ⟨call, hc, he⟩
    · rwa [he]
    · rw [he]
      exact hstep s h0 call (hc ▸ List.mem_cons_self ..)

/-- The tests of a requirement either opt out of the name or are out of scope. -/
def Agree (env : RunnerEnv) (id name : JsString) (tests : List (LedgerState × Test)) : Prop :=
  ∀ p ∈ tests, p.2.requirementId = id → OptsOut env name p.1 p.2 ∨ OutOfScope env p.1 p.2

theorem OptsOut.names {t : Test} (hn : IsOptOutName name)
    (hf : (report.get? t.file).isSome) (h : OptsOut env name s t) :
    Names report name (t.call env (journalSince env.gates s t.body)).entry := by
  obtain ⟨d, hd, _, ho⟩ := optOutDetail_attachObservation hn t.observation
  have hc : (t.call env (journalSince env.gates s t.body)).detail = some d := by
    rw [Test.call, h.resolve]
    exact hd
  refine ⟨⟨t.file, rfl, hf⟩, ?_, Or.inr ⟨?_, d, hc, ho⟩⟩
  · exact Option.isSome_of_eq_some hc
  · simp [Call.entry, Test.call, h.resolve]

/-- What a test of the requirement records names the opt-out, or is inapplicable. -/
theorem names_of_agree {t : Test} (hn : IsOptOutName name) (hf : (report.get? t.file).isSome)
    (h : OptsOut env name s t ∨ OutOfScope env s t)
    (hd : (t.call env (journalSince env.gates s t.body)).detail.isSome) :
    Names report name (t.call env (journalSince env.gates s t.body)).entry := by
  rcases h with h | h
  · exact h.names hn hf
  · exact ⟨⟨t.file, rfl, hf⟩, hd, Or.inl h.inapplicable⟩

theorem Settled.testRun {t : Test} (hs : Settled report id name s) (hn : IsOptOutName name)
    (hf : (report.get? t.file).isSome) (ho : id ∉ t.body.map BodyStep.recordsUnder)
    (h : t.requirementId = id → OptsOut env name s t ∨ OutOfScope env s t) :
    Settled report id name (t.run env s) := by
  have hb : Settled report id name (runBody env.gates s t.body) :=
    runBody_invariant (fun s hs call hc => hs.after_of_ne fun he => ho (he ▸ hc)) hs
  by_cases hi : t.requirementId = id
  · refine hb.after hi (names_of_agree hn hf (h hi)) ?_
    rcases h hi with h | h
    · simp [Test.call, h.resolve]
    · simp [Test.call, h.inapplicable]
  · exact hb.after_of_ne hi

/-- The events of a worker keep the requirement settled. -/
theorem Settled.run {events : List Event} (hs : Settled report id name s) (hn : IsOptOutName name)
    (hf : ∀ p ∈ testsFrom env s events, (report.get? p.2.file).isSome)
    (ho : ∀ e ∈ events, id ∉ e.otherIds) (h : Agree env id name (testsFrom env s events)) :
    Settled report id name (events.foldl (Event.run env) s) := by
  induction events generalizing s with
  | nil => exact hs
  | cons e events ih =>
    obtain ⟨hoe, ho'⟩ := List.forall_mem_cons.mp ho
    rcases e with t | call
    · obtain ⟨hft, hf⟩ := List.forall_mem_cons.mp hf
      obtain ⟨ht, h⟩ := List.forall_mem_cons.mp h
      exact ih (hs.testRun hn hft hoe ht) hf ho' h
    · refine ih (hs.after_of_ne fun he => hoe ?_) hf ho' h
      exact he ▸ List.mem_singleton_self _

theorem mem_journal_testRun {e : LedgerEntry} (he : e ∈ s.journal) (t : Test) :
    e ∈ (t.run env s).journal :=
  mem_journal_after (runBody_invariant (I := fun s => e ∈ s.journal)
    (fun _ hs call _ => mem_journal_after hs call) he) _

theorem mem_journal_run {e : LedgerEntry} (he : e ∈ s.journal) (events : List Event) :
    e ∈ (events.foldl (Event.run env) s).journal := by
  induction events generalizing s with
  | nil => exact he
  | cons event events ih =>
    rcases event with t | call
    · exact ih (mem_journal_testRun he t)
    · exact ih (mem_journal_after he call)

/-- The recorder's call needs no reason, or gives one. -/
def Explained (env : RunnerEnv) (s : LedgerState) (t : Test) : Prop :=
  (t.call env (journalSince env.gates s t.body)).disposition = .executedPass ∨
    isBlank (t.call env (journalSince env.gates s t.body)).detail = false

/-- A test leaves a record of its requirement that is no more certifiable than what it came to. -/
theorem exists_record_testRun {t : Test} (h : Explained env s t) :
    ∃ e ∈ (t.run env s).journal, e.requirementId = t.requirementId ∧
      certifiabilityRank e.disposition ≤
        certifiabilityRank (t.resolve env (journalSince env.gates s t.body)).disposition := by
  set s' := runBody env.gates s t.body with hs'
  set call := t.call env (journalSince env.gates s t.body) with hc
  have hr : refusal (s'.ledger.get? call.requirementId) call = none := by
    have hfold : call.extras.fold = true := rfl
    have hwhy : ¬ (call.disposition ≠ .executedPass ∧ isBlank call.detail = true) := by
      rintro ⟨hp, hb⟩
      rcases h with h | h
      · exact hp h
      · rw [← hc, hb] at h
        cases h
    rcases s'.ledger.get? call.requirementId with _ | p <;> simp [refusal, hfold, hwhy]
  rcases after_cases s' call with ⟨⟨m, ht⟩, _⟩ | ⟨_, he⟩
  · rw [recordRequirement_run, hr] at ht
    cases ht
  · refine ⟨stored (s'.ledger.get? call.requirementId) call, ?_, stored_requirementId ..,
      certifiabilityRank_stored_le_call ..⟩
    rw [Test.run, ← hs', ← hc, he]
    exact List.mem_append_right _ (List.mem_singleton_self _)

/-- The records of a test stay in the journal of its worker. -/
theorem exists_record_run {events : List Event} {s₀ : LedgerState} {t : Test}
    (hm : (s, t) ∈ testsFrom env s₀ events) (h : Explained env s t) :
    ∃ e ∈ (events.foldl (Event.run env) s₀).journal, e.requirementId = t.requirementId ∧
      certifiabilityRank e.disposition ≤
        certifiabilityRank (t.resolve env (journalSince env.gates s t.body)).disposition := by
  induction events generalizing s₀ with
  | nil => cases hm
  | cons event events ih =>
    rcases event with t' | call
    · rcases List.mem_cons.mp hm with he | hm
      · cases he
        obtain ⟨e, he, hi, hr⟩ := exists_record_testRun h
        exact ⟨e, mem_journal_run he events, hi, hr⟩
      · exact ih hm
    · exact ih hm

theorem OptsOut.explained {t : Test} (hn : IsOptOutName name) (h : OptsOut env name s t) :
    Explained env s t := by
  obtain ⟨d, hd, hb, _⟩ := optOutDetail_attachObservation hn t.observation
  refine Or.inr ?_
  rwa [Test.call, h.resolve, hd]

end Worker

section Run

/-- One run of the suite: the events of its workers, and the lines they left in the sink. -/
structure SuiteRun (env : RunnerEnv) where
  workers : List (List Event)
  log : List LedgerEntry
  interleaved : Interleaves (workers.map fun events => (runWorker env events).journal) log

/-- The tests of a run, each with the ledger its worker held. -/
def SuiteRun.tests {env : RunnerEnv} (run : SuiteRun env) : List (LedgerState × Test) :=
  run.workers.flatMap (testsFrom env .initial)

/-- The rows of the bundle. -/
def SuiteRun.rows {env : RunnerEnv} (run : SuiteRun env) (certify : Env) (report : Report)
    (claimedProfiles : List JsString) : List BundleRow :=
  (derivedRows certify report (.ofFile certify.collation (sinkOf run.log)) claimedProfiles).map
    bundleRow

/-- The rows of one requirement. -/
def rowsOf (id : JsString) (rows : List BundleRow) : List BundleRow :=
  rows.filter fun r => r.id = id

/-- The id is recorded by the recorders of its tests only, and is no floor's. -/
structure IsTestId {env : RunnerEnv} (run : SuiteRun env) (id : JsString) : Prop where
  own : ∀ events ∈ run.workers, ∀ e ∈ events, id ∉ e.otherIds
  noFloor : startsWith id (js "openwop.floor.") = false

variable {env : RunnerEnv} {run : SuiteRun env} {certify : Env} {report : Report}
  {claimedProfiles : List JsString} {id name : JsString}

/-- Every line of the requirement names the opt-out, or is inapplicable. -/
theorem names_of_mem_log (hn : IsOptOutName name) (hid : IsTestId run id)
    (hf : ∀ p ∈ run.tests, (report.get? p.2.file).isSome) (h : Agree env id name run.tests)
    {e : LedgerEntry} (he : e ∈ run.log) (hi : e.requirementId = id) : Names report name e := by
  obtain ⟨journal, hj, he⟩ := run.interleaved.mem_iff.mp he
  obtain ⟨events, hw, rfl⟩ := List.mem_map.mp hj
  have hsub : ∀ p ∈ testsFrom env .initial events, p ∈ run.tests := fun p hp =>
    List.mem_flatMap.mpr ⟨events, hw, hp⟩
  have hs : Settled report id name (runWorker env events) :=
    settled_initial.run hn (fun p hp => hf p (hsub p hp)) (hid.own events hw)
      fun p hp => h p (hsub p hp)
  exact hs.journaled e he hi

/-- A group's id is a floor's. -/
theorem not_mem_groupIds (h : startsWith id (js "openwop.floor.") = false) (floor : ProfileFloor) :
    id ∉ floor.groupIds := by
  have hf (t : JsString) : startsWith (js "openwop.floor." ++ t) (js "openwop.floor.") = true :=
    startsWith_iff.mpr (List.prefix_append ..)
  rw [ProfileFloor.groupIds, List.mem_append, List.mem_map, List.mem_map]
  rintro (⟨p, _, rfl⟩ | ⟨g, _, rfl⟩)
  · have hp : js "openwop.floor.any." = js "openwop.floor." ++ js "any." := by decide
    rw [requirementIdForPrefix, hp, List.append_assoc, hf] at h
    cases h
  · have hg : js "openwop.floor.anyof." = js "openwop.floor." ++ js "anyof." := by decide
    rw [requirementIdForAnyOf, hg, List.append_assoc, hf] at h
    cases h

/-- The rows of a recorded requirement carry its record. -/
theorem row_of_record {ledger : LedgerRecords} {e : LedgerEntry} {r : DerivedRequirement}
    (hid : startsWith id (js "openwop.floor.") = false) (he : ledger.get? id = some e)
    (hr : r ∈ derivedRows certify report ledger claimedProfiles) (hi : r.requirementId = id) :
    r.disposition = e.disposition ∧ r.detail = e.detail := by
  rcases mem_derivedRows.mp hr with hr | ⟨e', hm, _, hr⟩
  · rw [baseRows, List.append_assoc, List.mem_append] at hr
    rcases hr with hr | hr
    · obtain ⟨file, state, _, rfl⟩ := mem_fileRows.mp hr
      rw [fileRow_requirementId] at hi
      rw [fileRow_of_record state (hi ▸ he)]
      exact ⟨rfl, rfl⟩
    · obtain ⟨floor, _, hg⟩ := groupRows_requirementId (List.mem_append.mp hr)
      exact absurd (hi ▸ hg) (not_mem_groupIds hid floor)
  · have hie : e'.requirementId = id := (testRow?_requirementId hr).symm.trans hi
    have hee : ledger.get? id = some e' := LedgerRecords.get?_eq_some.mpr ⟨hm, hie⟩
    rw [he, Option.some.injEq] at hee
    rw [testRow?, Option.bind_eq_some_iff] at hr
    obtain ⟨file, _, hr⟩ := hr
    split at hr
    · cases hr
      subst hee
      exact ⟨rfl, rfl⟩
    · cases hr

/-- The record of a test's requirement is no more certifiable than what the test came to. -/
theorem exists_record_of_test {s : LedgerState} {t : Test} (hm : (s, t) ∈ run.tests)
    (h : Explained env s t) (collation : Collation) :
    ∃ line ∈ run.log, line.requirementId = t.requirementId ∧ ∃ row,
      (LedgerRecords.ofFile collation (sinkOf run.log)).get? t.requirementId = some row ∧
      row = { line with assertionCount := row.assertionCount } ∧
      certifiabilityRank row.disposition ≤
        certifiabilityRank (t.resolve env (journalSince env.gates s t.body)).disposition := by
  obtain ⟨events, hw, hm⟩ := List.mem_flatMap.mp hm
  obtain ⟨e, he, hei, her⟩ := exists_record_run hm h
  have hlog : e ∈ run.log :=
    run.interleaved.mem_iff.mpr ⟨_, List.mem_map_of_mem (f := fun events =>
      (runWorker env events).journal) hw, he⟩
  obtain ⟨line, hline, hli, row, hrow, heq, hrank⟩ := exists_record collation hlog
  rw [hei] at hrow hli
  exact ⟨line, hline, hli, row, hrow, heq, hrank.trans her⟩

/-- The row of the requirement is the skip of the opt-out. -/
theorem OptsOut.exists_row (hn : IsOptOutName name) (hid : IsTestId run id)
    (hf : ∀ p ∈ run.tests, (report.get? p.2.file).isSome) (h : Agree env id name run.tests)
    {s : LedgerState} {t : Test} (hm : (s, t) ∈ run.tests) (hi : t.requirementId = id)
    (ho : OptsOut env name s t) : ∃ r ∈ run.rows certify report claimedProfiles, r.id = id ∧
      r.result = .skipped ∧ ∃ d, r.detail = some d ∧ optOutDetail d = some name := by
  obtain ⟨line, hline, hli, row, hrow, heq, hrank⟩ :=
    exists_record_of_test hm (ho.explained hn) certify.collation
  rw [hi] at hrow hli
  obtain ⟨⟨file, hfile, hstate⟩, -, hout⟩ := names_of_mem_log hn hid hf h hline hli
  rw [heq, ho.resolve] at hrank
  have hskip : line.disposition = .skipped ∧
      ∃ d, line.detail = some d ∧ optOutDetail d = some name := by
    rcases hout with hinap | hskip
    · simp [hinap, certifiabilityRank] at hrank
    · exact hskip
  have hrec : recordOf certify report (.ofFile certify.collation (sinkOf run.log)) id = some row := by
    have hatt : isAttributed report row = true := by
      rw [isAttributed, attributedFile, heq]
      simp [hfile, hstate]
    rw [recordOf, hrow, Option.filter_eq_some_iff]
    exact ⟨rfl, by rw [hatt, Bool.or_true]⟩
  obtain ⟨_, file', hown⟩ := ownRow_of_recordOf hrec
  have hderived : rowById (derivedRows certify report (.ofFile certify.collation (sinkOf run.log))
      claimedProfiles) id = some (testRow row file') :=
    (rowById_derivedRows_of_not_group fun floor _ => not_mem_groupIds hid.noFloor floor).trans hown
  obtain ⟨hmem, hrid⟩ := mem_of_rowById hderived
  refine ⟨bundleRow (testRow row file'), List.mem_map_of_mem hmem, hrid, ?_⟩
  rw [heq]
  exact hskip

/-- A test that came to anything less certifiable than a skip leaves its requirement without a
named opt-out. -/
theorem optedOutFromRows_eq_nil {s : LedgerState} {t : Test} (hm : (s, t) ∈ run.tests)
    (hid : startsWith t.requirementId (js "openwop.floor.") = false) (h : Explained env s t)
    (hr : certifiabilityRank (t.resolve env (journalSince env.gates s t.body)).disposition <
      certifiabilityRank .skipped) :
    optedOutFromRows (rowsOf t.requirementId (run.rows certify report claimedProfiles)) = [] := by
  obtain ⟨line, _, _, row, hrow, _, hrank⟩ := exists_record_of_test hm h certify.collation
  refine List.eq_nil_iff_forall_not_mem.mpr fun other ho => ?_
  obtain ⟨r, hr', hname⟩ := mem_optedOutFromRows.mp ho
  obtain ⟨hmem, hi⟩ := List.mem_filter.mp hr'
  obtain ⟨d, hd, rfl⟩ := List.mem_map.mp hmem
  have hdisp := (row_of_record hid hrow hd (of_decide_eq_true hi)).1
  rw [namesOfRow, if_pos] at hname
  · cases hname
  · change d.disposition ≠ .skipped
    rw [hdisp]
    intro he
    rw [he] at hrank
    omega

/-- Each name that a gate recorded as opted out reaches the verifier, and it refuses a document
that advertises it, when the opt-out is what the requirement of its test came to. -/
theorem optOut_reaches_verifier (hn : IsOptOutName name) (hid : IsTestId run id)
    (hf : ∀ p ∈ run.tests, (report.get? p.2.file).isSome) (h : Agree env id name run.tests)
    (derivable : JsString → Bool) (document : Json) :
    ∀ p ∈ run.tests, p.2.requirementId = id → ∀ other ∈ optOutsOf env.gates p.1 p.2.body,
      other ∈ optedOutFromRows (rowsOf id (run.rows certify report claimedProfiles)) ∧
      (isAdvertised derivable document other = true → advertisedOptOut other ∈
        optOutRejections derivable document (run.rows certify report claimedProfiles)) := by
  intro p hp hi other ho
  rcases h p hp hi with hopt | hout
  · cases hopt.only other ho
    obtain ⟨r, hr, hri, hs, d, hd, hod⟩ := hopt.exists_row hn hid hf h hp hi
    have hname := mem_namesOfRow hs hd hod
    refine ⟨mem_optedOutFromRows.mpr ⟨r, List.mem_filter.mpr ⟨hr, by simpa using hri⟩, hname⟩, ?_⟩
    exact mem_optOutRejections (mem_optedOutFromRows.mpr ⟨r, hr, hname⟩)
  · rw [hout.none] at ho
    cases ho

end Run

section Examples

/-- An operator that opted out of one profile. -/
def i18nEnv : RunnerEnv where
  gates := { optedOutProfiles := [js "openwop-i18n"], requireBehavior := false }
  corpus := { specCoherenceScenarios := [], corpusGate := false }
  atMajor2 := true

/-- A test that returned from its gate after some assertions. -/
def i18nTest (assertionCalls : Nat) : Test where
  file := js "i18n.test.ts"
  requirementId := js "openwop.it.i18n.fields"
  name := js "fields"
  body := [.gate (js "openwop-i18n") false]
  state := .pass
  assertionCalls
  noted := none
  firstError := none
  observation := none
  evidence := none

def i18nRun (assertionCalls : Nat) : SuiteRun i18nEnv where
  workers := [[.test (i18nTest assertionCalls)]]
  log := (runWorker i18nEnv [.test (i18nTest assertionCalls)]).journal
  interleaved := .single _

def i18nReport : Report where
  states := ⟨[(js "i18n.test.ts", .passed)], by decide⟩
  scenarios := by decide
  basenames := by decide

/-- A runner at major 2 with no floors. -/
def floorless : Env where
  collation := codeUnitOrder
  targetsMajor2 := true
  v2ProfileFloorFiles := []
  v2Floors := some []

theorem i18nTest_optsOut : OptsOut i18nEnv (js "openwop-i18n") .initial (i18nTest 0) where
  only other h := by
    have ho : optOutsOf i18nEnv.gates .initial (i18nTest 0).body = [js "openwop-i18n"] := by decide
    rw [ho] at h
    exact List.mem_singleton.mp h
  hosted := by decide
  unfailed := by decide
  unasserted _ := rfl
  applicable := by decide
  first := by decide

/-- A test that only returned from its gate names the opt-out in its row. -/
theorem i18n_reaches_verifier : js "openwop-i18n" ∈ optedOutFromRows
    (rowsOf (js "openwop.it.i18n.fields") ((i18nRun 0).rows floorless i18nReport [])) := by
  have hn : IsOptOutName (js "openwop-i18n") :=
    ⟨unit 'o', js "penwop-i18n", by decide, by decide, List.all_eq_true.mp (by decide)⟩
  have hid : IsTestId (i18nRun 0) (js "openwop.it.i18n.fields") :=
    { own := by decide, noFloor := by decide }
  have hm : (LedgerState.initial, i18nTest 0) ∈ (i18nRun 0).tests := List.mem_singleton_self _
  refine (optOut_reaches_verifier hn hid (fun p hp => ?_) (fun p hp _ => ?_) (fun _ => false) (.obj [])
    _ hm rfl _ (by decide)).1
  · rw [List.mem_singleton.mp hp]
    decide
  · rw [List.mem_singleton.mp hp]
    exact Or.inl i18nTest_optsOut

/-- A test that asserted before its gate returned passed, and its row names no opt-out. -/
theorem asserted_optOut_lost :
    ¬ ∀ (env : RunnerEnv) (run : SuiteRun env) (certify : Env) (report : Report)
      (claimedProfiles : List JsString), (∀ p ∈ run.tests, (report.get? p.2.file).isSome) →
      ∀ p ∈ run.tests, ∀ other ∈ optOutsOf env.gates p.1 p.2.body, other ∈ optedOutFromRows
        (rowsOf p.2.requirementId (run.rows certify report claimedProfiles)) := by
  intro h
  have hm : (LedgerState.initial, i18nTest 1) ∈ (i18nRun 1).tests := List.mem_singleton_self _
  have hlost := @optedOutFromRows_eq_nil _ (i18nRun 1) floorless i18nReport [] _ _ hm (by decide)
    (Or.inl rfl) (by decide)
  have hname := h i18nEnv (i18nRun 1) floorless i18nReport [] (fun p hp => ?_) _ hm
    (js "openwop-i18n") (by decide)
  · rw [hlost] at hname
    cases hname
  · rw [List.mem_singleton.mp hp]
    decide

end Examples

end OpenWop.OptOut
