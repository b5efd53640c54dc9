import OpenWop.RequirementIds.Allocator

/-!
# Runs of the allocator

Every id handed out belongs to a file, a title and a number the counter has reached. From there
each step either keeps the ids sound or breaks them for good.
-/

namespace OpenWop.RequirementIds

open OpenWop.Js
open OpenWop.Certification (fileStem scenarioFileOfItId)

variable {toLowerCase : JsString → JsString}

/-- Every id handed out has a number its base has reached. -/
def Run.Counted (toLowerCase : JsString → JsString) (r : Run) : Prop :=
  ∀ entry ∈ r.issued, ∃ file title n, n ≤ r.worker.seen (itRequirementId toLowerCase
    (ScenarioFile.name file) title) ∧
    entry = (suffixed (itRequirementId toLowerCase file.name title) n, file.name)

theorem run_append (front : List Event) (event : Event) :
    run toLowerCase (front ++ [event]) = (run toLowerCase front).step toLowerCase event := by
  rw [run, List.foldl_append]
  rfl

theorem counted_step {r : Run} (h : r.Counted toLowerCase) (event : Event) :
    (r.step toLowerCase event).Counted toLowerCase := by
  cases event with
  | explicit id => exact h
  | titled file title =>
    intro entry hentry
    rcases List.mem_cons.mp hentry with rfl | hentry
    · refine ⟨file, title, r.worker.next _, le_of_eq ?_, rfl⟩
      change _ = Function.update r.worker.seen _ _ _
      rw [Function.update_self]
    · obtain ⟨file', title', n, hn, rfl⟩ := h entry hentry
      refine ⟨file', title', n, hn.trans ?_, rfl⟩
      change _ ≤ Function.update r.worker.seen _ _ _
      by_cases heq : itRequirementId toLowerCase file'.name title' =
          itRequirementId toLowerCase file.name title
      · rw [heq, Function.update_self]
        exact (Worker.seen_lt_next _).le
      · rw [Function.update_of_ne heq]

theorem counted_run (events : List Event) : (run toLowerCase events).Counted toLowerCase := by
  induction events using List.reverseRecOn with
  | nil => exact fun _ h => absurd h List.not_mem_nil
  | append_singleton front event ih =>
    rw [run_append]
    exact counted_step ih event

/-- The id a title gets was not handed out before. -/
theorem next_not_issued {r : Run} (h : r.Counted toLowerCase) (file : ScenarioFile)
    (title : JsString) :
    suffixed (itRequirementId toLowerCase file.name title)
      (r.worker.next (itRequirementId toLowerCase file.name title)) ∉ r.issued.map Prod.fst := by
  intro hmem
  obtain ⟨entry, hentry, heq⟩ := List.mem_map.mp hmem
  obtain ⟨file', title', n, hn, rfl⟩ := h entry hentry
  obtain ⟨hbase, rfl⟩ := suffixed_inj (tilde_not_mem_itRequirementId _ file' title')
    (tilde_not_mem_itRequirementId _ file title) heq
  rw [hbase] at hn
  exact absurd (Worker.seen_lt_next _) (not_lt.mpr hn)

/-- The number a title gets has no leading `1` exactly where the step is safe. -/
theorem safe_titled_iff {r : Run} {file : ScenarioFile} {title : JsString} :
    r.Safe toLowerCase (.titled file title) ↔
      ¬ LeadingOne (r.worker.next (itRequirementId toLowerCase file.name title)) := by
  constructor
  · intro hsafe hlead
    obtain ⟨n, hlow, hn, hfree⟩ :=
      hsafe _ (Worker.seen_lt_next _) hlead (Worker.next_not_mem toLowerCase r.worker file title)
    exact hfree (Worker.mem_of_lt_next hlow hn)
  · intro hnext m hlow hlead hfree
    refine ⟨_, Worker.seen_lt_next _, ?_, Worker.next_not_mem toLowerCase r.worker file title⟩
    have hle := fun h => hfree (Worker.mem_of_lt_next hlow h)
    rcases (not_lt.mp hle).eq_or_lt with heq | hlt
    · exact absurd (heq ▸ hlead) hnext
    · exact hlt

/-- One more id is sound with the others where it is a new, free and well-formed id of its file. -/
theorem sound_cons_iff {w : Worker} {id file : JsString} {issued : List (JsString × JsString)} :
    Run.Sound ⟨w, (id, file) :: issued⟩ ↔ (id ∉ issued.map Prod.fst ∧ id ∉ w.claimedExplicit ∧
      itIdGrammar id = true ∧ scenarioFileOfItId id = some file) ∧ Run.Sound ⟨w, issued⟩ := by
  constructor
  · intro h
    obtain ⟨hnew, hdistinct⟩ := List.nodup_cons.mp h.distinct
    obtain ⟨hfree, hunclaimed⟩ := List.forall_mem_cons.mp h.unclaimed
    obtain ⟨hgrammar, hgrammars⟩ := List.forall_mem_cons.mp h.grammar
    obtain ⟨hfile, hfiles⟩ := List.forall_mem_cons.mp h.file
    exact ⟨⟨hnew, hfree, hgrammar, hfile⟩, hdistinct, hunclaimed, hgrammars, hfiles⟩
  · rintro ⟨⟨hnew, hfree, hgrammar, hfile⟩, h⟩
    exact ⟨List.nodup_cons.mpr ⟨hnew, h.distinct⟩, List.forall_mem_cons.mpr ⟨hfree, h.unclaimed⟩,
      List.forall_mem_cons.mpr ⟨hgrammar, h.grammar⟩, List.forall_mem_cons.mpr ⟨hfile, h.file⟩⟩

/-- A claim leaves sound ids sound where it claims none of them. -/
theorem sound_req_iff {w : Worker} {id : JsString} {issued : List (JsString × JsString)} :
    Run.Sound ⟨w.req id, issued⟩ ↔ Run.Sound ⟨w, issued⟩ ∧ id ∉ issued.map Prod.fst := by
  constructor
  · intro h
    refine ⟨⟨h.distinct, fun entry he hc => ?_, h.grammar, h.file⟩, fun hid => ?_⟩
    · exact h.unclaimed entry he (List.mem_cons_of_mem _ hc)
    · obtain ⟨entry, he, rfl⟩ := List.mem_map.mp hid
      exact h.unclaimed entry he (List.mem_cons_self ..)
  · rintro ⟨h, hid⟩
    refine ⟨h.distinct, fun entry he hc => ?_, h.grammar, h.file⟩
    rcases List.mem_cons.mp hc with heq | hc
    · exact hid (heq ▸ List.mem_map_of_mem he)
    · exact h.unclaimed entry he hc

/-- A step keeps the ids sound exactly where it is safe, and repairs none. -/
theorem sound_step_iff {r : Run} (h : r.Counted toLowerCase) (event : Event) :
    (r.step toLowerCase event).Sound ↔ r.Sound ∧ r.Safe toLowerCase event := by
  cases event with
  | explicit id => exact sound_req_iff
  | titled file title =>
    have hne : r.worker.next (itRequirementId toLowerCase file.name title) ≠ 0 :=
      Nat.ne_of_gt ((Nat.zero_le _).trans_lt (Worker.seen_lt_next _))
    have hnew := next_not_issued h file title
    have hfree := Worker.next_not_mem toLowerCase r.worker file title
    have hfile := scenarioFileOfItId_suffixed toLowerCase file title
    rw [safe_titled_iff, ← itIdGrammar_suffixed toLowerCase file title hne]
    refine sound_cons_iff.trans ⟨fun hs => ?_, fun hs => ?_⟩
    · exact ⟨⟨hs.2.distinct, hs.2.unclaimed, hs.2.grammar, hs.2.file⟩, hs.1.2.2.1⟩
    · exact ⟨⟨hnew, hfree, hs.2, hfile _⟩, hs.1.distinct, hs.1.unclaimed, hs.1.grammar, hs.1.file⟩

theorem safeRun_append_iff {front : List Event} {event : Event} :
    SafeRun toLowerCase (front ++ [event]) ↔
      SafeRun toLowerCase front ∧ (run toLowerCase front).Safe toLowerCase event := by
  constructor
  · intro h
    refine ⟨fun before e rest heq => ?_, h front event [] rfl⟩
    exact h before e (rest ++ [event]) (by rw [heq, List.append_assoc, List.cons_append])
  · rintro ⟨hfront, hlast⟩ before e rest heq
    rcases List.eq_nil_or_concat rest with rfl | ⟨rest, last, rfl⟩
    · obtain ⟨rfl, hevent⟩ := List.append_inj' heq rfl
      rwa [← (List.cons.inj hevent).1]
    · rw [List.concat_eq_append, ← List.cons_append, ← List.append_assoc] at heq
      exact hfront before e rest (List.append_inj' heq rfl).1

/-- The ids of a run are sound exactly where each of its steps is safe: no title comes to a number
with a leading `1` other than the first, and no id is claimed after it was handed out. -/
theorem issued_sound_iff (toLowerCase : JsString → JsString) (events : List Event) :
    (run toLowerCase events).Sound ↔ SafeRun toLowerCase events := by
  induction events using List.reverseRecOn with
  | nil =>
    refine iff_of_true ⟨List.nodup_nil, ?_, ?_, ?_⟩ fun front event rest h => ?_
    · exact fun _ h => absurd h List.not_mem_nil
    · exact fun _ h => absurd h List.not_mem_nil
    · exact fun _ h => absurd h List.not_mem_nil
    · exact absurd h.symm (List.append_ne_nil_of_right_ne_nil front (List.cons_ne_nil event rest))
  | append_singleton front event ih =>
    rw [run_append, sound_step_iff (counted_run front), safeRun_append_iff, ih]

/-- The scenario file `x.test.ts`. -/
def xFile : ScenarioFile := ⟨js "x.test.ts", by decide, by decide⟩

/-- Ten tests with the title `t`, which is its own lower case; one test with it and a later claim
of its id. -/
theorem tenTitles_lateClaim_not_sound :
    ¬ (run id (List.replicate 10 (.titled xFile (js "t")))).Sound ∧
      ¬ (run id [.titled xFile (js "t"), .explicit (js "openwop.it.x.t")]).Sound := by
  constructor
  · intro h
    have hissued : (js "openwop.it.x.t~10", xFile.name) ∈
        (run id (List.replicate 10 (.titled xFile (js "t")))).issued := by
      decide
    exact absurd (h.grammar _ hissued) (by decide)
  · intro h
    have hissued : (js "openwop.it.x.t", xFile.name) ∈
        (run id [.titled xFile (js "t"), .explicit (js "openwop.it.x.t")]).issued := by
      decide
    exact absurd (List.mem_cons_self ..) (h.unclaimed _ hissued)

end OpenWop.RequirementIds
