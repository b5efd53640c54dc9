import OpenWop.Core.FreshIndex
import OpenWop.RequirementIds.Slug

/-!
# Collision suffixing

The ids of the tests of a worker. A derived id that was handed out before gets a counter, and the
counter skips the ids `req` has claimed. An id is handed out once and never where it was claimed
before; what the counter does not keep is the grammar, which has no counter with a leading `1`,
and the ids it has handed out are open to a later claim.
-/

namespace OpenWop.RequirementIds

open OpenWop.Js
open OpenWop.Certification (fileStem scenarioFileOfItId)
open OpenWop.Core (firstFree)

/-- The `n`-th id of a base: the base itself, then `~2`, `~3` and so on. -/
def suffixed (base : JsString) (n : Nat) : JsString :=
  if n = 1 then base else base ++ unit '~' :: decimal n

/-- What `ItIdAllocator` and `req` keep. -/
structure Worker where
  /-- `seen`, `0` where there is no entry. -/
  seen : JsString → Nat
  /-- `claimedExplicit`. -/
  claimedExplicit : List JsString

/-- Nothing handed out and nothing claimed. -/
def Worker.fresh : Worker := ⟨fun _ => 0, []⟩

/-- The `while` of `allocate`: the next number whose id nobody has claimed. -/
def Worker.next (w : Worker) (base : JsString) : Nat :=
  firstFree (suffixed base) w.claimedExplicit w.claimedExplicit.length (w.seen base + 1)

/-- `allocate`. -/
def Worker.allocate (toLowerCase : JsString → JsString) (w : Worker)
    (scenarioFile title : JsString) : JsString × Worker :=
  let base := itRequirementId toLowerCase scenarioFile title
  let n := w.next base
  (suffixed base n, { w with seen := Function.update w.seen base n })

/-- What `req` does to the claimed ids. -/
def Worker.req (w : Worker) (id : JsString) : Worker :=
  { w with claimedExplicit := id :: w.claimedExplicit }

/-- A scenario file: a kebab-case stem and `.test.ts`. -/
structure ScenarioFile where
  name : JsString
  suffix : endsWith name (js ".test.ts") = true
  kebab : isKebab (fileStem name) = true

/-- What a test does: it takes the id of its title, or it claims one. -/
inductive Event where
  | titled (scenarioFile : ScenarioFile) (title : JsString)
  | explicit (id : JsString)

/-- A worker and the ids it has handed out, each with its file. -/
structure Run where
  worker : Worker
  issued : List (JsString × JsString)

/-- `run` before the first test. -/
def Run.start : Run := ⟨Worker.fresh, []⟩

variable (toLowerCase : JsString → JsString)

/-- One test. -/
def Run.step (r : Run) : Event → Run
  | .titled file title =>
    let (id, worker) := r.worker.allocate toLowerCase file.name title
    ⟨worker, (id, file.name) :: r.issued⟩
  | .explicit id => { r with worker := r.worker.req id }

/-- The tests one after the other. -/
def run (events : List Event) : Run := events.foldl (Run.step toLowerCase) Run.start

/-- What the ids handed out are for. -/
structure Run.Sound (r : Run) : Prop where
  distinct : (r.issued.map Prod.fst).Nodup
  unclaimed : ∀ entry ∈ r.issued, entry.1 ∉ r.worker.claimedExplicit
  grammar : ∀ entry ∈ r.issued, itIdGrammar entry.1 = true
  file : ∀ entry ∈ r.issued, scenarioFileOfItId entry.1 = some entry.2

/-- The grammar has no such counter: it starts with `1` and is not the `1` left out. -/
def LeadingOne (n : Nat) : Prop := n ≠ 1 ∧ (decimal n).head? = some (unit '1')

/-- Before the step: every number above the last one used that has a leading `1` and is unclaimed
has another unclaimed number below it; a claimed id is not one handed out. -/
def Run.Safe (r : Run) : Event → Prop
  | .titled file title =>
    let base := itRequirementId toLowerCase file.name title
    ∀ m, r.worker.seen base < m → LeadingOne m → suffixed base m ∉ r.worker.claimedExplicit →
      ∃ n, r.worker.seen base < n ∧ n < m ∧ suffixed base n ∉ r.worker.claimedExplicit
  | .explicit id => id ∉ r.issued.map Prod.fst

/-- Every step of a run is safe where it is taken. -/
def SafeRun (events : List Event) : Prop :=
  ∀ front event rest, events = front ++ event :: rest →
    (run toLowerCase front).Safe toLowerCase event

section Suffixed

theorem suffixed_one (base : JsString) : suffixed base 1 = base := if_pos rfl

theorem suffixed_of_ne {base : JsString} {n : Nat} (h : n ≠ 1) :
    suffixed base n = base ++ unit '~' :: decimal n := if_neg h

/-- Ids of bases without a `~` differ with the base and with the number. -/
theorem suffixed_inj {base base' : JsString} {n n' : Nat} (hbase : unit '~' ∉ base)
    (hbase' : unit '~' ∉ base') (h : suffixed base n = suffixed base' n') :
    base = base' ∧ n = n' := by
  by_cases hn : n = 1
  · by_cases hn' : n' = 1
    · rw [hn, hn', suffixed_one, suffixed_one] at h
      exact ⟨h, hn.trans hn'.symm⟩
    · rw [hn, suffixed_one, suffixed_of_ne hn'] at h
      exact absurd (h ▸ List.mem_append_right _ (List.mem_cons_self ..)) hbase
  · by_cases hn' : n' = 1
    · rw [hn', suffixed_one, suffixed_of_ne hn] at h
      exact absurd (h ▸ List.mem_append_right _ (List.mem_cons_self ..)) hbase'
    · rw [suffixed_of_ne hn, suffixed_of_ne hn'] at h
      have hsplit := congrArg (fun s => splitOn s (unit '~')) h
      simp only [splitOn_append hbase, splitOn_append hbase', List.cons.injEq] at hsplit
      obtain ⟨rfl, -⟩ := hsplit
      exact ⟨rfl, decimal_inj (List.cons.inj (List.append_cancel_left h)).2⟩

theorem suffixed_injective {base : JsString} (h : unit '~' ∉ base) :
    Function.Injective (suffixed base) := fun _ _ heq => (suffixed_inj h h heq).2

/-- The id of a file and a title before suffixing. -/
theorem itRequirementId_eq (scenarioFile title : JsString) :
    itRequirementId toLowerCase scenarioFile title =
      itIdPrefix ++ (fileStem scenarioFile ++ unit '.' :: slugTitle toLowerCase title) := by
  rw [itRequirementId, List.append_assoc, List.append_assoc]
  rfl

theorem tilde_not_mem_itRequirementId (file : ScenarioFile) (title : JsString) :
    unit '~' ∉ itRequirementId toLowerCase file.name title := by
  rw [itRequirementId_eq, List.mem_append, List.mem_append, List.mem_cons]
  rintro (h | h | h | h)
  · exact absurd h (by decide)
  · exact isKebab_not_mem file.kebab (by decide) (by decide) h
  · exact absurd h (by decide)
  · exact isKebab_not_mem (isKebab_slugTitle toLowerCase title) (by decide) (by decide) h

theorem itIdGrammar_suffixed (file : ScenarioFile) (title : JsString) {n : Nat} (h : n ≠ 0) :
    itIdGrammar (suffixed (itRequirementId toLowerCase file.name title) n) = true ↔
      ¬ LeadingOne n := by
  rw [itRequirementId_eq]
  by_cases hn : n = 1
  · subst hn
    rw [suffixed_one]
    exact iff_of_true (itIdGrammar_bare file.kebab (isKebab_slugTitle ..)) fun h => h.1 rfl
  · rw [suffixed_of_ne hn, List.append_assoc, List.append_assoc, List.cons_append,
      itIdGrammar_counted file.kebab (isKebab_slugTitle ..) (decimal_digits h),
      isCounter_decimal h]
    exact ⟨fun hhead h => hhead h.2, fun h hhead => h ⟨hn, hhead⟩⟩

theorem scenarioFileOfItId_suffixed (file : ScenarioFile) (title : JsString) (n : Nat) :
    scenarioFileOfItId (suffixed (itRequirementId toLowerCase file.name title) n) =
      some file.name := by
  have hname : fileStem file.name ++ js ".test.ts" = file.name := dropSuffix_append file.suffix
  rw [itRequirementId_eq]
  by_cases hn : n = 1
  · rw [hn, suffixed_one, scenarioFileOfItId_append file.kebab, hname]
  · rw [suffixed_of_ne hn, List.append_assoc, List.append_assoc, List.cons_append,
      scenarioFileOfItId_append file.kebab, hname]

end Suffixed

section Next

variable {w : Worker}

theorem Worker.seen_lt_next (base : JsString) : w.seen base < w.next base :=
  Core.le_firstFree _ _

theorem Worker.mem_of_lt_next {base : JsString} {n : Nat} (hlow : w.seen base < n)
    (hn : n < w.next base) : suffixed base n ∈ w.claimedExplicit :=
  Core.mem_of_lt_firstFree hlow hn

theorem Worker.next_not_mem (w : Worker) (file : ScenarioFile) (title : JsString) :
    suffixed (itRequirementId toLowerCase file.name title)
      (w.next (itRequirementId toLowerCase file.name title)) ∉ w.claimedExplicit :=
  Core.firstFree_not_mem (suffixed_injective (tilde_not_mem_itRequirementId _ file title)) _

end Next

end OpenWop.RequirementIds
