import OpenWop.SoftSkip.Notes

/-!
# Notes that stand in spite of assertions

`blockedDespiteAssertions` marks a `blocked` note so that it stands after assertions. The fold
keeps the first note of every kind and reason, whether it is marked or not, so a plain `blocked`
note written before with the same reason takes the mark away.
-/

namespace OpenWop.SoftSkip

open OpenWop.Js OpenWop.Ledger OpenWop.Certification OpenWop.OptOut

/-- A passing test, as its recorder finds it besides its notes. -/
structure PassingTest where
  assertionCalls : Nat
  gate : Option GateNote
  firstError : Option JsString
  /-- `targetMajor() === 2`. -/
  blockedStands : Bool
  name : JsString

/-- The disposition of a passing test that makes the calls. -/
def PassingTest.disposition (t : PassingTest) (file : JsString) (s : SoftSkips)
    (calls : List NoteCall) : Disposition :=
  (resolveItRecord .pass t.assertionCalls t.gate
    (softSkipDispositionSince (runNotes file s calls) file (softSkipMark s)) t.firstError
    t.blockedStands t.name).disposition

/-- The notes are taken for what they say: a note that was to stand blocks the test, unless a gate
decided a test without assertions, and the order of the notes makes no difference. -/
structure NotesStand (t : PassingTest) (file : JsString) (s : SoftSkips) (calls : List NoteCall) :
    Prop where
  blocked : (∃ reason, .blockedDespiteAssertions reason ∈ calls) →
    t.assertionCalls > 0 ∨ t.gate = none → t.disposition file s calls = .blocked
  ordered : ∀ calls', calls'.Perm calls → t.disposition file s calls' = t.disposition file s calls

variable {calls : List NoteCall}

theorem conclusive_note_iff {call : NoteCall} : call.note.conclusive = true ↔
    ∃ reason, call = .blockedDespiteAssertions reason := by
  cases call <;> simp [NoteCall.note]

/-- Only the marked call of a reason repeats a marked note and is marked itself. -/
theorem repeats_blocked_iff {call : NoteCall} {reason : JsString} :
    repeats (NoteCall.note call) (NoteCall.note (.blockedDespiteAssertions reason)) = true ↔
      call = .blockedDespiteAssertions reason ∨ call = .softSkip .blocked reason := by
  cases call <;> simp [repeats_iff, NoteCall.note]

/-- A mark survives every order of the notes when no plain note has its reason. -/
theorem exists_conclusive_of_unrepeated {reason : JsString}
    (hmem : .blockedDespiteAssertions reason ∈ calls) (hplain : .softSkip .blocked reason ∉ calls) :
    ∃ n ∈ distinct (calls.map NoteCall.note), n.conclusive = true := by
  obtain ⟨u, hu, hrep⟩ := exists_distinct (List.mem_map_of_mem (f := NoteCall.note) hmem)
  obtain ⟨call, hcall, rfl⟩ := List.mem_map.mp (distinct_subset _ hu)
  rcases repeats_blocked_iff.mp hrep with rfl | rfl
  · exact ⟨_, hu, rfl⟩
  · exact absurd hcall hplain

/-- Writing the plain notes first takes away every mark that a plain note repeats. -/
theorem exists_unrepeated_of_conclusive
    (h : ∃ n ∈ distinct ((calls.filter (fun call => call.note.conclusive = false) ++
      calls.filter fun call => call.note.conclusive = true).map NoteCall.note),
      n.conclusive = true) :
    ∃ reason, .blockedDespiteAssertions reason ∈ calls ∧ .softSkip .blocked reason ∉ calls := by
  obtain ⟨n, hn, hconclusive⟩ := h
  rw [List.map_append] at hn
  rcases mem_distinct_append hn with hplain | ⟨hmarked, hfirst⟩
  · obtain ⟨call, hcall, rfl⟩ := List.mem_map.mp hplain
    have hfalse := (List.mem_filter.mp hcall).2
    simp [hconclusive] at hfalse
  · obtain ⟨call, hcall, rfl⟩ := List.mem_map.mp hmarked
    obtain ⟨reason, rfl⟩ := conclusive_note_iff.mp hconclusive
    refine ⟨reason, (List.mem_filter.mp hcall).1, fun hplain => ?_⟩
    have hrep := hfirst _ (List.mem_map_of_mem (f := NoteCall.note)
      (List.mem_filter.mpr ⟨hplain, by simp [NoteCall.note]⟩))
    rw [repeats_blocked_iff.mpr (.inr rfl)] at hrep
    cases hrep

variable {t : PassingTest} {file : JsString} {s : SoftSkips}

/-- After assertions a test is blocked by a marked fold, or by any blocked one where those stand. -/
theorem disposition_of_asserted (h : t.assertionCalls > 0) {note : ItNote}
    (hfold : fold (calls.map NoteCall.note) = some note) : t.disposition file s calls =
      if note.kind = .blocked ∧ (note.conclusive = true ∨ t.blockedStands = true) then .blocked
      else .executedPass := by
  rw [PassingTest.disposition, softSkipDispositionSince_runNotes, hfold]
  unfold resolveItRecord
  rw [if_neg (by decide), if_pos ⟨rfl, h⟩]
  dsimp only
  split <;> rfl

theorem disposition_of_asserted_none (h : t.assertionCalls > 0)
    (hfold : fold (calls.map NoteCall.note) = none) :
    t.disposition file s calls = .executedPass := by
  rw [PassingTest.disposition, softSkipDispositionSince_runNotes, hfold]
  unfold resolveItRecord
  rw [if_neg (by decide), if_pos ⟨rfl, h⟩]

/-- Without assertions a test takes its gate's decision, else the folded kind. -/
theorem disposition_of_unasserted (h : t.assertionCalls = 0) : t.disposition file s calls =
    (t.gate.map fun gate => GateReason.disposition gate.reason).getD
      (((fold (calls.map NoteCall.note)).map fun note => note.kind.disposition).getD .blocked) := by
  rw [PassingTest.disposition, softSkipDispositionSince_runNotes,
    resolveItRecord_of_unasserted (by decide) (by simp [h]), if_pos rfl]

/-- The folded kind does not depend on the order of the notes. -/
theorem map_kind_fold_perm {arr arr' : List ItNote} (h : arr'.Perm arr) :
    (fold arr').map ItNote.kind = (fold arr).map ItNote.kind := by
  have hinj : ∀ kind other : NoteKind, rank kind ≤ rank other → rank other ≤ rank kind →
      kind = other := by
    intro kind other
    cases kind <;> cases other <;> simp [rank]
  cases hfold : fold arr with
  | none =>
    rw [fold_eq_none_iff] at hfold
    subst hfold
    rw [List.Perm.eq_nil h]
    rfl
  | some note =>
    cases hfold' : fold arr' with
    | none =>
      rw [fold_eq_none_iff] at hfold'
      subst hfold'
      rw [← List.Perm.nil_eq h] at hfold
      exact absurd (fold_eq_none_iff.mpr rfl) (by simp [hfold])
    | some note' =>
      obtain ⟨⟨n, hn, hkind⟩, hleast⟩ := fold_kind hfold
      obtain ⟨⟨n', hn', hkind'⟩, hleast'⟩ := fold_kind hfold'
      have hle := hleast n' (h.mem_iff.mp hn')
      have hle' := hleast' n (h.mem_iff.mpr hn)
      rw [hkind'] at hle
      rw [hkind] at hle'
      simp only [Option.map_some]
      rw [hinj _ _ hle' hle]

/-- A marked note among the calls makes the folded kind `blocked`. -/
theorem fold_of_blocked {reason : JsString} (hmem : .blockedDespiteAssertions reason ∈ calls) :
    ∃ note, fold (calls.map NoteCall.note) = some note ∧ note.kind = .blocked := by
  cases hfold : fold (calls.map NoteCall.note) with
  | none =>
    rw [fold_eq_none_iff, List.map_eq_nil_iff] at hfold
    simp [hfold] at hmem
  | some note =>
    have hle := (fold_kind hfold).2 _ (List.mem_map_of_mem (f := NoteCall.note) hmem)
    refine ⟨note, rfl, ?_⟩
    cases hkind : note.kind <;> simp [hkind, rank, NoteCall.note] at hle ⊢

/-- Where `blocked` does not stand by itself, a mark that survives the fold decides. -/
theorem disposition_eq_blocked_iff (h : t.assertionCalls > 0) (hstands : t.blockedStands = false) :
    t.disposition file s calls = .blocked ↔
      ∃ n ∈ distinct (calls.map NoteCall.note), n.conclusive = true := by
  cases hfold : fold (calls.map NoteCall.note) with
  | none =>
    rw [disposition_of_asserted_none h hfold, fold_eq_none_iff.mp hfold]
    simp [distinct]
  | some note =>
    rw [disposition_of_asserted h hfold, ← fold_conclusive hfold, hstands]
    constructor
    · intro hblocked
      split at hblocked
      · next hnote => simpa using hnote.2
      · cases hblocked
    · intro hconclusive
      obtain ⟨n, hn, hmarked⟩ := (fold_conclusive hfold).mp hconclusive
      obtain ⟨call, hcall, rfl⟩ := List.mem_map.mp (distinct_subset _ hn)
      obtain ⟨reason, rfl⟩ := conclusive_note_iff.mp hmarked
      obtain ⟨note', hnote', hkind⟩ := fold_of_blocked hcall
      obtain rfl := Option.some.inj (hfold.symm.trans hnote')
      rw [if_pos ⟨hkind, Or.inl hconclusive⟩]

/-- A test with assertions comes out blocked or passes. -/
theorem disposition_cases (h : t.assertionCalls > 0) :
    t.disposition file s calls = .blocked ∨ t.disposition file s calls = .executedPass := by
  cases hfold : fold (calls.map NoteCall.note) with
  | none => exact Or.inr (disposition_of_asserted_none h hfold)
  | some note =>
    rw [disposition_of_asserted h hfold]
    split
    · exact Or.inl rfl
    · exact Or.inr rfl

/-- Without assertions, or where `blocked` stands, only the folded kind matters. -/
theorem disposition_of_kind (h : t.assertionCalls = 0 ∨ t.blockedStands = true)
    {calls' : List NoteCall}
    (hkind : (fold (calls'.map NoteCall.note)).map ItNote.kind =
      (fold (calls.map NoteCall.note)).map ItNote.kind) :
    t.disposition file s calls' = t.disposition file s calls := by
  by_cases hcalls : t.assertionCalls = 0
  · rw [disposition_of_unasserted hcalls, disposition_of_unasserted hcalls]
    have hmap := congrArg (Option.map NoteKind.disposition) hkind
    rw [Option.map_map, Option.map_map] at hmap
    change _ = (t.gate.map _).getD ((Option.map (NoteKind.disposition ∘ ItNote.kind) _).getD _)
    rw [← hmap]
    rfl
  · have hpos : t.assertionCalls > 0 := Nat.pos_of_ne_zero hcalls
    have hstands := h.resolve_left hcalls
    cases hfold : fold (calls.map NoteCall.note) with
    | none =>
      rw [hfold, Option.map_none, Option.map_eq_none_iff] at hkind
      rw [disposition_of_asserted_none hpos hfold, disposition_of_asserted_none hpos hkind]
    | some note =>
      rw [hfold, Option.map_some, Option.map_eq_some_iff] at hkind
      obtain ⟨note', hfold', hkind⟩ := hkind
      rw [disposition_of_asserted hpos hfold, disposition_of_asserted hpos hfold', hkind, hstands]
      simp

/-- Notes are taken for what they say exactly when no assertion was counted, `blocked` stands by
itself, nothing was marked, or some marked note has a reason that no plain `blocked` note has. -/
theorem notesStand_iff (t : PassingTest) (file : JsString) (s : SoftSkips) (calls : List NoteCall) :
    NotesStand t file s calls ↔ t.assertionCalls = 0 ∨ t.blockedStands = true ∨
      (∀ reason, .blockedDespiteAssertions reason ∉ calls) ∨
      ∃ reason, .blockedDespiteAssertions reason ∈ calls ∧ .softSkip .blocked reason ∉ calls := by
  constructor
  · intro h
    by_contra! hnone
    obtain ⟨hcalls, hstands, ⟨reason, hreason⟩, hrepeated⟩ := hnone
    have hpos : t.assertionCalls > 0 := Nat.pos_of_ne_zero hcalls
    rw [ne_eq, Bool.not_eq_true] at hstands
    set calls' := calls.filter (fun call => call.note.conclusive = false) ++
      calls.filter fun call => call.note.conclusive = true with hcalls'
    have hperm : calls'.Perm calls := by
      refine List.Perm.trans (List.Perm.of_eq ?_) (List.filter_append_perm
        (fun call : NoteCall => decide (call.note.conclusive = false)) calls)
      rw [hcalls']
      congr 2
      ext call
      simp
    have hblocked := h.blocked ⟨reason, hreason⟩ (.inl hpos)
    rw [← h.ordered calls' hperm, disposition_eq_blocked_iff hpos hstands] at hblocked
    obtain ⟨r, hr, hplain⟩ := exists_unrepeated_of_conclusive hblocked
    exact hplain (hrepeated r hr)
  · intro h
    by_cases hsettled : t.assertionCalls = 0 ∨ t.blockedStands = true
    · refine ⟨fun ⟨reason, hreason⟩ hgate => ?_, fun calls' hperm =>
        disposition_of_kind hsettled (map_kind_fold_perm (hperm.map NoteCall.note))⟩
      obtain ⟨note, hfold, hkind⟩ := fold_of_blocked hreason
      by_cases hcalls : t.assertionCalls = 0
      · have hgate := hgate.resolve_left (by omega)
        rw [disposition_of_unasserted hcalls, hgate, hfold]
        simp [hkind, NoteKind.disposition]
      · rw [disposition_of_asserted (Nat.pos_of_ne_zero hcalls) hfold,
          if_pos ⟨hkind, Or.inr (hsettled.resolve_left hcalls)⟩]
    · rw [not_or, Bool.not_eq_true] at hsettled
      obtain ⟨hcalls, hstands⟩ := hsettled
      have hpos : t.assertionCalls > 0 := Nat.pos_of_ne_zero hcalls
      have hnotes := (h.resolve_left hcalls).resolve_left (by simp [hstands])
      rcases hnotes with hplain | ⟨reason, hmem, hplain⟩
      · have hpass : ∀ calls', calls'.Perm calls → t.disposition file s calls' = .executedPass := by
          refine fun calls' hperm => (disposition_cases hpos).resolve_left fun hblocked => ?_
          obtain ⟨n, hn, hmarked⟩ := (disposition_eq_blocked_iff hpos hstands).mp hblocked
          obtain ⟨call, hcall, rfl⟩ := List.mem_map.mp (distinct_subset _ hn)
          obtain ⟨reason, rfl⟩ := conclusive_note_iff.mp hmarked
          exact hplain reason (hperm.mem_iff.mp hcall)
        refine ⟨fun ⟨reason, hreason⟩ => absurd hreason (hplain reason), fun calls' hperm => ?_⟩
        rw [hpass calls' hperm, hpass calls (List.Perm.refl _)]
      · have hblocked : ∀ calls', calls'.Perm calls → t.disposition file s calls' = .blocked :=
          fun calls' hperm => (disposition_eq_blocked_iff hpos hstands).mpr
            (exists_conclusive_of_unrepeated (hperm.mem_iff.mpr hmem)
              fun h => hplain (hperm.mem_iff.mp h))
        refine ⟨fun _ _ => hblocked calls (List.Perm.refl _), fun calls' hperm => ?_⟩
        rw [hblocked calls' hperm, hblocked calls (List.Perm.refl _)]

/-- A passing test with one assertion, at major 1. -/
def assertedTest : PassingTest where
  assertionCalls := 1
  gate := none
  firstError := none
  blockedStands := false
  name := js "dead letter"

/-- One reason noted plainly and then marked to stand. -/
def repeatedReason : List NoteCall :=
  [.softSkip .blocked (js "window closed"), .blockedDespiteAssertions (js "window closed")]

/-- The marked note is dropped as a repetition, and the test passes. -/
theorem repeatedReason_not_stand :
    ¬ NotesStand assertedTest (js "a.test.ts") SoftSkips.initial repeatedReason := by
  intro h
  have hblocked := h.blocked ⟨js "window closed", by decide⟩ (.inl (by decide))
  rw [disposition_eq_blocked_iff (by decide) rfl] at hblocked
  exact absurd hblocked (by decide)

end OpenWop.SoftSkip
