import OpenWop.OptOut.Recorder

/-!
# Soft-skip notes

A test that returns early notes why, under its file. Every note carries a number, so the
recorder of a test reads the notes written since the test began and the recorder of a file
reads them all. Both fold what they read into one note: the least certifiable kind, the
distinct reasons, and whether a distinct note was marked conclusive.
-/

namespace OpenWop.SoftSkip

open OpenWop.Js OpenWop.Ledger OpenWop.Certification OpenWop.OptOut

section Fold

/-- `RANK`: the least certifiable kind first. -/
def rank : NoteKind → Nat
  | .blocked => 0
  | .skipped => 1
  | .inapplicable => 2

/-- The ranks of the kinds order their dispositions by certifiability. -/
theorem rank_le_iff (kind other : NoteKind) : rank kind ≤ rank other ↔
    certifiabilityRank kind.disposition ≤ certifiabilityRank other.disposition := by
  cases kind <;> cases other <;> decide

/-- Two notes of one kind and one reason. -/
def repeats (u n : ItNote) : Bool := u.kind = n.kind ∧ u.reason = n.reason

/-- `uniq`: the first note of every kind and reason. -/
def distinct (arr : List ItNote) : List ItNote :=
  arr.foldl (fun uniq n => if uniq.any (repeats · n) then uniq else uniq ++ [n]) []

/-- How a note is quoted among several. -/
def quoted (several : Bool) (n : ItNote) : JsString :=
  if several then js "[" ++ n.kind.disposition.text ++ js "] " ++ n.reason else n.reason

/-- `fold`. -/
def fold (arr : List ItNote) : Option ItNote :=
  let uniq := distinct arr
  match sortBy (Comparator.byNat.on fun n => rank n.kind) uniq with
  | [] => none
  | first :: _ => some {
      kind := first.kind
      reason := join (js "; ") (uniq.map (quoted (uniq.length > 1)))
      conclusive := uniq.any ItNote.conclusive }

theorem repeats_iff {u n : ItNote} :
    repeats u n = true ↔ u.kind = n.kind ∧ u.reason = n.reason := by
  simp [repeats]

theorem distinct_append_singleton (arr : List ItNote) (n : ItNote) : distinct (arr ++ [n]) =
    if (distinct arr).any (repeats · n) then distinct arr else distinct arr ++ [n] := by
  rw [distinct, List.foldl_append]
  rfl

theorem distinct_subset (arr : List ItNote) : distinct arr ⊆ arr := by
  induction arr using List.reverseRecOn with
  | nil => exact List.Subset.refl _
  | append_singleton arr n ih =>
    rw [distinct_append_singleton]
    split
    · exact List.Subset.trans ih (List.subset_append_left ..)
    · exact List.append_subset.mpr
        ⟨List.Subset.trans ih (List.subset_append_left ..), List.subset_append_right ..⟩

/-- Every note is represented by one of its kind and reason. -/
theorem exists_distinct {arr : List ItNote} {n : ItNote} (hn : n ∈ arr) :
    ∃ u ∈ distinct arr, repeats u n = true := by
  induction arr using List.reverseRecOn with
  | nil => cases hn
  | append_singleton arr last ih =>
    rw [distinct_append_singleton]
    rcases List.mem_append.mp hn with hn | hn
    · obtain ⟨u, hu, hrep⟩ := ih hn
      refine ⟨u, ?_, hrep⟩
      split
      · exact hu
      · exact List.mem_append_left _ hu
    · obtain rfl := List.mem_singleton.mp hn
      split
      · next hany => exact List.any_eq_true.mp hany
      · exact ⟨n, by simp, repeats_iff.mpr ⟨rfl, rfl⟩⟩

/-- A later note is distinct only when no earlier one repeats it. -/
theorem mem_distinct_append {arr later : List ItNote} {n : ItNote}
    (hn : n ∈ distinct (arr ++ later)) : n ∈ arr ∨ n ∈ later ∧ ∀ m ∈ arr, repeats m n = false := by
  induction later using List.reverseRecOn with
  | nil =>
    rw [List.append_nil] at hn
    exact Or.inl (distinct_subset arr hn)
  | append_singleton later last ih =>
    have hold (h : n ∈ distinct (arr ++ later)) :
        n ∈ arr ∨ n ∈ later ++ [last] ∧ ∀ m ∈ arr, repeats m n = false :=
      (ih h).imp_right fun h => ⟨List.mem_append_left _ h.1, h.2⟩
    rw [← List.append_assoc, distinct_append_singleton] at hn
    split at hn
    · exact hold hn
    · next hnone =>
      rcases List.mem_append.mp hn with hn | hn
      · exact hold hn
      · obtain rfl := List.mem_singleton.mp hn
        refine Or.inr ⟨by simp, fun m hm => ?_⟩
        obtain ⟨u, hu, hrep⟩ := exists_distinct (List.mem_append_left later hm)
        have hun : repeats u n = false := by
          simpa using List.any_eq_false.mp (Bool.eq_false_iff.mpr hnone) u hu
        rw [← Bool.not_eq_true, repeats_iff] at hun ⊢
        rw [repeats_iff] at hrep
        rwa [← hrep.1, ← hrep.2]

theorem fold_eq_none_iff {arr : List ItNote} : fold arr = none ↔ arr = [] := by
  constructor
  · intro h
    simp only [fold] at h
    split at h
    · next hnil =>
      refine List.eq_nil_iff_forall_not_mem.mpr fun n hn => ?_
      obtain ⟨u, hu, -⟩ := exists_distinct hn
      rw [← mem_sortBy (c := Comparator.byNat.on fun n => rank n.kind), hnil] at hu
      cases hu
    · cases h
  · rintro rfl
    rfl

/-- The kind of the fold is the least certifiable kind that was noted. -/
theorem fold_kind {arr : List ItNote} {note : ItNote} (h : fold arr = some note) :
    (∃ n ∈ arr, n.kind = note.kind) ∧ ∀ n ∈ arr, rank note.kind ≤ rank n.kind := by
  simp only [fold] at h
  split at h
  · cases h
  · next first rest hsort =>
    cases h
    have hfirst : first ∈ distinct arr := mem_sortBy.mp (hsort ▸ List.mem_cons_self ..)
    refine ⟨⟨first, distinct_subset arr hfirst, rfl⟩, fun n hn => ?_⟩
    obtain ⟨u, hu, hrep⟩ := exists_distinct hn
    change rank first.kind ≤ rank n.kind
    rw [← (repeats_iff.mp hrep).1]
    by_cases hne : u = first
    · rw [hne]
    · have hle := compare_head_sortBy hsort hu hne
      simp only [Comparator.on, Comparator.byNat] at hle
      omega

/-- The fold is marked when a distinct note is. -/
theorem fold_conclusive {arr : List ItNote} {note : ItNote} (h : fold arr = some note) :
    note.conclusive = true ↔ ∃ n ∈ distinct arr, n.conclusive = true := by
  simp only [fold] at h
  split at h
  · cases h
  · cases h
    exact List.any_eq_true

end Fold

section Store

/-- `Note`: a stored note and its number. -/
structure Note extends ItNote where
  seq : Nat
  deriving DecidableEq, Repr

/-- The notes of every file, and the last number given. -/
structure SoftSkips where
  notes : Map JsString (List Note)
  seq : Nat
  bounded : ∀ file arr, notes.get? file = some arr → ∀ n ∈ arr, n.seq ≤ seq

/-- `resetSoftSkips`: nothing noted. -/
def SoftSkips.initial : SoftSkips := ⟨Map.empty, 0, fun _ _ h => by cases h⟩

/-- `notes.get(file) ?? []`. -/
def SoftSkips.of (s : SoftSkips) (file : JsString) : List Note := (s.notes.get? file).getD []

theorem SoftSkips.seq_le_of_mem {s : SoftSkips} {file : JsString} {n : Note} (h : n ∈ s.of file) :
    n.seq ≤ s.seq := by
  rw [SoftSkips.of] at h
  cases hget : s.notes.get? file with
  | none => simp [hget] at h
  | some arr => exact s.bounded file arr hget n (by simpa [hget] using h)

/-- Store a note of a file under the next number. -/
def SoftSkips.push (s : SoftSkips) (file : JsString) (note : ItNote) : SoftSkips where
  notes := s.notes.set file (s.of file ++ [{ note with seq := s.seq + 1 }])
  seq := s.seq + 1
  bounded other arr h n hn := by
    rw [Map.get?_set] at h
    split at h
    · obtain rfl := Option.some.inj h
      rcases List.mem_append.mp hn with hn | hn
      · exact Nat.le_succ_of_le (seq_le_of_mem hn)
      · rw [List.mem_singleton.mp hn]
    · exact Nat.le_succ_of_le (s.bounded other arr h n hn)

/-- A call that leaves a note. -/
inductive NoteCall where
  /-- `softSkip`. -/
  | softSkip (kind : NoteKind) (reason : JsString)
  /-- `blockedDespiteAssertions`. -/
  | blockedDespiteAssertions (reason : JsString)
  deriving DecidableEq, Repr

/-- The note a call leaves. -/
def NoteCall.note : NoteCall → ItNote
  | .softSkip kind reason => { kind, reason }
  | .blockedDespiteAssertions reason => { kind := .blocked, reason, conclusive := true }

/-- The store after a call, made while a file runs or outside of any. -/
def NoteCall.run (currentFile : Option JsString) (s : SoftSkips) (call : NoteCall) : SoftSkips :=
  match currentFile with
  | none => s
  | some file => s.push file call.note

/-- The store after the calls of a file. -/
def runNotes (file : JsString) (s : SoftSkips) (calls : List NoteCall) : SoftSkips :=
  calls.foldl (NoteCall.run (some file)) s

/-- `softSkipMark`. -/
def softSkipMark (s : SoftSkips) : Nat := s.seq

/-- `softSkipDisposition`. -/
def softSkipDisposition (s : SoftSkips) (file : JsString) : Option ItNote :=
  fold ((s.of file).map Note.toItNote)

/-- `softSkipDispositionSince`. -/
def softSkipDispositionSince (s : SoftSkips) (file : JsString) (mark : Nat) : Option ItNote :=
  fold (((s.of file).filter fun n => n.seq > mark).map Note.toItNote)

@[simp] theorem SoftSkips.of_push (s : SoftSkips) (file other : JsString) (note : ItNote) :
    (s.push file note).of other =
      if other = file then s.of file ++ [{ note with seq := s.seq + 1 }] else s.of other := by
  rw [SoftSkips.of, SoftSkips.push, Map.get?_set]
  split <;> rfl

theorem seq_runNotes (file : JsString) (s : SoftSkips) (calls : List NoteCall) :
    (runNotes file s calls).seq = s.seq + calls.length := by
  induction calls using List.reverseRecOn with
  | nil => rfl
  | append_singleton calls call ih =>
    rw [runNotes, List.foldl_append, ← runNotes, List.length_append]
    change (runNotes file s calls).seq + 1 = _
    rw [ih, List.length_singleton, Nat.add_assoc]

/-- The calls of a file add their notes to it, numbered above all before. -/
theorem of_runNotes (file : JsString) (s : SoftSkips) (calls : List NoteCall) :
    ∃ added : List Note, (runNotes file s calls).of file = s.of file ++ added ∧
      added.map Note.toItNote = calls.map NoteCall.note ∧ ∀ n ∈ added, s.seq < n.seq := by
  induction calls using List.reverseRecOn with
  | nil => exact ⟨[], by simp [runNotes], rfl, fun _ h => by cases h⟩
  | append_singleton calls call ih =>
    obtain ⟨added, hof, hnotes, hseq⟩ := ih
    refine ⟨added ++ [{ call.note with seq := s.seq + calls.length + 1 }], ?_, ?_, fun n hn => ?_⟩
    · rw [runNotes, List.foldl_append, ← runNotes]
      change ((runNotes file s calls).push file call.note).of file = _
      rw [SoftSkips.of_push, if_pos rfl, hof, seq_runNotes, List.append_assoc]
    · rw [List.map_append, List.map_append, hnotes]
      rfl
    · rcases List.mem_append.mp hn with hn | hn
      · exact hseq n hn
      · rw [List.mem_singleton.mp hn]
        change s.seq < s.seq + calls.length + 1
        omega

/-- The notes since a mark are those of the calls made since. -/
theorem softSkipDispositionSince_runNotes (file : JsString) (s : SoftSkips)
    (calls : List NoteCall) :
    softSkipDispositionSince (runNotes file s calls) file (softSkipMark s) =
      fold (calls.map NoteCall.note) := by
  obtain ⟨added, hof, hnotes, hseq⟩ := of_runNotes file s calls
  have hbefore : (s.of file).filter (fun n => n.seq > s.seq) = [] :=
    List.filter_eq_nil_iff.mpr fun n hn => by simpa using SoftSkips.seq_le_of_mem hn
  have hafter : added.filter (fun n => n.seq > s.seq) = added :=
    List.filter_eq_self.mpr fun n hn => by simpa using hseq n hn
  rw [softSkipDispositionSince, softSkipMark, hof, List.filter_append, hbefore, hafter,
    List.nil_append, hnotes]

end Store

/-- A test that neither failed nor passed with an assertion takes its gate's decision, else its
note. -/
theorem resolveItRecord_of_unasserted {state : FileTestState} {assertionCalls : Nat}
    (hfail : state ≠ .fail) (hpass : ¬ (state = .pass ∧ assertionCalls > 0))
    (gate : Option GateNote) (noted : Option ItNote) (firstError : Option JsString)
    (blockedStands : Bool) (testName : JsString) :
    (resolveItRecord state assertionCalls gate noted firstError blockedStands
      testName).disposition = (gate.map fun gate => GateReason.disposition gate.reason).getD
        ((noted.map fun note => note.kind.disposition).getD
          (if state = .pass then .blocked else .skipped)) := by
  unfold resolveItRecord
  rw [if_neg hfail, if_neg hpass]
  rcases gate with _ | gate
  · rcases noted with _ | note
    · dsimp only
      split <;> rfl
    · rfl
  · rfl

end OpenWop.SoftSkip
