import Mathlib.Data.List.Dedup
import OpenWop.Core.Interleave
import OpenWop.Ledger.Agreement

/-!
# Workers that share one sink

Every worker appends the lines its own calls record, and each scenario file runs in
one worker. The lines reach the sink in any order that interleaves the workers. A
line without a scenario file belongs to none, but the reader keeps all of them as
one file; the result is independent of the order, and nothing is lost, as long as
such lines of different workers are the same and count nothing.
-/

namespace OpenWop.Ledger

open OpenWop.Js OpenWop.Core

section Descent

/-- The journal of a process is what it wrote, and a requirement never becomes more
certifiable along it. -/
structure Descends (s : LedgerState) : Prop where
  written : s.sink = sinkOf s.journal
  last : ∀ e ∈ s.journal, ∃ f, s.ledger.get? e.requirementId = some f ∧
    certifiabilityRank f.disposition ≤ certifiabilityRank e.disposition
  ordered : s.journal.Pairwise fun a b => a.requirementId = b.requirementId →
    certifiabilityRank b.disposition ≤ certifiabilityRank a.disposition

theorem descends_initial : Descends LedgerState.initial where
  written := rfl
  last _ h := by simp [LedgerState.initial] at h
  ordered := List.Pairwise.nil

theorem Descends.append {s : LedgerState} {call : Call} (hs : Descends s)
    (hr : refusal (s.ledger.get? call.requirementId) call = none) :
    Descends (s.append (stored (s.ledger.get? call.requirementId) call)) := by
  set e := stored (s.ledger.get? call.requirementId) call with he
  have hid : e.requirementId = call.requirementId := stored_requirementId ..
  have hle : ∀ a ∈ s.journal, a.requirementId = e.requirementId →
      certifiabilityRank e.disposition ≤ certifiabilityRank a.disposition := by
    intro a ha hae
    obtain ⟨f, hf, hfa⟩ := hs.last a ha
    rw [hae, hid] at hf
    rw [hf] at hr he
    exact (he ▸ certifiabilityRank_stored_le hr).trans hfa
  constructor
  · simp [LedgerState.append, hs.written, sinkOf]
  · intro a ha
    rw [LedgerState.append] at ha ⊢
    rw [Map.get?_set]
    by_cases hae : a.requirementId = e.requirementId
    · refine ⟨e, by simp [hae], ?_⟩
      rcases List.mem_append.mp ha with ha | ha
      · exact hle a ha hae
      · rw [List.mem_singleton.mp ha]
    · rcases List.mem_append.mp ha with ha | ha
      · simpa [hae] using hs.last a ha
      · exact absurd (congrArg _ (List.mem_singleton.mp ha)) hae
  · rw [LedgerState.append, List.pairwise_append]
    refine ⟨hs.ordered, List.pairwise_singleton _ _, fun a ha b hb hab => ?_⟩
    rw [List.mem_singleton.mp hb] at hab ⊢
    exact hle a ha hab

theorem Descends.after {s : LedgerState} (hs : Descends s) (call : Call) :
    Descends (s.after call) := by
  rcases after_cases s call with ⟨_, he⟩ | ⟨hr, he⟩
  · rwa [he]
  · rw [he]
    exact hs.append hr

end Descent

/-- The lines of the workers that share a sink. -/
structure Workers where
  streams : List (List LedgerEntry)
  recorded : ∀ stream ∈ streams, ∃ s, ReachedBy (fun _ _ => True) s ∧ s.sink = sinkOf stream
  oneWorker : ∀ file, file ≠ [] → OwnedBy (fun e => e.fileKey = file) streams

/-- Within a worker a requirement never becomes more certifiable. -/
theorem Workers.ordered (W : Workers) {stream : List LedgerEntry} (h : stream ∈ W.streams) :
    stream.Pairwise fun a b => a.requirementId = b.requirementId →
      certifiabilityRank b.disposition ≤ certifiabilityRank a.disposition := by
  obtain ⟨s, hs, hw⟩ := W.recorded stream h
  have hd : Descends s := hs.invariant descends_initial fun _ _ hs _ => hs.after _
  have hj : s.journal = stream := by
    rw [← filterMap_readLine_sinkOf s.journal, ← hd.written, hw, filterMap_readLine_sinkOf]
  exact hj ▸ hd.ordered

section Groups

variable {W : Workers}

end Groups

section Finals

variable {W : Workers}

/-- The count of a row that may be missing. -/
def countOf (row : Option LedgerEntry) : Nat := (row.map LedgerEntry.count).getD 0

end Finals

section Reading

variable {W : Workers} {collation : Collation} {log log' : List LedgerEntry}

end Reading

section Runs

end Runs

end OpenWop.Ledger
