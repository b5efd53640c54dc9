import Mathlib.Data.List.Nodup
import Mathlib.Logic.Function.Basic

/-!
# A table of leases

Owners make entries in a shared table, each with the time it was last touched. An entry that is
older than the lease may be evicted by anyone. While no owner keeps an entry past the lease, the
entries of the owners are there and no two owners have one entry.
-/

namespace OpenWop.Core

variable {D W : Type}

section Table

variable [DecidableEq D]

/-- What one step of an owner does to the table and to the entries it has. -/
inductive LeaseEffect (lease now : Nat) (table : D → Option Nat) :
    List D → (D → Option Nat) → List D → Prop
  | quiet {locks : List D} : LeaseEffect lease now table locks table locks
  | take {locks : List D} {d : D} : table d = none →
      LeaseEffect lease now table locks (Function.update table d (some now)) (d :: locks)
  | touch {locks : List D} {d : D} : d ∈ locks →
      LeaseEffect lease now table locks (Function.update table d (some now)) locks
  | release {locks : List D} {d : D} :
      LeaseEffect lease now table (d :: locks) (Function.update table d none) locks
  /-- The owner finds that its entry is gone. -/
  | lose {locks : List D} {d : D} : table d = none →
      LeaseEffect lease now table (d :: locks) table locks
  | evict {locks : List D} {d : D} {touched : Nat} :
      touched + lease < now → table d = none ∨ table d = some touched →
      LeaseEffect lease now table locks (Function.update table d none) locks

end Table

/-- The entries of the owners are there, within the lease, and have one owner. -/
structure Owned (lease now : Nat) (table : D → Option Nat) (locks : W → List D) : Prop where
  present : ∀ w, ∀ d ∈ locks w, table d ≠ none
  once : ∀ w, (locks w).Nodup
  alone : ∀ v w, v ≠ w → ∀ d ∈ locks v, d ∉ locks w
  fresh : ∀ w, ∀ d ∈ locks w, ∀ touched, table d = some touched → now ≤ touched + lease

/-- Every entry has an owner. -/
def Accounted (table : D → Option Nat) (locks : W → List D) : Prop :=
  ∀ d, table d ≠ none → ∃ w, d ∈ locks w

variable {lease now : Nat} {table table' : D → Option Nat} {locks : W → List D} {w : W}
  {locks' : List D}

/-- Time passes within the leases. -/
theorem Owned.tick (h : Owned lease now table locks) {later : Nat}
    (hlater : ∀ w, ∀ d ∈ locks w, ∀ touched, table d = some touched → later ≤ touched + lease) :
    Owned lease later table locks :=
  ⟨h.present, h.once, h.alone, hlater⟩

section Write

variable [DecidableEq D]

/-- A write to an entry that no owner has. -/
theorem Owned.write (h : Owned lease now table locks) {d : D} (hd : ∀ v, d ∉ locks v)
    (entry : Option Nat) : Owned lease now (Function.update table d entry) locks := by
  have hne : ∀ v, ∀ e ∈ locks v, Function.update table d entry e = table e := by
    rintro v e he
    refine Function.update_of_ne ?_ _ _
    rintro rfl
    exact hd v he
  refine ⟨fun v e he => ?_, h.once, h.alone, fun v e he => ?_⟩
  · rw [hne v e he]
    exact h.present v e he
  · rw [hne v e he]
    exact h.fresh v e he

/-- A touch of an entry. -/
theorem Owned.touch (h : Owned lease now table locks) (d : D) :
    Owned lease now (Function.update table d (some now)) locks := by
  refine ⟨fun v e he => ?_, h.once, h.alone, fun v e he touched => ?_⟩
  · by_cases hed : e = d
    · rw [hed, Function.update_self]
      exact Option.some_ne_none _
    · rw [Function.update_of_ne hed]
      exact h.present v e he
  · by_cases hed : e = d
    · rw [hed, Function.update_self, Option.some.injEq]
      omega
    · rw [Function.update_of_ne hed]
      exact h.fresh v e he touched

end Write

variable [DecidableEq W]

theorem mem_update_iff {v : W} {d : D} :
    d ∈ Function.update locks w locks' v ↔ v = w ∧ d ∈ locks' ∨ v ≠ w ∧ d ∈ locks v := by
  by_cases h : v = w
  · rw [h, Function.update_self]
    simp
  · rw [Function.update_of_ne h]
    simp [h]

/-- An owner may leave entries in the table. -/
theorem Owned.drop (h : Owned lease now table locks) (hsub : List.Sublist locks' (locks w)) :
    Owned lease now table (Function.update locks w locks') := by
  have hold : ∀ v, ∀ d ∈ Function.update locks w locks' v, d ∈ locks v := by
    intro v d hd
    obtain ⟨rfl, hnew⟩ | ⟨-, hkept⟩ := mem_update_iff.mp hd
    · exact hsub.subset hnew
    · exact hkept
  refine ⟨fun v d hd => h.present v d (hold v d hd), fun v => ?_,
    fun v u hne d hd hd' => h.alone v u hne d (hold v d hd) (hold u d hd'),
    fun v d hd => h.fresh v d (hold v d hd)⟩
  by_cases hv : v = w
  · rw [hv, Function.update_self]
    exact (h.once w).sublist hsub
  · rw [Function.update_of_ne hv]
    exact h.once v

/-- A new entry for an owner. -/
theorem Owned.take (h : Owned lease now table locks) {d : D} (hd : ∀ v, d ∉ locks v)
    (hin : table d ≠ none) (hfresh : ∀ touched, table d = some touched → now ≤ touched + lease) :
    Owned lease now table (Function.update locks w (d :: locks w)) := by
  have hcases : ∀ v, ∀ e ∈ Function.update locks w (d :: locks w) v, v = w ∧ e = d ∨ e ∈ locks v := by
    intro v e he
    obtain ⟨hv, hnew⟩ | ⟨-, hkept⟩ := mem_update_iff.mp he
    · exact (List.mem_cons.mp hnew).imp (⟨hv, ·⟩) (hv ▸ ·)
    · exact Or.inr hkept
  refine ⟨fun v e he => ?_, fun v => ?_, fun v u hne e he he' => ?_, fun v e he => ?_⟩
  · obtain ⟨-, rfl⟩ | he := hcases v e he
    · exact hin
    · exact h.present v e he
  · by_cases hv : v = w
    · rw [hv, Function.update_self]
      exact List.nodup_cons.mpr ⟨hd w, h.once w⟩
    · rw [Function.update_of_ne hv]
      exact h.once v
  · obtain ⟨hv, hed⟩ | hold := hcases v e he
    · obtain ⟨hu, -⟩ | hold' := hcases u e he'
      · exact hne (hv.trans hu.symm)
      · exact hd u (hed ▸ hold')
    · obtain ⟨-, hed⟩ | hold' := hcases u e he'
      · exact hd v (hed ▸ hold)
      · exact h.alone v u hne e hold hold'
  · obtain ⟨-, rfl⟩ | he := hcases v e he
    · exact hfresh
    · exact h.fresh v e he

section Effect

variable [DecidableEq D]

/-- Ownership is kept by every step. -/
theorem Owned.effect (h : Owned lease now table locks)
    (he : LeaseEffect lease now table (locks w) table' locks') :
    Owned lease now table' (Function.update locks w locks') := by
  generalize hw : locks w = mine at he
  cases he with
  | quiet => rwa [← hw, Function.update_eq_self]
  | @take _ d hnone =>
    have hd : ∀ v, d ∉ locks v := fun v hin => h.present v d hin hnone
    have hself := Function.update_self d (some now) table
    rw [← hw]
    refine (h.write hd (some now)).take hd (by rw [hself]; exact Option.some_ne_none _) ?_
    intro touched htouched
    rw [hself, Option.some.injEq] at htouched
    omega
  | touch _ =>
    rw [← hw, Function.update_eq_self]
    exact h.touch _
  | @release _ d =>
    have hsub : List.Sublist locks' (locks w) := hw ▸ List.sublist_cons_self d locks'
    refine (h.drop hsub).write ?_ none
    intro v hv
    have hmine : d ∈ locks w := hw ▸ List.mem_cons_self
    obtain ⟨-, hd⟩ | ⟨hne, hd⟩ := mem_update_iff.mp hv
    · exact (List.nodup_cons.mp (hw ▸ h.once w)).1 hd
    · exact h.alone v w hne d hd hmine
  | @lose _ d _ => exact h.drop (hw ▸ List.sublist_cons_self d locks')
  | @evict _ d touched hold hentry =>
    rw [← hw, Function.update_eq_self]
    refine h.write ?_ none
    intro v hv
    obtain hentry | hentry := hentry
    · exact h.present v d hv hentry
    · have hfresh := h.fresh v d hv touched hentry
      omega

/-- Where each entry has an owner, each has one after a step. -/
theorem Accounted.effect (h : Accounted table locks)
    (he : LeaseEffect lease now table (locks w) table' locks') :
    Accounted table' (Function.update locks w locks') := by
  generalize hw : locks w = mine at he
  intro e hin
  have hkeep : (∃ v, e ∈ locks v) → (e ∈ mine → e ∈ locks') →
      ∃ v, e ∈ Function.update locks w locks' v := by
    rintro ⟨v, hv⟩ hmine
    refine ⟨v, mem_update_iff.mpr ?_⟩
    by_cases hvw : v = w
    · exact Or.inl ⟨hvw, hmine (hw ▸ hvw ▸ hv)⟩
    · exact Or.inr ⟨hvw, hv⟩
  have hsome : ∀ {d : D}, Function.update table d none e ≠ none → e ≠ d ∧ table e ≠ none := by
    intro d hd
    by_cases hed : e = d
    · rw [hed, Function.update_self] at hd
      exact absurd rfl hd
    · rw [Function.update_of_ne hed] at hd
      exact ⟨hed, hd⟩
  cases he with
  | quiet => exact hkeep (h e hin) id
  | @take _ d hnone =>
    by_cases hed : e = d
    · exact ⟨w, mem_update_iff.mpr (Or.inl ⟨rfl, hed ▸ List.mem_cons_self⟩)⟩
    · rw [Function.update_of_ne hed] at hin
      exact hkeep (h e hin) (List.mem_cons_of_mem _)
  | @touch _ d hd =>
    by_cases hed : e = d
    · exact ⟨w, mem_update_iff.mpr (Or.inl ⟨rfl, hed ▸ hd⟩)⟩
    · rw [Function.update_of_ne hed] at hin
      exact hkeep (h e hin) id
  | release =>
    obtain ⟨hed, hin⟩ := hsome hin
    exact hkeep (h e hin) fun hmem => (List.mem_cons.mp hmem).resolve_left hed
  | lose hnone =>
    refine hkeep (h e hin) fun hmem => (List.mem_cons.mp hmem).resolve_left ?_
    rintro rfl
    exact hin hnone
  | evict _ _ =>
    obtain ⟨-, hin⟩ := hsome hin
    exact hkeep (h e hin) id

end Effect

end OpenWop.Core
