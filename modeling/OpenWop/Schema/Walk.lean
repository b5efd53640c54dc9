import Mathlib.Data.Set.Basic
import Mathlib.Tactic.Tauto
import OpenWop.Schema.Census

/-!
# What the walk of a schema visits

A node occurs where it is reached from the root by references and steps. The walk visits
a reference once at a path, so that it need not visit every occurrence; what it does
visit is closed under steps, and under references up to what was visited before. A path
all of whose occurrences are within the depth of the walk is covered completely.
-/

namespace OpenWop.Schema

open OpenWop.Js

section Occurrences

/-- A node occurs at a depth, at a path and in a branch. -/
inductive Occurs (schema : Json) : Nat → Job → Prop
  | root : Occurs schema 0 ⟨schema, [], js "root", false⟩
  | ref {depth : Nat} {job : Job} {members : List (JsString × Json)} {ref : JsString}
      {target : Json} (occurs : Occurs schema depth job) (node : job.node = .obj members)
      (refOf : refOf members = some ref) (resolves : resolvePointer schema ref = some target) :
      Occurs schema (depth + 1) ⟨target, job.path, job.branchKey, false⟩
  | step {depth : Nat} {job next : Job} {members : List (JsString × Json)}
      (occurs : Occurs schema depth job) (node : job.node = .obj members)
      (mem : Step.visit next ∈ steps members job.path job.branchKey) :
      Occurs schema (depth + 1) next

/-- The node adds the surface in the branch. -/
def Job.Adds (job : Job) (e : Surface × JsString) : Prop :=
  ∃ members, job.node = .obj members ∧ Step.add e.1 e.2 ∈ steps members job.path job.branchKey

/-- The branch reaches the path at the node. -/
def Job.Reaches (job : Job) (e : JsString × JsString) : Prop :=
  (∃ members, job.node = .obj members) ∧ job.conditionalAtSameSite = false ∧
    e = (job.path, job.branchKey)

end Occurrences

section Visits

/-- What a part of the walk visited, each job with the levels left for it: it is closed under
steps, and under references up to what was seen before. What was collected is accounted for by the
visited jobs and by the part's own additions. -/
structure Visits (schema : Json) (total : Nat) (before after : CensusState)
    (visited : List (Nat × Job)) (adds : Set (Surface × JsString))
    (reaches : Set (JsString × JsString)) (keys : Set JsString) : Prop where
  occurs : ∀ v ∈ visited, v.1 ≤ total ∧ Occurs schema (total - v.1) v.2
  nexts : ∀ levels job, (levels + 1, job) ∈ visited → ∀ members, job.node = .obj members →
    ∀ next, Step.visit next ∈ steps members job.path job.branchKey → (levels, next) ∈ visited
  refs : ∀ levels job, (levels + 1, job) ∈ visited → ∀ members, job.node = .obj members →
    ∀ ref, refOf members = some ref → seenKey ref job.path ∈ after.seen
  targets : ∀ key ∈ after.seen, key ∈ before.seen ∨ key ∈ keys ∨ ∃ levels job members ref,
    (levels + 1, job) ∈ visited ∧ job.node = .obj members ∧ refOf members = some ref ∧
    key = seenKey ref job.path ∧ ∀ target, resolvePointer schema ref = some target →
      (levels, ⟨target, job.path, job.branchKey, false⟩) ∈ visited
  acc : ∀ e, e ∈ after.acc ↔ e ∈ before.acc ∨ e ∈ adds ∨
    ∃ levels job, (levels + 1, job) ∈ visited ∧ job.Adds e
  reached : ∀ e, e ∈ after.reached ↔ e ∈ before.reached ∨ e ∈ reaches ∨
    ∃ levels job, (levels + 1, job) ∈ visited ∧ job.Reaches e
  seen : before.seen ⊆ after.seen

variable {schema : Json} {total levels : Nat} {before mid after st : CensusState}
  {visited visited' : List (Nat × Job)} {adds adds' : Set (Surface × JsString)}
  {reaches reaches' : Set (JsString × JsString)} {keys keys' : Set JsString} {job : Job}
  {members : List (JsString × Json)}

theorem or_regroup {a b c d e : Prop} : ((a ∨ b ∨ c) ∨ d ∨ e) ↔ a ∨ (b ∨ d) ∨ c ∨ e := by
  tauto

theorem Visits.trans (h : Visits schema total before mid visited adds reaches keys)
    (h' : Visits schema total mid after visited' adds' reaches' keys') :
    Visits schema total before after (visited ++ visited') (adds ∪ adds') (reaches ∪ reaches')
      (keys ∪ keys') where
  occurs v hv := (List.mem_append.mp hv).elim (h.occurs v) (h'.occurs v)
  nexts levels job hjob members hnode next hnext := by
    rw [List.mem_append] at hjob ⊢
    exact hjob.imp (fun hj => h.nexts levels job hj members hnode next hnext)
      fun hj => h'.nexts levels job hj members hnode next hnext
  refs levels job hjob members hnode ref href := by
    obtain hj | hj := List.mem_append.mp hjob
    · exact h'.seen (h.refs levels job hj members hnode ref href)
    · exact h'.refs levels job hj members hnode ref href
  targets key hkey := by
    obtain hk | hk | ⟨levels, job, members, ref, hj, hnode, href, hk, ht⟩ := h'.targets key hkey
    · obtain hk | hk | ⟨levels, job, members, ref, hj, hnode, href, hk, ht⟩ := h.targets key hk
      · exact Or.inl hk
      · exact Or.inr (Or.inl (Or.inl hk))
      · exact Or.inr (Or.inr ⟨levels, job, members, ref, List.mem_append_left _ hj, hnode, href, hk,
          fun target hr => List.mem_append_left _ (ht target hr)⟩)
    · exact Or.inr (Or.inl (Or.inr hk))
    · exact Or.inr (Or.inr ⟨levels, job, members, ref, List.mem_append_right _ hj, hnode, href, hk,
        fun target hr => List.mem_append_right _ (ht target hr)⟩)
  acc e := by
    rw [h'.acc, h.acc]
    simp only [List.mem_append, or_and_right, exists_or, Set.mem_union]
    exact or_regroup
  reached e := by
    rw [h'.reached, h.reached]
    simp only [List.mem_append, or_and_right, exists_or, Set.mem_union]
    exact or_regroup
  seen := List.Subset.trans h.seen h'.seen

/-- A part that visits nothing. -/
theorem Visits.of_local (hacc : ∀ e, e ∈ after.acc ↔ e ∈ before.acc ∨ e ∈ adds)
    (hreached : ∀ e, e ∈ after.reached ↔ e ∈ before.reached ∨ e ∈ reaches)
    (htargets : ∀ key ∈ after.seen, key ∈ before.seen ∨ key ∈ keys)
    (hseen : before.seen ⊆ after.seen) :
    Visits schema total before after [] adds reaches keys where
  occurs _ hv := nomatch hv
  nexts _ _ hj := nomatch hj
  refs _ _ hj := nomatch hj
  targets key hkey := (htargets key hkey).imp_right Or.inl
  acc e := by simp [hacc]
  reached e := by simp [hreached]
  seen := hseen

theorem Visits.refl : Visits schema total st st [] ∅ ∅ ∅ := by
  apply Visits.of_local
  · simp
  · simp
  · exact fun _ => Or.inl
  · exact List.Subset.refl _

/-- The call of the walk for every job with so many levels left visits that job. -/
def WalkVisits (schema : Json) (total levels : Nat) : Prop :=
  ∀ st job, Occurs schema (total - levels) job → ∃ visited, (levels, job) ∈ visited ∧
    Visits schema total st (walk schema levels st job) visited ∅ ∅ ∅

/-- The loop over steps. -/
theorem visits_steps (hwalk : WalkVisits schema total levels) (ss : List Step)
    (hss : ∀ next, Step.visit next ∈ ss → Occurs schema (total - levels) next)
    (st : CensusState) :
    ∃ visited, (∀ next, Step.visit next ∈ ss → (levels, next) ∈ visited) ∧
      Visits schema total st (ss.foldl (runStep (walk schema levels)) st) visited
        {e | Step.add e.1 e.2 ∈ ss} ∅ ∅ := by
  induction ss generalizing st with
  | nil =>
    refine ⟨[], by simp, ?_⟩
    simpa using Visits.refl
  | cons step ss ih =>
    obtain ⟨visited, hmem, hvisits⟩ := ih
      (fun next hnext => hss next (List.mem_cons_of_mem _ hnext))
      (runStep (walk schema levels) st step)
    cases step with
    | add surface branchKey =>
      refine ⟨visited, by simpa using hmem, ?_⟩
      have hstep : Visits schema total st { st with acc := st.acc ++ [(surface, branchKey)] } []
          {(surface, branchKey)} ∅ ∅ := by
        apply Visits.of_local <;> simp
      have h := hstep.trans hvisits
      have hadds : ({(surface, branchKey)} ∪ {e | Step.add e.1 e.2 ∈ ss} : Set _) =
          {e | Step.add e.1 e.2 ∈ Step.add surface branchKey :: ss} := by
        ext ⟨s, b⟩
        simp
      simpa [hadds] using h
    | select branchKey selector =>
      refine ⟨visited, by simpa using hmem, ?_⟩
      have hstep : Visits schema total st
          { st with selectorOf := st.selectorOf.set branchKey selector } [] ∅ ∅ ∅ := by
        apply Visits.of_local <;> simp
      have h := hstep.trans hvisits
      simpa using h
    | visit next =>
      obtain ⟨visited', hmem', hvisits'⟩ := hwalk st next (hss next (List.mem_cons_self ..))
      refine ⟨visited' ++ visited, ?_, by simpa using hvisits'.trans hvisits⟩
      intro n hn
      obtain hn | hn := List.mem_cons.mp hn
      · cases hn
        exact List.mem_append_left _ hmem'
      · exact List.mem_append_right _ (hmem n hn)

/-- The reference of a node: its target is visited, unless it was seen at the path. -/
theorem visits_followRef (hwalk : WalkVisits schema total levels) (st : CensusState)
    (hjob : ∀ ref target, refOf members = some ref → resolvePointer schema ref = some target →
      Occurs schema (total - levels) ⟨target, job.path, job.branchKey, false⟩) :
    ∃ visited keys, Visits schema total st (followRef schema (walk schema levels) st members job)
        visited ∅ ∅ keys ∧
      (∀ ref, refOf members = some ref → seenKey ref job.path ∈
        (followRef schema (walk schema levels) st members job).seen) ∧
      ∀ key ∈ keys, ∃ ref, refOf members = some ref ∧ key = seenKey ref job.path ∧
        ∀ target, resolvePointer schema ref = some target →
          (levels, ⟨target, job.path, job.branchKey, false⟩) ∈ visited := by
  unfold followRef
  cases href : refOf members with
  | none => exact ⟨[], ∅, Visits.refl, by simp, by simp⟩
  | some ref =>
    simp only [Option.some.injEq, forall_eq']
    split
    · next hseen => exact ⟨[], ∅, Visits.refl, hseen, by simp⟩
    · have hmark : Visits schema total st
          { st with seen := seenKey ref job.path :: st.seen } [] ∅ ∅ {seenKey ref job.path} := by
        apply Visits.of_local
        · simp
        · simp
        · simp [or_comm]
        · exact List.subset_cons_self _ _
      cases hres : resolvePointer schema ref with
      | none =>
        refine ⟨[], _, hmark, List.mem_cons_self .., ?_⟩
        simp [hres]
      | some target =>
        obtain ⟨visited, hmem, hvisits⟩ := hwalk
          { st with seen := seenKey ref job.path :: st.seen }
          ⟨target, job.path, job.branchKey, false⟩ (hjob ref target href hres)
        refine ⟨visited, {seenKey ref job.path}, by simpa using hmark.trans hvisits,
          hvisits.seen (List.mem_cons_self ..), ?_⟩
        simp [hres, hmem]

@[simp]
theorem reach_seen (st : CensusState) (job : Job) : (reach st job).seen = st.seen := by
  unfold reach
  split <;> rfl

theorem visits_reach (st : CensusState) (job : Job) : Visits schema total st (reach st job) [] ∅
    {e | job.conditionalAtSameSite = false ∧ e = (job.path, job.branchKey)} ∅ := by
  unfold reach
  cases job.conditionalAtSameSite with
  | true => simpa using Visits.refl
  | false => apply Visits.of_local <;> simp

/-- A part together with the job it belongs to accounts for everything. -/
theorem Visits.close (h : Visits schema total before after visited adds reaches keys)
    (hle : levels + 1 ≤ total) (hjob : Occurs schema (total - (levels + 1)) job)
    (hnode : job.node = .obj members)
    (hsteps : ∀ next, Step.visit next ∈ steps members job.path job.branchKey →
      (levels, next) ∈ visited)
    (hown : ∀ ref, refOf members = some ref → seenKey ref job.path ∈ after.seen)
    (hkeys : ∀ key ∈ keys, ∃ ref, refOf members = some ref ∧ key = seenKey ref job.path ∧
      ∀ target, resolvePointer schema ref = some target →
        (levels, ⟨target, job.path, job.branchKey, false⟩) ∈ visited)
    (hadds : ∀ e, e ∈ adds ↔ job.Adds e) (hreaches : ∀ e, e ∈ reaches ↔ job.Reaches e) :
    Visits schema total before after ((levels + 1, job) :: visited) ∅ ∅ ∅ where
  occurs := List.forall_mem_cons.mpr ⟨⟨hle, hjob⟩, h.occurs⟩
  nexts l j hj ms hms next hnext := by
    obtain hj | hj := List.mem_cons.mp hj
    · cases hj
      obtain rfl : members = ms := Json.obj.inj (hnode.symm.trans hms)
      exact List.mem_cons_of_mem _ (hsteps next hnext)
    · exact List.mem_cons_of_mem _ (h.nexts l j hj ms hms next hnext)
  refs l j hj ms hms ref href := by
    obtain hj | hj := List.mem_cons.mp hj
    · cases hj
      obtain rfl : members = ms := Json.obj.inj (hnode.symm.trans hms)
      exact hown ref href
    · exact h.refs l j hj ms hms ref href
  targets key hkey := by
    obtain hk | hk | ⟨l, j, ms, ref, hj, hms, href, hk, ht⟩ := h.targets key hkey
    · exact Or.inl hk
    · obtain ⟨ref, href, hk, ht⟩ := hkeys key hk
      exact Or.inr (Or.inr ⟨levels, job, members, ref, List.mem_cons_self .., hnode, href, hk,
        fun target hr => List.mem_cons_of_mem _ (ht target hr)⟩)
    · exact Or.inr (Or.inr ⟨l, j, ms, ref, List.mem_cons_of_mem _ hj, hms, href, hk,
        fun target hr => List.mem_cons_of_mem _ (ht target hr)⟩)
  acc e := by
    rw [h.acc, hadds]
    simp only [Set.mem_empty_iff_false, false_or, List.mem_cons, Prod.mk.injEq]
    refine or_congr_right ⟨?_, ?_⟩
    · rintro (ha | ⟨l, j, hj, ha⟩)
      · exact ⟨levels, job, Or.inl ⟨rfl, rfl⟩, ha⟩
      · exact ⟨l, j, Or.inr hj, ha⟩
    · rintro ⟨l, j, ⟨-, rfl⟩ | hj, ha⟩
      · exact Or.inl ha
      · exact Or.inr ⟨l, j, hj, ha⟩
  reached e := by
    rw [h.reached, hreaches]
    simp only [Set.mem_empty_iff_false, false_or, List.mem_cons, Prod.mk.injEq]
    refine or_congr_right ⟨?_, ?_⟩
    · rintro (ha | ⟨l, j, hj, ha⟩)
      · exact ⟨levels, job, Or.inl ⟨rfl, rfl⟩, ha⟩
      · exact ⟨l, j, Or.inr hj, ha⟩
    · rintro ⟨l, j, ⟨-, rfl⟩ | hj, ha⟩
      · exact Or.inl ha
      · exact Or.inr ⟨l, j, hj, ha⟩
  seen := h.seen

/-- A job at which the walk does nothing. -/
theorem Visits.leaf (hle : levels ≤ total) (hjob : Occurs schema (total - levels) job)
    (h : ∀ lower members, levels = lower + 1 → job.node ≠ .obj members) :
    Visits schema total st st [(levels, job)] ∅ ∅ ∅ where
  occurs v hv := by
    cases List.mem_singleton.mp hv
    exact ⟨hle, hjob⟩
  nexts l j hj members hnode := by
    cases List.mem_singleton.mp hj
    exact absurd hnode (h l members rfl)
  refs l j hj members hnode := by
    cases List.mem_singleton.mp hj
    exact absurd hnode (h l members rfl)
  targets _ hkey := Or.inl hkey
  acc e := by
    refine ⟨Or.inl, ?_⟩
    rintro (he | he | ⟨l, j, hj, members, hnode, -⟩)
    · exact he
    · exact he.elim
    · cases List.mem_singleton.mp hj
      exact absurd hnode (h l members rfl)
  reached e := by
    refine ⟨Or.inl, ?_⟩
    rintro (he | he | ⟨l, j, hj, ⟨members, hnode⟩, -⟩)
    · exact he
    · exact he.elim
    · cases List.mem_singleton.mp hj
      exact absurd hnode (h l members rfl)
  seen := List.Subset.refl _

/-- The walk visits the job it is called for. -/
theorem walk_visits (hle : levels ≤ total) : WalkVisits schema total levels := by
  induction levels with
  | zero =>
    intro st job hjob
    refine ⟨[(0, job)], List.mem_singleton_self _, Visits.leaf hle hjob ?_⟩
    exact fun lower _ h => absurd h (Nat.succ_ne_zero lower).symm
  | succ levels ih =>
    intro st job hjob
    have hwalk := ih (Nat.le_of_succ_le hle)
    have hdepth : total - levels = total - (levels + 1) + 1 := by omega
    rw [walk]
    cases hnode : job.node with
    | obj members =>
      have href : ∀ ref target, refOf members = some ref → resolvePointer schema ref = some target →
          Occurs schema (total - levels) ⟨target, job.path, job.branchKey, false⟩ := by
        intro ref target href hres
        rw [hdepth]
        exact .ref hjob hnode href hres
      have hnext : ∀ next, Step.visit next ∈ steps members job.path job.branchKey →
          Occurs schema (total - levels) next := by
        intro next hnext
        rw [hdepth]
        exact .step hjob hnode hnext
      obtain ⟨visited, keys, hv, hown, hkeys⟩ := visits_followRef hwalk st href
      have hv := hv.trans (visits_reach _ job)
      obtain ⟨visited', hmem, hv'⟩ := visits_steps hwalk
        (steps members job.path job.branchKey) hnext
        (reach (followRef schema (walk schema levels) st members job) job)
      refine ⟨_, List.mem_cons_self .., (hv.trans hv').close hle hjob hnode ?_ ?_ ?_ ?_ ?_⟩
      · exact fun next hn => List.mem_append_right _ (hmem next hn)
      · intro ref hr
        apply hv'.seen
        rw [reach_seen]
        exact hown ref hr
      · intro key hk
        have hk : key ∈ keys := by simpa using hk
        obtain ⟨ref, hr, hkey, ht⟩ := hkeys key hk
        exact ⟨ref, hr, hkey, fun target hres =>
          List.mem_append_left _ (List.mem_append_left _ (ht target hres))⟩
      · intro e
        simp [Job.Adds, hnode]
      · intro e
        simp [Job.Reaches, hnode]
    | _ =>
      refine ⟨[(levels + 1, job)], List.mem_singleton_self _, Visits.leaf hle hjob ?_⟩
      exact fun _ _ _ h => by cases hnode.symm.trans h

end Visits

end OpenWop.Schema
