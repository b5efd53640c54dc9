import OpenWop.Core.Simulation
import OpenWop.Schema.Listing

/-!
# The unfolding of a schema

A schema unfolds into the nodes that occur in it, each with its depth. Where no reference
is shared by branches at a path, the surfaces listed depend on this unfolding only.
-/

namespace OpenWop.Schema

open OpenWop.Js OpenWop.Core

section Unfolding

/-- The job has a node to walk. -/
def Job.IsNode (job : Job) : Prop := ∃ members, job.node = .obj members

/-- The first job of a walk. -/
def rootJob (schema : Json) : Job := ⟨schema, [], js "root", false⟩

/-- The nodes of a schema, each with its depth. -/
def unfolding (schema : Json) : System (Nat × Job) where
  initial s := s = (0, rootJob schema) ∧ s.2.IsNode
  step s t := t.1 = s.1 + 1 ∧ t.2 ∈ s.2.nexts schema ∧ t.2.IsNode

/-- A reference of the schema. -/
def Refers (schema : Json) (ref : JsString) : Prop :=
  ∃ depth job, Occurs schema depth job ∧ job.ref? = some ref

/-- A pointer leads to a schema. -/
def LeadsToNode (schema : Json) (ref : JsString) : Prop :=
  ∃ members, resolvePointer schema ref = some (.obj members)

variable {schema : Json} {job job' : Job} {members : List (JsString × Json)} {depth : Nat}
  {ref b path : JsString} {s : Surface}

theorem ref?_eq_some_iff : job.ref? = some ref ↔
    ∃ members, job.node = .obj members ∧ refOf members = some ref := by
  unfold Job.ref?
  cases job.node <;> simp

theorem isNode_of_ref? (h : job.ref? = some ref) : job.IsNode := by
  obtain ⟨members, hnode, -⟩ := ref?_eq_some_iff.mp h
  exact ⟨members, hnode⟩

theorem mem_nexts : job' ∈ job.nexts schema ↔ ∃ members, job.node = .obj members ∧
    ((∃ ref target, refOf members = some ref ∧ resolvePointer schema ref = some target ∧
      job' = ⟨target, job.path, job.branchKey, false⟩) ∨
      Step.visit job' ∈ steps members job.path job.branchKey) := by
  have hvisit : ∀ ss : List Step, job' ∈ ss.filterMap Step.job? ↔ Step.visit job' ∈ ss := by
    intro ss
    rw [List.mem_filterMap]
    constructor
    · rintro ⟨step, hmem, hjob⟩
      cases step with
      | visit job => exact Option.some.inj hjob ▸ hmem
      | add => cases hjob
      | select => cases hjob
    · exact fun hmem => ⟨_, hmem, rfl⟩
  unfold Job.nexts
  cases job.node with
  | obj members =>
    simp only [List.mem_append, hvisit, List.mem_map, Option.mem_toList, Option.bind_eq_some_iff,
      Json.obj.injEq, exists_eq_left']
    refine or_congr_left ⟨?_, ?_⟩
    · rintro ⟨target, ⟨ref, href, hres⟩, rfl⟩
      exact ⟨ref, target, href, hres, rfl⟩
    · rintro ⟨ref, target, href, hres, rfl⟩
      exact ⟨target, ⟨ref, href, hres⟩, rfl⟩
  | null | bool _ | num _ | str _ | arr _ => simp

theorem Occurs.next (h : Occurs schema depth job) (hnext : job' ∈ job.nexts schema) :
    Occurs schema (depth + 1) job' := by
  obtain ⟨members, hnode, ⟨ref, target, href, hres, rfl⟩ | hmem⟩ := mem_nexts.mp hnext
  · exact .ref h hnode href hres
  · exact .step h hnode hmem

/-- The unfolding reaches the nodes that occur. -/
theorem reached_unfolding : (unfolding schema).Reached (depth, job) ↔
    Occurs schema depth job ∧ job.IsNode := by
  constructor
  · intro h
    generalize hs : (depth, job) = s at h
    induction h generalizing depth job with
    | initial h =>
      obtain ⟨rfl, hnode⟩ := h
      cases hs
      exact ⟨.root, hnode⟩
    | @step s t _ h ih =>
      obtain ⟨hdepth, hnext, hnode⟩ := h
      subst hs
      obtain rfl : depth = s.1 + 1 := hdepth
      exact ⟨(ih rfl).1.next hnext, hnode⟩
  · rintro ⟨hocc, hnode⟩
    induction hocc with
    | root => exact .initial ⟨rfl, hnode⟩
    | ref _ hparent href hres ih =>
      refine .step (ih ⟨_, hparent⟩) ⟨rfl, mem_nexts.mpr ⟨_, hparent, ?_⟩, hnode⟩
      exact Or.inl ⟨_, _, href, hres, rfl⟩
    | step _ hparent hmem ih =>
      exact .step (ih ⟨_, hparent⟩) ⟨rfl, mem_nexts.mpr ⟨_, hparent, Or.inr hmem⟩, hnode⟩

theorem imposing_iff_reached : Imposing schema s b ↔
    ∃ t, (unfolding schema).Reached t ∧ t.2.Adds (s, b) := by
  constructor
  · rintro ⟨depth, job, hocc, members, hnode, hmem⟩
    exact ⟨(depth, job), reached_unfolding.mpr ⟨hocc, members, hnode⟩, members, hnode, hmem⟩
  · rintro ⟨⟨depth, job⟩, hreached, hadds⟩
    exact ⟨depth, job, (reached_unfolding.mp hreached).1, hadds⟩

theorem reaching_iff_reached : Reaching schema path b ↔
    ∃ t, (unfolding schema).Reached t ∧ t.2.Reaches (path, b) := by
  constructor
  · rintro ⟨depth, job, hocc, hreaches⟩
    exact ⟨(depth, job), reached_unfolding.mpr ⟨hocc, hreaches.1⟩, hreaches⟩
  · rintro ⟨⟨depth, job⟩, hreached, hreaches⟩
    exact ⟨depth, job, (reached_unfolding.mp hreached).1, hreaches⟩

end Unfolding

section Unshared

/-- The walk is deep enough for every node, and a reference that leads to a schema is followed
at a path from one branch. -/
structure Unshared (schema : Json) : Prop where
  shallow : ∀ depth job, Occurs schema depth job → job.IsNode → depth ≤ maxWalkDepth
  once : ∀ depth depth' job job' ref ref', Occurs schema depth job → Occurs schema depth' job' →
    job.ref? = some ref → job'.ref? = some ref' → LeadsToNode schema ref →
    seenKey ref job.path = seenKey ref' job'.path →
    ref = ref' ∧ job.path = job'.path ∧ job.branchKey = job'.branchKey

variable {schema schema' : Json} {b path : JsString} {s : Surface}

theorem Unshared.visits (h : Unshared schema) : ∃ visited,
    Visits schema (maxWalkDepth + 1) {} (censusOf schema) visited ∅ ∅ ∅ ∧
      ∀ depth job, Occurs schema depth job → job.IsNode → ∃ levels, (levels + 1, job) ∈ visited := by
  apply exists_visits h.shallow
  · exact fun job next members hnode _ _ => ⟨members, hnode⟩
  · intro depth depth' job job' members members' ref ref' target hocc hocc' hnode hnode' href href'
      hres htarget hkey
    obtain ⟨ms, htarget⟩ := htarget
    exact h.once _ _ _ _ _ _ hocc hocc' (ref?_eq_some_iff.mpr ⟨members, hnode, href⟩)
      (ref?_eq_some_iff.mpr ⟨members', hnode', href'⟩) ⟨ms, htarget ▸ hres⟩ hkey

theorem Unshared.mem_acc (h : Unshared schema) :
    (s, b) ∈ (censusOf schema).acc ↔ Imposing schema s b := by
  obtain ⟨visited, hvisits, hall⟩ := h.visits
  apply mem_acc_of_visits hvisits hall
  rintro job ⟨members, hnode, -⟩
  exact ⟨members, hnode⟩

theorem Unshared.mem_reached (h : Unshared schema) :
    (path, b) ∈ (censusOf schema).reached ↔ Reaching schema path b := by
  obtain ⟨visited, hvisits, hall⟩ := h.visits
  exact mem_reached_of_visits hvisits hall fun job hreaches => hreaches.1

/-- Two schemas list the same surfaces. -/
def SameSurfaces (schema schema' : Json) : Prop :=
  ∀ s, s ∈ enumerateSchema schema ↔ s ∈ enumerateSchema schema'

theorem length_eq_of_mem_iff {l l' : List JsString} (hl : l.Nodup) (hl' : l'.Nodup)
    (h : ∀ b, b ∈ l ↔ b ∈ l') : l.length = l'.length :=
  ((List.perm_ext_iff_of_nodup hl hl').mpr h).length_eq

/-- The surfaces listed depend on what is imposed where, and on what is reached. -/
theorem Unshared.sameSurfaces (h : Unshared schema) (h' : Unshared schema')
    (himposing : ∀ s b, Imposing schema s b ↔ Imposing schema' s b)
    (hreaching : ∀ path b, Reaching schema path b ↔ Reaching schema' path b) :
    SameSurfaces schema schema' := by
  intro s
  have hbranches : ((censusOf schema).branches s).length =
      ((censusOf schema').branches s).length := by
    apply length_eq_of_mem_iff (nodup_branches _ _) (nodup_branches _ _)
    intro b
    rw [mem_branches, mem_branches, h.mem_acc, h'.mem_acc, himposing]
  have hhere : ((censusOf schema).branchesHere s.path).length =
      ((censusOf schema').branchesHere s.path).length := by
    apply length_eq_of_mem_iff (nodup_branchesHere _ _) (nodup_branchesHere _ _)
    intro b
    rw [mem_branchesHere, mem_branchesHere, h.mem_reached, h'.mem_reached, hreaching]
  simp only [enumerateSchema, List.mem_filter, mem_collected, CensusState.counts, h.mem_acc,
    h'.mem_acc, himposing, hbranches, hhere]

end Unshared

end OpenWop.Schema
