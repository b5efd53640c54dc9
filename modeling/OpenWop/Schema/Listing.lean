import Mathlib.Data.List.Perm.Subperm
import OpenWop.Core.Delimited
import OpenWop.Schema.Walk

/-!
# Which restrictions the census lists

A branch is the root, an alternative of `anyOf` or `oneOf`, or an arm of a conditional
above. At a path the walk covers, a restriction that no arm at the path itself imposes is
listed exactly when every branch that reaches the path imposes it. An arm at the path
applies on top of its parent: a `required` that only arms impose is listed with their
selectors.
-/

namespace OpenWop.Schema

open OpenWop.Js OpenWop.Delimited

section Steps

variable {members : List (JsString × Json)} {path branchKey : JsString}

/-- A step adds at the path and in the branch, or leads to the path or below it. -/
def Step.IsLocal (path branchKey : JsString) : Step → Prop
  | .add s b => s.path = path ∧ b = branchKey
  | .select _ _ => True
  | .visit next => path <+: next.path

theorem isLocal_combinatorSteps (comb : JsString) :
    ∀ step ∈ combinatorSteps members path branchKey comb, step.IsLocal path branchKey := by
  intro step hstep
  obtain ⟨b, -, rfl⟩ := List.mem_map.mp hstep
  exact List.prefix_rfl

theorem isLocal_conditionalSteps (cond : JsString) :
    ∀ step ∈ conditionalSteps members path branchKey cond, step.IsLocal path branchKey := by
  intro step hstep
  unfold conditionalSteps at hstep
  split at hstep
  · split at hstep
    · obtain hs | hs := List.mem_append.mp hstep
      · split at hs
        · split at hs
          · cases List.mem_singleton.mp hs
            trivial
          · cases hs
        · cases hs
      · cases List.mem_singleton.mp hs
        exact List.prefix_rfl
    · cases hstep
  · cases hstep

theorem isLocal_addSteps (kind : SurfaceKind) (values : List JsString) :
    ∀ step ∈ addSteps path branchKey kind values, step.IsLocal path branchKey := by
  intro step hstep
  obtain ⟨value, -, rfl⟩ := List.mem_map.mp hstep
  exact ⟨rfl, rfl⟩

theorem isLocal_below (segment : JsString) (node : Json) :
    (below path branchKey segment node).IsLocal path branchKey := by
  change path <+: path ++ js "/" ++ segment
  rw [List.append_assoc]
  exact List.prefix_append _ _

theorem isLocal_steps : ∀ step ∈ steps members path branchKey, step.IsLocal path branchKey := by
  unfold steps
  simp only [List.forall_mem_append]
  refine ⟨⟨⟨⟨⟨⟨⟨⟨⟨⟨?_, ?_⟩, isLocal_addSteps _ _⟩, isLocal_addSteps _ _⟩, isLocal_addSteps _ _⟩,
    isLocal_addSteps _ _⟩, ?_⟩, ?_⟩, ?_⟩, ?_⟩, ?_⟩
  · intro step hstep
    obtain ⟨comb, -, hstep⟩ := List.mem_flatMap.mp hstep
    exact isLocal_combinatorSteps comb step hstep
  · intro step hstep
    obtain ⟨cond, -, hstep⟩ := List.mem_flatMap.mp hstep
    exact isLocal_conditionalSteps cond step hstep
  · intro step hstep
    obtain ⟨p, -, hstep⟩ := List.mem_flatMap.mp hstep
    obtain hs | hs := List.mem_pair.mp hstep
    · cases hs
      exact ⟨rfl, rfl⟩
    · cases hs
      exact isLocal_below _ _
  all_goals
    intro step hstep
    obtain ⟨p, -, rfl⟩ := List.mem_map.mp hstep
    exact isLocal_below _ _

end Steps

section Coverage

variable {schema : Json} {path b : JsString} {s : Surface}

theorem Job.Adds.path_eq {job : Job} (h : job.Adds (s, b)) :
    s.path = job.path ∧ b = job.branchKey := by
  obtain ⟨members, -, hmem⟩ := h
  exact isLocal_steps _ hmem

/-- A branch reaches a path. -/
def Reaching (schema : Json) (path b : JsString) : Prop :=
  ∃ depth job, Occurs schema depth job ∧ job.Reaches (path, b)

/-- A branch imposes a surface. -/
def Imposing (schema : Json) (s : Surface) (b : JsString) : Prop :=
  ∃ depth job, Occurs schema depth job ∧ job.Adds (s, b)

/-- The walk covers a path: it is deep enough for every way there, and references are told
apart by their text and by the branch that uses them first. -/
structure Covered (schema : Json) (path : JsString) : Prop where
  shallow : ∀ depth job, Occurs schema depth job → job.path <+: path → depth ≤ maxWalkDepth
  plain : ∀ depth job members ref, Occurs schema depth job → job.node = .obj members →
    refOf members = some ref → unit '@' ∉ ref
  once : ∀ depth depth' job job' members members' ref, Occurs schema depth job →
    Occurs schema depth' job' → job.path <+: path → job.path = job'.path →
    job.node = .obj members → job'.node = .obj members' → refOf members = some ref →
    refOf members' = some ref → job.branchKey = job'.branchKey

theorem forall_ne_of_not_mem {u : UInt16} {ref : JsString} (h : u ∉ ref) :
    ∀ v ∈ ref, ¬ v = u := by
  rintro v hv rfl
  exact h hv

theorem seenKey_inj {ref ref' p p' : JsString} (href : unit '@' ∉ ref) (href' : unit '@' ∉ ref')
    (h : seenKey ref p = seenKey ref' p') : ref = ref' ∧ p = p' := by
  unfold seenKey at h
  rw [List.append_assoc, List.append_assoc] at h
  have hstop : ∀ p, Stops (· = unit '@') (js "@" ++ p) := fun _ => stops_cons rfl
  have hparts : ref = ref' ∧ js "@" ++ p = js "@" ++ p' :=
    append_inj_of_stops (forall_ne_of_not_mem href) (forall_ne_of_not_mem href') (hstop p)
      (hstop p') h
  obtain ⟨rfl, hrest⟩ := hparts
  exact ⟨rfl, List.append_cancel_left hrest⟩

/-- The walk visits every node of a kind, where it is deep enough for these nodes and tells
their references apart. -/
theorem exists_visits {Q : Job → Prop}
    (hdepth : ∀ depth job, Occurs schema depth job → Q job → depth ≤ maxWalkDepth)
    (hup : ∀ job next members, job.node = .obj members → job.path <+: next.path → Q next → Q job)
    (honce : ∀ depth depth' job job' members members' ref ref' target, Occurs schema depth job →
      Occurs schema depth' job' → job.node = .obj members → job'.node = .obj members' →
      refOf members = some ref → refOf members' = some ref' →
      resolvePointer schema ref = some target → Q ⟨target, job.path, job.branchKey, false⟩ →
      seenKey ref job.path = seenKey ref' job'.path →
      ref = ref' ∧ job.path = job'.path ∧ job.branchKey = job'.branchKey) :
    ∃ visited, Visits schema (maxWalkDepth + 1) {} (censusOf schema) visited ∅ ∅ ∅ ∧
      ∀ depth job, Occurs schema depth job → Q job → ∃ levels, (levels + 1, job) ∈ visited := by
  obtain ⟨visited, hroot, hvisits⟩ := walk_visits (Nat.le_refl (maxWalkDepth + 1)) {}
    ⟨schema, [], js "root", false⟩ (by simpa using Occurs.root)
  refine ⟨visited, hvisits, ?_⟩
  have hpos : ∀ levels job, (levels, job) ∈ visited → Q job → ∃ lower, levels = lower + 1 := by
    intro levels job hjob hq
    obtain ⟨hle, hocc⟩ := hvisits.occurs _ hjob
    have hd := hdepth _ _ hocc hq
    exact ⟨levels - 1, by omega⟩
  intro depth job hocc hq
  suffices hv : ∃ levels, (levels, job) ∈ visited by
    obtain ⟨levels, hv⟩ := hv
    obtain ⟨lower, rfl⟩ := hpos levels job hv hq
    exact ⟨lower, hv⟩
  induction hocc with
  | root => exact ⟨_, hroot⟩
  | @ref depth job members ref target hocc hnode href hres ih =>
    -- the reference was seen at the path, there or at another node of the same branch
    have hq' := hup job ⟨target, job.path, job.branchKey, false⟩ members hnode List.prefix_rfl hq
    obtain ⟨levels, hv⟩ := ih hq'
    obtain ⟨lower, rfl⟩ := hpos levels _ hv hq'
    have hseen := hvisits.refs _ _ hv _ hnode _ href
    obtain hk | hk | ⟨levels', job', members', ref', hv', hnode', href', hkey, ht⟩ :=
      hvisits.targets _ hseen
    · cases hk
    · exact hk.elim
    · have hocc' := (hvisits.occurs _ hv').2
      obtain ⟨rfl, hp, hb⟩ := honce _ _ _ _ _ _ _ _ _ hocc hocc' hnode hnode' href href' hres hq
        hkey
      refine ⟨levels', ?_⟩
      rw [hp, hb]
      exact ht _ hres
  | step hocc hnode hmem ih =>
    have hq' := hup _ _ _ hnode (isLocal_steps _ hmem) hq
    obtain ⟨levels, hv⟩ := ih hq'
    obtain ⟨lower, rfl⟩ := hpos levels _ hv hq'
    exact ⟨lower, hvisits.nexts _ _ hv _ hnode _ hmem⟩

section Visited

variable {Q : Job → Prop} {visited : List (Nat × Job)}
  (hvisits : Visits schema (maxWalkDepth + 1) {} (censusOf schema) visited ∅ ∅ ∅)
  (hall : ∀ depth job, Occurs schema depth job → Q job → ∃ levels, (levels + 1, job) ∈ visited)

include hvisits hall

/-- What the nodes of a kind add is collected. -/
theorem mem_acc_of_visits (hq : ∀ job : Job, job.Adds (s, b) → Q job) :
    (s, b) ∈ (censusOf schema).acc ↔ Imposing schema s b := by
  rw [hvisits.acc]
  constructor
  · rintro (he | he | ⟨levels, job, hv, ha⟩)
    · cases he
    · exact he.elim
    · exact ⟨_, job, (hvisits.occurs _ hv).2, ha⟩
  · rintro ⟨depth, job, hocc, ha⟩
    obtain ⟨levels, hv⟩ := hall depth job hocc (hq job ha)
    exact Or.inr (Or.inr ⟨levels, job, hv, ha⟩)

/-- Where the nodes of a kind reach, is collected. -/
theorem mem_reached_of_visits (hq : ∀ job : Job, job.Reaches (path, b) → Q job) :
    (path, b) ∈ (censusOf schema).reached ↔ Reaching schema path b := by
  rw [hvisits.reached]
  constructor
  · rintro (he | he | ⟨levels, job, hv, ha⟩)
    · cases he
    · exact he.elim
    · exact ⟨_, job, (hvisits.occurs _ hv).2, ha⟩
  · rintro ⟨depth, job, hocc, ha⟩
    obtain ⟨levels, hv⟩ := hall depth job hocc (hq job ha)
    exact Or.inr (Or.inr ⟨levels, job, hv, ha⟩)

end Visited

/-- The walk of a schema visits every node that occurs at a covered path or above it. -/
theorem Covered.visits (h : Covered schema path) : ∃ visited,
    Visits schema (maxWalkDepth + 1) {} (censusOf schema) visited ∅ ∅ ∅ ∧
      ∀ depth job, Occurs schema depth job → job.path <+: path →
        ∃ levels, (levels + 1, job) ∈ visited := by
  apply exists_visits h.shallow
  · exact fun job next members _ hlocal hpath => hlocal.trans hpath
  · intro depth depth' job job' members members' ref ref' target hocc hocc' hnode hnode' href href'
      _ hpath hkey
    obtain ⟨rfl, hp⟩ := seenKey_inj (h.plain _ _ _ _ hocc hnode href)
      (h.plain _ _ _ _ hocc' hnode' href') hkey
    exact ⟨rfl, hp, h.once _ _ _ _ _ _ _ hocc hocc' hpath hp hnode hnode' href href'⟩

theorem Covered.mem_acc (h : Covered schema s.path) :
    (s, b) ∈ (censusOf schema).acc ↔ Imposing schema s b := by
  obtain ⟨visited, hvisits, hall⟩ := h.visits
  exact mem_acc_of_visits hvisits hall fun job ha => ha.path_eq.1 ▸ List.prefix_rfl

theorem Covered.mem_reached (h : Covered schema path) :
    (path, b) ∈ (censusOf schema).reached ↔ Reaching schema path b := by
  obtain ⟨visited, hvisits, hall⟩ := h.visits
  refine mem_reached_of_visits hvisits hall fun job ha => ?_
  have hpath : path = job.path := congrArg Prod.fst ha.2.2
  exact hpath ▸ List.prefix_rfl

end Coverage

section Lists

variable {schema : Json} {path b : JsString} {s : Surface}

@[simp]
theorem mem_branches {st : CensusState} : b ∈ st.branches s ↔ (s, b) ∈ st.acc := by
  simp [CensusState.branches, mem_uniq]

@[simp]
theorem mem_branchesHere {st : CensusState} :
    b ∈ st.branchesHere path ↔ (path, b) ∈ st.reached := by
  simp [CensusState.branchesHere, mem_uniq]

theorem nodup_branches (st : CensusState) (s : Surface) : (st.branches s).Nodup :=
  nodup_uniq _

theorem nodup_branchesHere (st : CensusState) (path : JsString) : (st.branchesHere path).Nodup :=
  nodup_uniq _

@[simp]
theorem mem_collected {st : CensusState} : s ∈ st.collected ↔ ∃ b, (s, b) ∈ st.acc := by
  simp only [CensusState.collected, List.mem_flatMap, mem_uniq, List.mem_map, List.mem_filter,
    decide_eq_true_eq]
  constructor
  · rintro ⟨kind, -, p, -, ⟨⟨⟨s', b⟩, he, rfl⟩, -⟩, -⟩
    exact ⟨b, he⟩
  · rintro ⟨b, he⟩
    have hmem : ∃ e, e ∈ st.acc ∧ e.1 = s := ⟨_, he, rfl⟩
    exact ⟨s.kind, ⟨s, hmem, rfl⟩, s.path, ⟨s, ⟨hmem, rfl⟩, rfl⟩, ⟨hmem, rfl⟩, rfl⟩

/-- A list without repetition within another is no shorter only if it has every member. -/
theorem length_le_iff_of_subset {α : Type} {l l' : List α} (hl : l.Nodup) (hl' : l'.Nodup)
    (h : l ⊆ l') : l'.length ≤ l.length ↔ l' ⊆ l := by
  constructor
  · intro hle
    exact ((hl.subperm h).perm_of_length_le hle).symm.subset
  · exact fun hsub => (hl'.subperm hsub).length_le

theorem conditional?_isSome_iff {st : CensusState} : (st.conditional? s).isSome ↔
    s.kind = .required ∧ ∀ b, (s, b) ∈ st.acc → (s.path, b) ∉ st.reached := by
  unfold CensusState.conditional?
  split
  · next h => simpa using h
  · next h => simpa using h

theorem mem_enumerateSchema (hkind : s.kind.isIntersected = true) :
    s ∈ enumerateSchema schema ↔ (∃ b, (s, b) ∈ (censusOf schema).acc) ∧
      ((censusOf schema).branchesHere s.path).length ≤ ((censusOf schema).branches s).length := by
  simp [enumerateSchema, CensusState.counts, hkind]

end Lists

section Branches

variable {schema : Json} {path b b' : JsString} {s : Surface}

/-- The second branch is the first or lies within it. -/
def Encloses (b b' : JsString) : Prop := b = b' ∨ b ++ js ">" <+: b'

instance : Decidable (Encloses b b') := inferInstanceAs (Decidable (_ ∨ _))

/-- The restriction is imposed at its path: every innermost branch there is bound, by itself or
by a branch around it that reaches the path too. -/
def Imposed (schema : Json) (s : Surface) : Prop :=
  (∃ b, Reaching schema s.path b) ∧ ∀ b, Reaching schema s.path b →
    (∀ b', Reaching schema s.path b' → Encloses b b' → b = b') →
    ∃ b', Reaching schema s.path b' ∧ Encloses b' b ∧ Imposing schema s b'

/-- No branch that reaches the path lies within another that does. -/
def SideBySide (schema : Json) (path : JsString) : Prop :=
  ∀ b b', Reaching schema path b → Reaching schema path b' → Encloses b b' → b = b'

/-- Every restriction is listed exactly when it is imposed. -/
def ListsImposed (schema : Json) : Prop :=
  ∀ s : Surface, s.kind.isIntersected = true → (s ∈ enumerateSchema schema ↔ Imposed schema s)

theorem imposed_iff (hside : SideBySide schema s.path) : Imposed schema s ↔
    (∃ b, Reaching schema s.path b) ∧ ∀ b, Reaching schema s.path b → Imposing schema s b := by
  refine and_congr_right fun _ => forall₂_congr fun b hb => ⟨?_, ?_⟩
  · intro h
    obtain ⟨b', hb', henc, himp⟩ := h fun b' hb' henc => hside b b' hb hb' henc
    rwa [← hside b' b hb' hb henc]
  · exact fun himp _ => ⟨b, hb, Or.inl rfl, himp⟩

theorem Covered.sideBySide (h : Covered schema path)
    (hall : ∀ b ∈ (censusOf schema).branchesHere path,
      ∀ b' ∈ (censusOf schema).branchesHere path, Encloses b b' → b = b') :
    SideBySide schema path := by
  simp only [mem_branchesHere, h.mem_reached] at hall
  exact fun b b' hb hb' => hall b hb b' hb'

theorem Covered.mem_enumerateSchema_of_reaching (h : Covered schema s.path)
    (hkind : s.kind.isIntersected = true)
    (hreach : ∀ b, Imposing schema s b → Reaching schema s.path b) :
    s ∈ enumerateSchema schema ↔ (∃ b, Reaching schema s.path b) ∧
      ∀ b, Reaching schema s.path b → Imposing schema s b := by
  have hsub : (censusOf schema).branches s ⊆ (censusOf schema).branchesHere s.path := by
    intro b hb
    rw [mem_branches, h.mem_acc] at hb
    rw [mem_branchesHere, h.mem_reached]
    exact hreach b hb
  rw [mem_enumerateSchema hkind,
    length_le_iff_of_subset (nodup_branches _ _) (nodup_branchesHere _ _) hsub]
  simp only [List.subset_def, mem_branches, mem_branchesHere, h.mem_acc, h.mem_reached]
  constructor
  · intro ⟨⟨b, hb⟩, hall⟩
    exact ⟨⟨b, hreach b hb⟩, hall⟩
  · intro ⟨⟨b, hb⟩, hall⟩
    exact ⟨⟨b, hall hb⟩, hall⟩

/-- Where one branch reaches the path, it takes no more than one to impose a restriction. -/
theorem Covered.mem_enumerateSchema_of_one (h : Covered schema s.path)
    (hkind : s.kind.isIntersected = true) (hone : ∀ b', Reaching schema s.path b' → b' = b) :
    s ∈ enumerateSchema schema ↔ ∃ b, Imposing schema s b := by
  rw [mem_enumerateSchema hkind]
  simp only [h.mem_acc, and_iff_left_iff_imp]
  rintro ⟨b', hb'⟩
  have hhere : (censusOf schema).branchesHere s.path ⊆ [b] := by
    intro b'' hb''
    rw [mem_branchesHere, h.mem_reached] at hb''
    exact List.mem_singleton.mpr (hone b'' hb'')
  have hle : ((censusOf schema).branchesHere s.path).length ≤ 1 :=
    ((nodup_branchesHere _ _).subperm hhere).length_le
  have hpos : 0 < ((censusOf schema).branches s).length :=
    List.length_pos_of_mem (mem_branches.mpr (h.mem_acc.mpr hb'))
  omega

theorem Covered.mem_conditionals (h : Covered schema s.path) (hkind : s.kind = .required) :
    (∃ selectors, (s, selectors) ∈ conditionals schema) ↔
      s ∈ enumerateSchema schema ∧ ∀ b, Imposing schema s b → ¬ Reaching schema s.path b := by
  simp only [conditionals, List.mem_filterMap, Option.map_eq_some_iff, Prod.mk.injEq]
  constructor
  · rintro ⟨_, _, hs, _, hc, rfl, rfl⟩
    have hall := (conditional?_isSome_iff.mp (Option.isSome_of_eq_some hc)).2
    simp only [h.mem_acc, h.mem_reached] at hall
    exact ⟨hs, hall⟩
  · intro ⟨hs, hall⟩
    have hc : ((censusOf schema).conditional? s).isSome := by
      rw [conditional?_isSome_iff]
      simp only [h.mem_acc, h.mem_reached]
      exact ⟨hkind, hall⟩
    obtain ⟨selectors, hc⟩ := Option.isSome_iff_exists.mp hc
    exact ⟨selectors, s, hs, selectors, hc, rfl, rfl⟩

end Branches

section Closed

variable {schema : Json} {jobs : List (Nat × Job)}

/-- The job a step calls for. -/
def Step.job? : Step → Option Job
  | .visit job => some job
  | _ => none

/-- The reference of a job's node. -/
def Job.ref? (job : Job) : Option JsString :=
  match job.node with
  | .obj members => refOf members
  | _ => none

/-- The jobs a job leads to. -/
def Job.nexts (schema : Json) (job : Job) : List Job :=
  match job.node with
  | .obj members =>
    ((refOf members).bind (resolvePointer schema)).toList.map
      (fun target => ⟨target, job.path, job.branchKey, false⟩) ++
    (steps members job.path job.branchKey).filterMap Step.job?
  | _ => []

/-- A list of jobs with their depths that is closed under what they lead to. -/
structure Closed (schema : Json) (jobs : List (Nat × Job)) : Prop where
  root : (0, ⟨schema, [], js "root", false⟩) ∈ jobs
  nexts : ∀ v ∈ jobs, ∀ next ∈ v.2.nexts schema, (v.1 + 1, next) ∈ jobs

theorem Closed.mem (h : Closed schema jobs) {depth : Nat} {job : Job}
    (hocc : Occurs schema depth job) : (depth, job) ∈ jobs := by
  induction hocc with
  | root => exact h.root
  | ref _ hnode href hres ih =>
    apply h.nexts _ ih
    simp [Job.nexts, hnode, href, hres]
  | step _ hnode hmem ih =>
    apply h.nexts _ ih
    rw [Job.nexts, hnode]
    exact List.mem_append_right _ (List.mem_filterMap.mpr ⟨_, hmem, rfl⟩)

/-- The conditions of coverage, read off such a list. -/
theorem Closed.covered (h : Closed schema jobs) (path : JsString)
    (hdepth : ∀ v ∈ jobs, v.1 ≤ maxWalkDepth)
    (hplain : ∀ v ∈ jobs, ∀ ref ∈ v.2.ref?, unit '@' ∉ ref)
    (honce : ∀ v ∈ jobs, ∀ w ∈ jobs, v.2.path = w.2.path → v.2.ref? = w.2.ref? →
      v.2.ref?.isSome → v.2.branchKey = w.2.branchKey) : Covered schema path where
  shallow _ _ hocc _ := hdepth _ (h.mem hocc)
  plain _ job members ref hocc hnode href :=
    hplain _ (h.mem hocc) ref (by simpa [Job.ref?, hnode] using href)
  once _ _ job job' members members' ref hocc hocc' _ hp hnode hnode' href href' :=
    honce _ (h.mem hocc) _ (h.mem hocc') hp (by simp [Job.ref?, hnode, hnode', href, href'])
      (by simp [Job.ref?, hnode, href])

end Closed

section Listed

variable {schema : Json} {s : Surface}

/-- A restriction that no arm at its path imposes is listed exactly when it is imposed. Where
one branch reaches the path, a `required` that arms impose on top of it is listed too, and recorded
as conditional when the branch does not impose it. -/
theorem listed_iff_imposed (hkind : s.kind.isIntersected = true) (hcov : Covered schema s.path)
    (hside : SideBySide schema s.path) :
    ((∀ b, Imposing schema s b → Reaching schema s.path b) →
      (s ∈ enumerateSchema schema ↔ Imposed schema s)) ∧
    (s.kind = .required → (∃ b, ∀ b', Reaching schema s.path b' ↔ b' = b) →
      (s ∈ enumerateSchema schema ↔ ∃ b, Imposing schema s b) ∧
      ((∃ selectors, (s, selectors) ∈ conditionals schema) ↔
        s ∈ enumerateSchema schema ∧ ¬ Imposed schema s)) := by
  refine ⟨?_, ?_⟩
  · intro hreach
    rw [hcov.mem_enumerateSchema_of_reaching hkind hreach, imposed_iff hside]
  · rintro hreq ⟨b, hone⟩
    refine ⟨hcov.mem_enumerateSchema_of_one hkind fun b' hb' => (hone b').mp hb', ?_⟩
    rw [hcov.mem_conditionals hreq, imposed_iff hside]
    simp only [hone, forall_eq, exists_eq, true_and]
    refine and_congr_right fun _ => ⟨?_, ?_⟩
    · exact fun h himp => h b himp rfl
    · rintro h b' himp rfl
      exact h himp

/-- An object with a conditional and nothing else. -/
def conditionalSchema : Json := .obj
  [(js "if", .obj [(js "required", .arr [.str (js "kind")])]),
    (js "then", .obj [(js "required", .arr [.str (js "checkpoint")])])]

/-- Two alternatives, one through a reference, that reach a member. -/
def alternativesSchema : Json :=
  .obj [(js "anyOf", .arr [member, .obj [(js "$ref", .str (js "#/$defs/b"))]]),
    (js "$defs", .obj [(js "b", member)])]
where
  member : Json := .obj [(js "properties",
    .obj [(js "a", .obj [(js "required", .arr [.str (js "checkpoint")])])])]

/-- The restriction both schemas impose, at a path. -/
def requiresCheckpoint (path : JsString) : Surface := ⟨path, .required, js "checkpoint"⟩

theorem closed_conditionalSchema : Closed conditionalSchema
    [(0, ⟨conditionalSchema, [], js "root", false⟩),
      (1, ⟨.obj [(js "required", .arr [.str (js "checkpoint")])], [], js "root>then@", true⟩)] where
  root := by decide
  nexts := by decide

theorem covered_conditionalSchema (path : JsString) : Covered conditionalSchema path :=
  closed_conditionalSchema.covered path (by decide) (by decide +kernel) (by decide +kernel)

theorem closed_alternativesSchema : Closed alternativesSchema
    [(0, ⟨alternativesSchema, [], js "root", false⟩),
      (1, ⟨alternativesSchema.member, [], js "root>anyOf0@", false⟩),
      (2, ⟨.obj [(js "required", .arr [.str (js "checkpoint")])], js "/a", js "root>anyOf0@",
        false⟩),
      (1, ⟨.obj [(js "$ref", .str (js "#/$defs/b"))], [], js "root>anyOf1@", false⟩),
      (2, ⟨alternativesSchema.member, [], js "root>anyOf1@", false⟩),
      (3, ⟨.obj [(js "required", .arr [.str (js "checkpoint")])], js "/a", js "root>anyOf1@",
        false⟩)] where
  root := by decide
  nexts := by decide

theorem covered_alternativesSchema (path : JsString) : Covered alternativesSchema path :=
  closed_alternativesSchema.covered path (by decide) (by decide +kernel) (by decide +kernel)

theorem reaching_conditionalSchema {b : JsString} :
    Reaching conditionalSchema [] b ↔ b = js "root" := by
  rw [← (covered_conditionalSchema []).mem_reached]
  have hreached : (censusOf conditionalSchema).reached = [([], js "root")] := by decide
  simp [hreached]

theorem imposing_conditionalSchema {b : JsString} :
    Imposing conditionalSchema (requiresCheckpoint []) b ↔ b = js "root>then@" := by
  rw [← (covered_conditionalSchema []).mem_acc]
  have hacc : (censusOf conditionalSchema).acc = [(requiresCheckpoint [], js "root>then@")] := by
    decide
  simp [hacc]

/-- Both cases: two alternatives that impose a `required` on a member, and an arm that imposes
one on top of the root. -/
theorem listed_iff_imposed_examples :
    (requiresCheckpoint (js "/a") ∈ enumerateSchema alternativesSchema ↔
      Imposed alternativesSchema (requiresCheckpoint (js "/a"))) ∧
    ((∃ selectors, (requiresCheckpoint [], selectors) ∈ conditionals conditionalSchema) ↔
      requiresCheckpoint [] ∈ enumerateSchema conditionalSchema ∧
        ¬ Imposed conditionalSchema (requiresCheckpoint [])) := by
  have hcov := covered_alternativesSchema (js "/a")
  have hcov' := covered_conditionalSchema []
  refine ⟨(listed_iff_imposed rfl hcov (hcov.sideBySide (by decide))).1 ?_,
    ((listed_iff_imposed rfl hcov' (hcov'.sideBySide (by decide))).2 rfl ?_).2⟩
  · intro b hb
    rw [← hcov.mem_acc] at hb
    apply hcov.mem_reached.mp
    have hall : ∀ e ∈ (censusOf alternativesSchema).acc, e.1 = requiresCheckpoint (js "/a") →
        (js "/a", e.2) ∈ (censusOf alternativesSchema).reached := by decide
    exact hall _ hb rfl
  · exact ⟨js "root", fun _ => reaching_conditionalSchema⟩

/-- A `required` that only the arm of a conditional imposes is listed. -/
theorem not_listsImposed : ¬ ListsImposed conditionalSchema := by
  intro h
  have hlisted : requiresCheckpoint [] ∈ enumerateSchema conditionalSchema := by decide
  obtain ⟨-, himposed⟩ := (h _ rfl).mp hlisted
  obtain ⟨b, hb, -, himp⟩ := himposed (js "root") (reaching_conditionalSchema.mpr rfl)
    fun b' hb' _ => (reaching_conditionalSchema.mp hb').symm
  have hb := reaching_conditionalSchema.mp hb
  have himp := imposing_conditionalSchema.mp himp
  rw [hb] at himp
  exact absurd himp (by decide)

end Listed

end OpenWop.Schema
