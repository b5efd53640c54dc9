import OpenWop.Schema.Replace
import OpenWop.Schema.Sites
import OpenWop.Schema.Unfolding

/-!
# Inlining references

A reference is replaced by a copy of its target, or a subschema is moved into `$defs` and
referred to. Where no reference is shared by branches at a path, both leave the surfaces
listed as they are: a node with the copy simulates the node with the reference.
-/

namespace OpenWop.Schema

open OpenWop.Js OpenWop.Core

section Edits

/-- What a node says beside its reference. -/
def besideRef (members : List (JsString × Json)) : List (JsString × Json) :=
  Record.erase members (js "$ref")

/-- The node with a copy of the target for its reference: the copy itself, or beside other
keywords one more branch of `allOf`. -/
def inlined (members : List (JsString × Json)) (target : Json) : Option Json :=
  if besideRef members = [] then some target
  else
    match keyword members (js "allOf") with
    | none => some (.obj (Record.set (besideRef members) (js "allOf") (.arr [target])))
    | some (.arr clauses) =>
      some (.obj (Record.set (besideRef members) (js "allOf") (.arr (clauses ++ [target]))))
    | some _ => none

/-- The schema with one definition more. -/
def define (schema : Json) (name : JsString) (node : Json) : Option Json :=
  match schema with
  | .obj members =>
    match (keyword members (js "$defs")).getD (.obj []) with
    | .obj defs =>
      if name ∈ Record.keys defs then none
      else some (.obj (Record.set members (js "$defs") (.obj (defs ++ [(name, node)]))))
    | _ => none
  | _ => none

/-- The pointer to a definition. -/
def definitionRef (name : JsString) : JsString := js "#/$defs/" ++ esc name

/-- The members of a reference to a definition. -/
def refTo (name : JsString) : List (JsString × Json) := [(js "$ref", .str (definitionRef name))]

/-- A copy of its target for the reference at a location, or a definition of its own for the
subschema there. -/
inductive Edit where
  | inline (loc : List JsString)
  | extract (loc : List JsString) (name : JsString)

/-- The schema after an edit. -/
def Edit.apply (schema : Json) : Edit → Option Json
  | .inline loc =>
    match nodeAt loc schema with
    | some (.obj members) => do
      let ref ← refOf members
      let target ← resolvePointer schema ref
      let copy ← inlined members target
      return replaceAt copy loc schema
    | _ => none
  | .extract loc name =>
    if loc = [] ∨ loc = [js "$defs"] then none
    else do
      let node ← nodeAt loc schema
      let defined ← define schema name node
      return replaceAt (.obj (refTo name)) loc defined

/-- Every way into the schema ends: its references do not lead in a circle. -/
def AcyclicRefs (schema : Json) : Prop :=
  ∃ bound, ∀ depth job, Occurs schema depth job → depth ≤ bound

/-- No edit of a schema with acyclic references changes the surfaces listed. -/
def HidesDefinitions : Prop :=
  ∀ schema, AcyclicRefs schema → ∀ (edit : Edit) (schema' : Json),
    edit.apply schema = some schema' → SameSurfaces schema schema'

end Edits

section Copies

variable {schema target copy : Json} {members : List (JsString × Json)}
  {path branchKey : JsString} {step : Step}

theorem keyword_besideRef (k : JsString) :
    keyword (besideRef members) k = if k = js "$ref" then none else keyword members k :=
  Record.get?_erase members (js "$ref") k

theorem keyword_of_lone (h : besideRef members = []) {k : JsString} (hk : k ≠ js "$ref") :
    keyword members k = none := by
  have hbeside : keyword (besideRef members) k = _ := keyword_besideRef k
  rw [if_neg hk, h] at hbeside
  exact hbeside.symm

/-- The copy beside other keywords. -/
theorem inlined_of_beside (h : besideRef members ≠ []) (hcopy : inlined members target = some copy) :
    ∃ clauses ms, copy = .obj ms ∧
      (keyword members (js "allOf") = some (.arr clauses) ∨
        keyword members (js "allOf") = none ∧ clauses = []) ∧
      ∀ k, keyword ms k = if k = js "allOf" then some (.arr (clauses ++ [target]))
        else if k = js "$ref" then none else keyword members k := by
  have hset : ∀ (v : Json) (k : JsString),
      keyword (Record.set (besideRef members) (js "allOf") v) k =
        if k = js "allOf" then some v else if k = js "$ref" then none else keyword members k := by
    intro v k
    rw [keyword, Record.get?_set]
    split
    · rfl
    · exact keyword_besideRef k
  rw [inlined, if_neg h] at hcopy
  split at hcopy
  · next hall =>
    obtain rfl := Option.some.inj hcopy
    exact ⟨[], _, rfl, Or.inr ⟨hall, rfl⟩, hset _⟩
  · next clauses hall =>
    obtain rfl := Option.some.inj hcopy
    exact ⟨clauses, _, rfl, Or.inl hall, hset _⟩
  · cases hcopy

/-- The keywords the walk reads at a node, `allOf` and the reference apart. -/
def stepKeywords : List JsString :=
  [js "anyOf", js "oneOf", js "if", js "then", js "else", js "type", js "enum", js "const",
    js "additionalProperties", js "required", js "properties", js "patternProperties", js "items",
    js "prefixItems"]

/-- Where the other keywords agree, the steps differ in the branches of `allOf` only. -/
theorem steps_split {members' : List (JsString × Json)}
    (h : ∀ k ∈ stepKeywords, keyword members' k = keyword members k)
    (path branchKey : JsString) : ∃ before after,
      steps members path branchKey =
        before ++ (combinatorSteps members path branchKey (js "allOf") ++ after) ∧
      steps members' path branchKey =
        before ++ (combinatorSteps members' path branchKey (js "allOf") ++ after) := by
  have hcomb : ∀ comb ∈ stepKeywords, combinatorSteps members' path branchKey comb =
      combinatorSteps members path branchKey comb := by
    intro comb hcomb
    rw [combinatorSteps, combinatorSteps, h comb hcomb]
  have hcond : ∀ cond ∈ stepKeywords, conditionalSteps members' path branchKey cond =
      conditionalSteps members path branchKey cond := by
    intro cond hcond
    rw [conditionalSteps, conditionalSteps, h cond hcond, h (js "if") (by decide)]
  have hentries : ∀ k ∈ stepKeywords, entriesOf members' k = entriesOf members k := by
    intro k hk
    rw [entriesOf, entriesOf, h k hk]
  have htypes : typeNames members' = typeNames members := by
    rw [typeNames, typeNames, h (js "type") (by decide)]
  have henum : enumValues members' = enumValues members := by
    rw [enumValues, enumValues, h (js "enum") (by decide), h (js "const") (by decide)]
  have hclosed : closedValues members' = closedValues members := by
    rw [closedValues, closedValues, h (js "additionalProperties") (by decide)]
  have hrequired : requiredNames members' = requiredNames members := by
    rw [requiredNames, requiredNames, h (js "required") (by decide)]
  refine ⟨combinatorSteps members path branchKey (js "anyOf") ++
    combinatorSteps members path branchKey (js "oneOf"), ?after, ?steps, ?steps'⟩
  case steps =>
    unfold steps
    simp only [List.flatMap_cons, List.flatMap_nil, List.append_nil, List.append_assoc]
    rfl
  case steps' =>
    unfold steps
    rw [htypes, henum, hclosed, hrequired, hentries (js "properties") (by decide),
      hentries (js "patternProperties") (by decide), h (js "additionalProperties") (by decide),
      h (js "items") (by decide), h (js "prefixItems") (by decide)]
    simp only [List.flatMap_cons, List.flatMap_nil, List.append_nil, List.append_assoc,
      hcomb (js "anyOf") (by decide), hcomb (js "oneOf") (by decide),
      hcond (js "then") (by decide), hcond (js "else") (by decide)]

theorem or_shift {a b c d : Prop} : (a ∨ (b ∨ d) ∨ c) ↔ (a ∨ b ∨ c) ∨ d := by
  tauto

/-- Beside other keywords, the copy is visited as one more branch that applies. -/
theorem mem_steps_of_beside (h : besideRef members ≠ [])
    (hcopy : inlined members target = some copy) (path branchKey : JsString) :
    ∃ ms, copy = .obj ms ∧ refOf ms = none ∧ ∀ step,
      step ∈ steps ms path branchKey ↔
        step ∈ steps members path branchKey ∨ step = .visit ⟨target, path, branchKey, false⟩ := by
  obtain ⟨clauses, ms, rfl, hclauses, hkey⟩ := inlined_of_beside h hcopy
  have hsame : ∀ k ∈ stepKeywords, keyword ms k = keyword members k := by
    intro k hk
    rw [hkey, if_neg, if_neg]
    · rintro rfl
      exact absurd hk (by decide)
    · rintro rfl
      exact absurd hk (by decide)
  refine ⟨ms, rfl, ?_, fun step => ?_⟩
  · rw [refOf, hkey, if_neg (by decide), if_pos rfl]
  have hall : combinatorSteps ms path branchKey (js "allOf") =
      combinatorSteps members path branchKey (js "allOf") ++
        [.visit ⟨target, path, branchKey, false⟩] := by
    have hitems : (Json.items? (keyword members (js "allOf"))).getD [] = clauses := by
      obtain hc | ⟨hc, rfl⟩ := hclauses
      · rw [hc]
        rfl
      · rw [hc]
        rfl
    rw [combinatorSteps, combinatorSteps, hitems, hkey, if_pos rfl, Json.items?, Option.getD_some,
      List.zipIdx_append, List.map_append]
    simp only [List.zipIdx_singleton, List.map_cons, List.map_nil, if_true]
  obtain ⟨before, after, hsteps, hsteps'⟩ := steps_split hsame path branchKey
  rw [hsteps, hsteps', hall]
  simp only [List.mem_append, List.mem_singleton]
  exact or_shift

/-- A reference that stands alone says nothing by itself. -/
theorem steps_of_lone (h : besideRef members = []) : steps members path branchKey = [] := by
  have hsame : ∀ k ∈ stepKeywords, keyword ([] : List (JsString × Json)) k = keyword members k := by
    intro k hk
    rw [keyword_of_lone h]
    · rfl
    · rintro rfl
      exact absurd hk (by decide)
  obtain ⟨before, after, hsteps, hnil⟩ := steps_split hsame path branchKey
  have hall : combinatorSteps members path branchKey (js "allOf") = [] := by
    rw [combinatorSteps, keyword_of_lone h (by decide)]
    rfl
  have hnil : before ++ after = [] := hnil.symm.trans rfl
  rw [hsteps, hall, List.nil_append, hnil]

end Copies

section Inlining

/-- A copy of its target stands for the reference at a location. -/
structure Inlining (schema : Json) (loc : List JsString) (members : List (JsString × Json))
    (target copy : Json) : Prop where
  at_loc : nodeAt loc schema = some (.obj members)
  refers : ∃ ref, refOf members = some ref ∧ resolvePointer schema ref = some target
  copied : inlined members target = some copy

/-- An arm of a conditional takes a copy only beside other keywords: the target of a reference
reaches the path of the arm, and a copy in its place does not. -/
def admitsArms (members : List (JsString × Json)) : Bool := decide (besideRef members ≠ [])

/-- The copy is not noticed: no reference is shared by branches, the node stands for a schema
wherever the walk comes by, no other reference leads to a schema because of the copy, and a copy in
the place of a reference is a node. -/
structure Inlinable (schema : Json) (loc : List JsString) (members : List (JsString × Json))
    (target copy : Json) : Prop where
  unshared : Unshared schema
  place : isPlace (admitsArms members) loc = true
  places : ∀ ref rest, Refers schema ref → segments ref ++ rest = loc →
    isPlace (admitsArms members) rest = true
  leads : ∀ ref, Refers schema ref → LeadsToNode (replaceAt copy loc schema) ref →
    LeadsToNode schema ref
  node : besideRef members = [] → ∃ ms, target = .obj ms

variable {schema target copy node node' : Json} {loc : List JsString}
  {members ms ms' : List (JsString × Json)} {ref : JsString} {conditional : Bool}

/-- The nodes the walk comes by, without the copy and with it. -/
abbrev Alike (members : List (JsString × Json)) (copy : Json) : Bool → Json → Json → Prop :=
  Similar (admitsArms members) (.obj members) copy

theorem Inlinable.copy_obj (h : Inlinable schema loc members target copy)
    (hcopy : inlined members target = some copy) : ∃ ms, copy = .obj ms := by
  by_cases hlone : besideRef members = []
  · rw [inlined, if_pos hlone] at hcopy
    exact Option.some.inj hcopy ▸ h.node hlone
  · obtain ⟨-, ms, hms, -⟩ := inlined_of_beside hlone hcopy
    exact ⟨ms, hms⟩

/-- Below a node with a reference, a location that leads to a node leads there in the copy. -/
theorem nodeAt_copy {more : List JsString} (hne : more ≠ []) (href : refOf members = some ref)
    (hcopy : inlined members target = some copy)
    (hat : nodeAt more (.obj members) = some (.obj ms)) : nodeAt more copy = some (.obj ms) := by
  cases more with
  | nil => exact absurd rfl hne
  | cons k more =>
    obtain ⟨v, hv, hat⟩ := Option.bind_eq_some_iff.mp hat
    have hv : keyword members k = some v := hv
    have hk : k ≠ js "$ref" := by
      rintro rfl
      rw [refOf, hv] at href
      split at href
      · next he =>
        cases he
        cases more with
        | nil => cases hat
        | cons => cases hat
      · cases href
    by_cases hlone : besideRef members = []
    · rw [keyword_of_lone hlone hk] at hv
      cases hv
    · obtain ⟨clauses, copied, rfl, hclauses, hkey⟩ := inlined_of_beside hlone hcopy
      have hkey := hkey k
      rw [nodeAt, child?]
      split at hkey
      · next hall =>
        subst hall
        obtain hc | ⟨hc, -⟩ := hclauses
        · obtain rfl := Option.some.inj (hv.symm.trans hc)
          have hkey : Record.get? copied (js "allOf") = some (.arr (clauses ++ [target])) := hkey
          rw [hkey, Option.bind_some]
          cases more with
          | nil => cases hat
          | cons i more =>
            obtain ⟨w, hw, hat⟩ := Option.bind_eq_some_iff.mp hat
            rw [nodeAt, child?_append _ hw]
            exact hat
        · cases hv.symm.trans hc
      · rw [hv] at hkey
        have hkey : Record.get? copied k = some v := hkey
        rw [hkey]
        exact hat

/-- A reference leads to alike nodes. -/
theorem Inlinable.alike_target (h : Inlinable schema loc members target copy)
    (hin : Inlining schema loc members target copy) (href : Refers schema ref)
    (hres : resolvePointer schema ref = some (.obj ms)) :
    ∃ node', resolvePointer (replaceAt copy loc schema) ref = some node' ∧
      Alike members copy false (.obj ms) node' := by
  rw [resolvePointer_eq] at hres
  rw [resolvePointer_eq]
  split at hres
  · next hlocal =>
    rw [if_pos hlocal]
    by_cases habove : segments ref <+: loc
    · obtain ⟨rest, hrest⟩ := habove
      have hat : nodeAt rest (.obj ms) = some (.obj members) := by
        have hat := hin.at_loc
        rwa [← hrest, nodeAt_append, hres] at hat
      refine ⟨replaceAt copy rest (.obj ms), ?_, .place hat (h.places ref rest href hrest) (by simp)⟩
      rw [← hrest, nodeAt_replaceAt_append, hres]
      rfl
    · refine ⟨.obj ms, ?_, .refl _⟩
      by_cases hbelow : loc <+: segments ref
      · obtain ⟨more, hmore⟩ := hbelow
        have hne : more ≠ [] := by
          rintro rfl
          rw [List.append_nil] at hmore
          exact habove (hmore ▸ List.prefix_rfl)
        rw [← hmore, nodeAt_append, hin.at_loc] at hres
        rw [← hmore, nodeAt_append_replaceAt copy hin.at_loc]
        obtain ⟨ref', href', -⟩ := hin.refers
        exact nodeAt_copy hne href' hin.copied hres
      · rwa [nodeAt_replaceAt_beside copy schema habove hbelow]
  · cases hres

/-- Two alike nodes read alike, unless one is the reference and the other the copy. -/
theorem alike_cases (hcopy : ∃ ms, copy = .obj ms) (hs : Alike members copy conditional (.obj ms) node) :
    (∃ ms', node = .obj ms' ∧ MembersMatch (Alike members copy) ms ms') ∨
      (ms = members ∧ node = copy ∧ (conditional = true → besideRef members ≠ [])) := by
  cases hs with
  | refl => exact Or.inl ⟨ms, rfl, .refl (fun _ v => .refl v) ms⟩
  | @place loc _ hat hplace harm =>
    cases loc with
    | nil =>
      refine Or.inr ⟨Json.obj.inj (Option.some.inj hat), rfl, fun hc => ?_⟩
      exact of_decide_eq_true (harm rfl hc)
    | cons k loc => exact Or.inl ⟨_, rfl, .of_replace ⟨members, rfl⟩ hcopy hat hplace⟩

end Inlining

section Simulations

/-- Jobs of the walks without the copy and with it that come by at the same place. -/
structure AlikeJob (members : List (JsString × Json)) (copy : Json) (job job' : Job) : Prop where
  node : Alike members copy job.conditionalAtSameSite job.node job'.node
  path : job'.path = job.path
  branchKey : job'.branchKey = job.branchKey
  conditional : job'.conditionalAtSameSite = job.conditionalAtSameSite

/-- The jobs are at nodes of which neither stands for the target of the other. -/
structure SettledJob (members : List (JsString × Json)) (copy : Json) (job job' : Job) : Prop
    extends AlikeJob members copy job job' where
  settled : ∃ ms ms', job.node = .obj ms ∧ job'.node = .obj ms' ∧
    (MembersMatch (Alike members copy) ms ms' ∨
      ms = members ∧ job'.node = copy ∧ besideRef members ≠ [])

variable {schema target copy : Json} {loc : List JsString} {members ms ms' : List (JsString × Json)}
  {ref path branchKey : JsString} {job job' child child' : Job} {depth : Nat}
  {e : Surface × JsString} {e' : JsString × JsString}

theorem exists_of_forall₂ {α β : Type} {R : α → β → Prop} {l : List α} {l' : List β}
    (h : List.Forall₂ R l l') : (∀ a ∈ l, ∃ b ∈ l', R a b) ∧ ∀ b ∈ l', ∃ a ∈ l, R a b := by
  induction h with
  | nil => simp
  | @cons a b l l' hab _ ih =>
    constructor
    · intro a' ha
      obtain rfl | ha := List.mem_cons.mp ha
      · exact ⟨b, List.mem_cons_self, hab⟩
      · obtain ⟨b', hb, hr⟩ := ih.1 a' ha
        exact ⟨b', List.mem_cons_of_mem _ hb, hr⟩
    · intro b' hb
      obtain rfl | hb := List.mem_cons.mp hb
      · exact ⟨a, List.mem_cons_self, hab⟩
      · obtain ⟨a', ha, hr⟩ := ih.2 b' hb
        exact ⟨a', List.mem_cons_of_mem _ ha, hr⟩

theorem Inlinable.sameKind (h : Inlinable schema loc members target copy)
    (hin : Inlining schema loc members target copy) {c : Bool} {v v' : Json}
    (hv : Alike members copy c v v') : SameKind v v' :=
  hv.sameKind ⟨members, rfl⟩ (h.copy_obj hin.copied)

theorem Inlinable.stepsMatch (h : Inlinable schema loc members target copy)
    (hin : Inlining schema loc members target copy)
    (hmatch : MembersMatch (Alike members copy) ms ms') (path branchKey : JsString) :
    List.Forall₂ (Step.Matches (Alike members copy)) (steps ms path branchKey)
      (steps ms' path branchKey) :=
  hmatch.steps (fun _ v => .refl v) fun _ _ _ hv => h.sameKind hin hv

theorem MembersMatch.refOf_eq {R : Bool → Json → Json → Prop} (hmatch : MembersMatch R ms ms') :
    refOf ms' = refOf ms := by
  rw [refOf, refOf, hmatch.data (js "$ref") (by decide)]

/-- A job without the copy leads to a job that one with the copy leads to, or that it already
stands for. -/
theorem Inlinable.next (h : Inlinable schema loc members target copy)
    (hin : Inlining schema loc members target copy) (hocc : Occurs schema depth job)
    (hjob : AlikeJob members copy job job') (hchild : child ∈ job.nexts schema)
    (hnode : child.IsNode) : AlikeJob members copy child job' ∨
      ∃ child' ∈ job'.nexts (replaceAt copy loc schema), AlikeJob members copy child child' := by
  obtain ⟨ms, hms, hchild⟩ := mem_nexts.mp hchild
  obtain ⟨ref', href', hres'⟩ := hin.refers
  obtain ⟨halike, hpath, hbranch, hcond⟩ := hjob
  rw [hms] at halike
  obtain ⟨ms', hms', hmatch⟩ | ⟨rfl, hcopy, harm⟩ := alike_cases (h.copy_obj hin.copied) halike
  · obtain ⟨ref, node, href, hres, rfl⟩ | hstep := hchild
    · -- a reference the copy leaves alone
      obtain ⟨members', hmembers'⟩ := hnode
      have hrefers : Refers schema ref := ⟨depth, job, hocc, ref?_eq_some_iff.mpr ⟨ms, hms, href⟩⟩
      obtain rfl : node = .obj members' := hmembers'
      obtain ⟨node', hnode', halike'⟩ := h.alike_target hin hrefers hres
      refine Or.inr ⟨⟨node', job'.path, job'.branchKey, false⟩, mem_nexts.mpr ⟨ms', hms', Or.inl
        ⟨ref, node', hmatch.refOf_eq.trans href, hnode', rfl⟩⟩, halike', hpath, hbranch, rfl⟩
    · obtain ⟨step', hmem, hstep'⟩ := (exists_of_forall₂ (h.stepsMatch hin hmatch _ _)).1 _ hstep
      cases hstep' with
      | @visit _ node' path branchKey _ hv =>
        rw [← hpath, ← hbranch] at hmem
        exact Or.inr ⟨_, mem_nexts.mpr ⟨ms', hms', Or.inr hmem⟩, hv, rfl, rfl, rfl⟩
  · by_cases hlone : besideRef ms = []
    · -- the job with the copy is at the target already
      rw [steps_of_lone hlone] at hchild
      obtain ⟨ref, node, href, hres, rfl⟩ | hstep := hchild
      · obtain rfl := Option.some.inj (href'.symm.trans href)
        obtain rfl := Option.some.inj (hres'.symm.trans hres)
        have htarget : copy = target := by
          have hcopied := hin.copied
          rw [inlined, if_pos hlone] at hcopied
          exact (Option.some.inj hcopied).symm
        have hfalse : job.conditionalAtSameSite = false := by
          rw [← Bool.not_eq_true]
          exact fun hc => harm hc hlone
        refine Or.inl ⟨?_, hpath, hbranch, hcond.trans hfalse⟩
        rw [hcopy, htarget]
        exact .refl _
      · cases hstep
    · -- the copy is visited as a branch of `allOf`
      obtain ⟨copied, rfl, -, hsteps⟩ := mem_steps_of_beside hlone hin.copied job'.path job'.branchKey
      refine Or.inr ⟨child, mem_nexts.mpr ⟨copied, hcopy, Or.inr ((hsteps _).mpr ?_)⟩, .refl _, rfl,
        rfl, rfl⟩
      obtain ⟨ref, node, href, hres, rfl⟩ | hstep := hchild
      · obtain rfl := Option.some.inj (href'.symm.trans href)
        obtain rfl := Option.some.inj (hres'.symm.trans hres)
        rw [hpath, hbranch]
        exact Or.inr rfl
      · rw [hpath, hbranch]
        exact Or.inl hstep

/-- A node adds what a node that reads alike adds. -/
theorem Inlinable.add_mem_iff (h : Inlinable schema loc members target copy)
    (hin : Inlining schema loc members target copy)
    (hmatch : MembersMatch (Alike members copy) ms ms') {s : Surface} {b : JsString} :
    Step.add s b ∈ steps ms path branchKey ↔ Step.add s b ∈ steps ms' path branchKey := by
  have hsteps := exists_of_forall₂ (h.stepsMatch hin hmatch path branchKey)
  constructor
  · intro hadd
    obtain ⟨step, hmem, hstep⟩ := hsteps.1 _ hadd
    cases hstep
    exact hmem
  · intro hadd
    obtain ⟨step, hmem, hstep⟩ := hsteps.2 _ hadd
    cases hstep
    exact hmem

theorem Inlinable.adds (h : Inlinable schema loc members target copy)
    (hin : Inlining schema loc members target copy) (hjob : AlikeJob members copy job job')
    (hadds : job.Adds e) : job'.Adds e := by
  obtain ⟨ms, hms, hadd⟩ := hadds
  obtain ⟨halike, hpath, hbranch, -⟩ := hjob
  rw [hms] at halike
  rw [← hpath, ← hbranch] at hadd
  obtain ⟨ms', hms', hmatch⟩ | ⟨rfl, hcopy, -⟩ := alike_cases (h.copy_obj hin.copied) halike
  · exact ⟨ms', hms', (h.add_mem_iff hin hmatch).mp hadd⟩
  · by_cases hlone : besideRef ms = []
    · rw [steps_of_lone hlone] at hadd
      cases hadd
    · obtain ⟨copied, rfl, -, hsteps⟩ := mem_steps_of_beside hlone hin.copied job'.path job'.branchKey
      exact ⟨copied, hcopy, (hsteps _).mpr (Or.inl hadd)⟩

theorem AlikeJob.reaches_iff (hjob : AlikeJob members copy job job')
    (hkind : SameKind job.node job'.node) : job'.Reaches e' ↔ job.Reaches e' := by
  rw [Job.Reaches, Job.Reaches, hkind.members, hjob.conditional, hjob.path, hjob.branchKey]

/-- A job with the copy stands for one without it that is no reference to the target. -/
theorem Inlinable.settle (h : Inlinable schema loc members target copy)
    (hin : Inlining schema loc members target copy) (hocc : Occurs schema depth job)
    (hjob : AlikeJob members copy job job') (hnode : job'.IsNode) :
    ∃ depth' job₀, depth ≤ depth' ∧ Occurs schema depth' job₀ ∧ job₀.IsNode ∧
      SettledJob members copy job₀ job' := by
  obtain ⟨ms, hms⟩ := (h.sameKind hin hjob.node).members.mp hnode
  have halike := hjob.node
  rw [hms] at halike
  obtain ⟨ms', hms', hmatch⟩ | ⟨rfl, hcopy, harm⟩ := alike_cases (h.copy_obj hin.copied) halike
  · exact ⟨depth, job, le_rfl, hocc, ⟨ms, hms⟩, hjob, ms, ms', hms, hms', Or.inl hmatch⟩
  · by_cases hlone : besideRef ms = []
    · -- the target of the reference, one level below
      obtain ⟨ref, href, hres⟩ := hin.refers
      obtain ⟨members', rfl⟩ := h.node hlone
      have hcopied := hin.copied
      rw [inlined, if_pos hlone] at hcopied
      have hfalse : job.conditionalAtSameSite = false := by
        rw [← Bool.not_eq_true]
        exact fun hc => harm hc hlone
      refine ⟨depth + 1, _, Nat.le_succ depth, .ref hocc hms href hres, ⟨members', rfl⟩,
        ⟨?_, hjob.path, hjob.branchKey, hjob.conditional.trans hfalse⟩, members', members', rfl,
        ?_, Or.inl (.refl (fun _ v => .refl v) members')⟩
      · rw [hcopy, ← Option.some.inj hcopied]
        exact .refl _
      · rw [hcopy, ← Option.some.inj hcopied]
    · obtain ⟨ms', hms'⟩ := hnode
      exact ⟨depth, job, le_rfl, hocc, ⟨ms, hms⟩, hjob, ms, ms', hms, hms',
        Or.inr ⟨rfl, hcopy, hlone⟩⟩

/-- A job with the copy leads to what one without it leads to. -/
theorem Inlinable.next_of_settled (h : Inlinable schema loc members target copy)
    (hin : Inlining schema loc members target copy) (hocc : Occurs schema depth job)
    (hjob : SettledJob members copy job job')
    (hchild : child' ∈ job'.nexts (replaceAt copy loc schema)) (hnode : child'.IsNode) :
    ∃ child ∈ job.nexts schema, AlikeJob members copy child child' := by
  obtain ⟨⟨-, hpath, hbranch, -⟩, ms, ms', hms, hms', hmatch⟩ := hjob
  obtain ⟨_, hms'', hchild⟩ := mem_nexts.mp hchild
  obtain rfl := Json.obj.inj (hms'.symm.trans hms'')
  obtain hmatch | ⟨rfl, hcopy, hlone⟩ := hmatch
  · obtain ⟨ref, node', href, hres, rfl⟩ | hstep := hchild
    · obtain ⟨members', hmembers'⟩ := hnode
      obtain rfl : node' = .obj members' := hmembers'
      rw [hmatch.refOf_eq] at href
      have hrefers : Refers schema ref := ⟨depth, job, hocc, ref?_eq_some_iff.mpr ⟨ms, hms, href⟩⟩
      obtain ⟨nodes, hnodes⟩ := h.leads ref hrefers ⟨members', hres⟩
      obtain ⟨node', hres', halike⟩ := h.alike_target hin hrefers hnodes
      obtain rfl := Option.some.inj (hres'.symm.trans hres)
      exact ⟨_, mem_nexts.mpr ⟨ms, hms, Or.inl ⟨ref, _, href, hnodes, rfl⟩⟩, halike, hpath,
        hbranch, rfl⟩
    · obtain ⟨step, hmem, hstep⟩ := (exists_of_forall₂ (h.stepsMatch hin hmatch _ _)).2 _ hstep
      cases hstep with
      | @visit node _ path branchKey _ hv =>
        rw [hpath, hbranch] at hmem
        exact ⟨_, mem_nexts.mpr ⟨ms, hms, Or.inr hmem⟩, hv, rfl, rfl, rfl⟩
  · obtain ⟨copied, hcopied, hnone, hsteps⟩ := mem_steps_of_beside hlone hin.copied job'.path job'.branchKey
    obtain rfl := Json.obj.inj (hms'.symm.trans (hcopy.trans hcopied))
    obtain ⟨ref, node', href, -⟩ | hstep := hchild
    · cases hnone.symm.trans href
    · refine ⟨child', mem_nexts.mpr ⟨ms, hms, ?_⟩, .refl _, rfl, rfl, rfl⟩
      rw [hpath, hbranch] at hstep hsteps
      obtain hstep | hstep := (hsteps _).mp hstep
      · exact Or.inr hstep
      · obtain ⟨ref, href, hres⟩ := hin.refers
        cases hstep
        exact Or.inl ⟨ref, target, href, hres, rfl⟩

theorem Inlinable.adds_of_settled (h : Inlinable schema loc members target copy)
    (hin : Inlining schema loc members target copy) (hjob : SettledJob members copy job job')
    (hadds : job'.Adds e) : job.Adds e := by
  obtain ⟨⟨-, hpath, hbranch, -⟩, ms, ms', hms, hms', hmatch⟩ := hjob
  obtain ⟨_, hms'', hadd⟩ := hadds
  obtain rfl := Json.obj.inj (hms'.symm.trans hms'')
  rw [hpath, hbranch] at hadd
  obtain hmatch | ⟨rfl, hcopy, hlone⟩ := hmatch
  · exact ⟨ms, hms, (h.add_mem_iff hin hmatch).mpr hadd⟩
  · obtain ⟨copied, hcopied, -, hsteps⟩ := mem_steps_of_beside hlone hin.copied job.path job.branchKey
    obtain rfl := Json.obj.inj (hms'.symm.trans (hcopy.trans hcopied))
    obtain hadd | hadd := (hsteps _).mp hadd
    · exact ⟨ms, hms, hadd⟩
    · cases hadd

theorem SettledJob.ref? (hjob : SettledJob members copy job job')
    (hin : Inlining schema loc members target copy) (href : job'.ref? = some ref) :
    job.ref? = some ref := by
  obtain ⟨-, ms, ms', hms, hms', hmatch⟩ := hjob
  obtain ⟨_, hms'', href⟩ := ref?_eq_some_iff.mp href
  obtain rfl := Json.obj.inj (hms'.symm.trans hms'')
  obtain hmatch | ⟨rfl, hcopy, hlone⟩ := hmatch
  · exact ref?_eq_some_iff.mpr ⟨ms, hms, hmatch.refOf_eq ▸ href⟩
  · obtain ⟨copied, hcopied, hnone, -⟩ := mem_steps_of_beside hlone hin.copied [] []
    obtain rfl := Json.obj.inj (hms'.symm.trans (hcopy.trans hcopied))
    cases hnone.symm.trans href

theorem Inlinable.alike_root (h : Inlinable schema loc members target copy)
    (hin : Inlining schema loc members target copy) :
    AlikeJob members copy (rootJob schema) (rootJob (replaceAt copy loc schema)) :=
  ⟨.place hin.at_loc h.place fun _ hc => absurd hc Bool.false_ne_true, rfl, rfl, rfl⟩

/-- The schema with the copy simulates the one without it. -/
theorem Inlinable.simulates (h : Inlinable schema loc members target copy)
    (hin : Inlining schema loc members target copy) :
    Simulates (unfolding schema) (unfolding (replaceAt copy loc schema))
      fun s t => AlikeJob members copy s.2 t.2 where
  initial s hs := by
    obtain ⟨rfl, hnode⟩ := hs
    have hroot := h.alike_root hin
    exact ⟨_, .initial ⟨rfl, (h.sameKind hin hroot.node).members.mpr hnode⟩, hroot⟩
  step s s' t hs ht hr hstep := by
    obtain ⟨-, hchild, hnode⟩ := hstep
    obtain hstay | ⟨child', hmem, halike⟩ :=
      h.next hin (reached_unfolding.mp hs).1 hr hchild hnode
    · exact ⟨t, ht, hstay⟩
    · have hnode' := (h.sameKind hin halike.node).members.mpr hnode
      exact ⟨(t.1 + 1, child'), .step ht ⟨rfl, hmem, hnode'⟩, halike⟩

/-- The schema without the copy simulates the one with it, at no smaller depth. -/
theorem Inlinable.simulated (h : Inlinable schema loc members target copy)
    (hin : Inlining schema loc members target copy) :
    Simulates (unfolding (replaceAt copy loc schema)) (unfolding schema)
      fun t s => t.1 ≤ s.1 ∧ SettledJob members copy s.2 t.2 where
  initial t ht := by
    obtain ⟨rfl, hnode⟩ := ht
    obtain ⟨depth, job, hle, hocc, hjob, hsettled⟩ := h.settle hin .root (h.alike_root hin) hnode
    exact ⟨(depth, job), reached_unfolding.mpr ⟨hocc, hjob⟩, hle, hsettled⟩
  step t t' s ht hs hr hstep := by
    obtain ⟨hdepth, hchild, hnode⟩ := hstep
    obtain ⟨hle, hsettled⟩ := hr
    have hocc := (reached_unfolding.mp hs).1
    obtain ⟨child, hmem, halike⟩ := h.next_of_settled hin hocc hsettled hchild hnode
    obtain ⟨depth, job, hle', hocc', hjob, hsettled'⟩ := h.settle hin (hocc.next hmem) halike hnode
    refine ⟨(depth, job), reached_unfolding.mpr ⟨hocc', hjob⟩, ?_, hsettled'⟩
    rw [hdepth]
    exact (Nat.succ_le_succ hle).trans hle'

/-- The copy shares no reference either. -/
theorem Inlinable.unshared_copy (h : Inlinable schema loc members target copy)
    (hin : Inlining schema loc members target copy) : Unshared (replaceAt copy loc schema) where
  shallow depth job hocc hnode := by
    obtain ⟨⟨depth', job'⟩, hreached, hle, -⟩ :=
      (h.simulated hin).reached (reached_unfolding.mpr ⟨hocc, hnode⟩)
    obtain ⟨hocc', hnode'⟩ := reached_unfolding.mp hreached
    exact hle.trans (h.unshared.shallow depth' job' hocc' hnode')
  once depth depth' job job' ref ref' hocc hocc' href href' hleads hkey := by
    obtain ⟨⟨d, j⟩, hreached, -, hsettled⟩ :=
      (h.simulated hin).reached (reached_unfolding.mpr ⟨hocc, isNode_of_ref? href⟩)
    obtain ⟨⟨d', j'⟩, hreached', -, hsettled'⟩ :=
      (h.simulated hin).reached (reached_unfolding.mpr ⟨hocc', isNode_of_ref? href'⟩)
    have hocc := (reached_unfolding.mp hreached).1
    have href := hsettled.ref? hin href
    have hkey' : seenKey ref j.path = seenKey ref' j'.path := by
      rw [← hsettled.path, ← hsettled'.path]
      exact hkey
    obtain ⟨hrefs, hpath, hbranch⟩ := h.unshared.once d d' j j' ref ref' hocc
      (reached_unfolding.mp hreached').1 href (hsettled'.ref? hin href')
      (h.leads ref ⟨d, j, hocc, href⟩ hleads) hkey'
    exact ⟨hrefs, hsettled.path.trans (hpath.trans hsettled'.path.symm),
      hsettled.branchKey.trans (hbranch.trans hsettled'.branchKey.symm)⟩

theorem Inlinable.imposing_iff (h : Inlinable schema loc members target copy)
    (hin : Inlining schema loc members target copy) (s : Surface) (b : JsString) :
    Imposing schema s b ↔ Imposing (replaceAt copy loc schema) s b := by
  rw [imposing_iff_reached, imposing_iff_reached]
  constructor
  · exact (h.simulates hin).observed fun _ _ hr hadds => h.adds hin hr hadds
  · exact (h.simulated hin).observed fun _ _ hr hadds => h.adds_of_settled hin hr.2 hadds

theorem Inlinable.reaching_iff (h : Inlinable schema loc members target copy)
    (hin : Inlining schema loc members target copy) (path b : JsString) :
    Reaching schema path b ↔ Reaching (replaceAt copy loc schema) path b := by
  rw [reaching_iff_reached, reaching_iff_reached]
  constructor
  · exact (h.simulates hin).observed fun _ _ hr => (hr.reaches_iff (h.sameKind hin hr.node)).mpr
  · exact (h.simulated hin).observed fun _ _ hr =>
      (hr.2.reaches_iff (h.sameKind hin hr.2.node)).mp

/-- The copy lists what the reference lists. -/
theorem Inlinable.sameSurfaces (h : Inlinable schema loc members target copy)
    (hin : Inlining schema loc members target copy) :
    SameSurfaces schema (replaceAt copy loc schema) :=
  h.unshared.sameSurfaces (h.unshared_copy hin) (h.imposing_iff hin) (h.reaching_iff hin)

end Simulations

end OpenWop.Schema
