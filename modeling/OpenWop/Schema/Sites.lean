import OpenWop.Schema.Listing
import OpenWop.Schema.Reference

/-!
# The sites of a schema without combinators

Where no combinator opens a second branch, every path leads to one node, up to references,
and the census lists exactly what that node says.
-/

namespace OpenWop.Schema

open OpenWop.Js OpenWop.Delimited

section Segments

variable {s t : JsString}

theorem unescape_cons_of_ne {u : UInt16} (hu : u ≠ unit '~') (s : JsString) :
    unescape (u :: s) = u :: unescape s := by
  cases s with
  | nil => rfl
  | cons v rest => rw [unescape, if_neg fun h => hu h.1, if_neg fun h => hu h.1]

theorem esc_cons (u : UInt16) (s : JsString) : esc (u :: s) =
    (if u = unit '~' then js "~0" else if u = unit '/' then js "~1" else [u]) ++ esc s :=
  List.flatMap_cons

theorem unescape_esc (s : JsString) : unescape (esc s) = s := by
  induction s with
  | nil => rfl
  | cons u s ih =>
    rw [esc_cons]
    split
    · next hu =>
      change unescape (unit '~' :: unit '0' :: esc s) = u :: s
      rw [unescape, if_neg (by decide), if_pos (by decide), ih, hu]
    · next hu =>
      split
      · next hslash =>
        change unescape (unit '~' :: unit '1' :: esc s) = u :: s
        rw [unescape, if_pos (by decide), ih, hslash]
      · rw [List.singleton_append, unescape_cons_of_ne hu, ih]

theorem esc_injective : Function.Injective esc := fun s t h => by
  rw [← unescape_esc s, h, unescape_esc]

/-- Escaping removes slashes and adds only the signs of an escape. -/
theorem mem_esc {u : UInt16} (h : u ∈ esc s) : u ≠ unit '/' ∧ (u ∈ s ∨ u ∈ js "~01") := by
  have hsigns : ∀ w ∈ js "~01", w ≠ unit '/' := by
    rw [show js "~01" = [unit '~', unit '0', unit '1'] from rfl]
    simp only [List.forall_mem_cons, List.not_mem_nil, false_imp_iff, implies_true, and_true]
    decide
  have hzero : ∀ w ∈ js "~0", w ∈ js "~01" := fun w hw => List.mem_of_mem_dropLast hw
  have hone : ∀ w ∈ js "~1", w ∈ js "~01" := by
    rw [show js "~1" = [unit '~', unit '1'] from rfl]
    simp only [List.forall_mem_cons, List.not_mem_nil, false_imp_iff, implies_true, and_true]
    decide
  obtain ⟨v, hv, hu⟩ := List.mem_flatMap.mp h
  split at hu
  · exact ⟨hsigns u (hzero u hu), Or.inr (hzero u hu)⟩
  · split at hu
    · exact ⟨hsigns u (hone u hu), Or.inr (hone u hu)⟩
    · next hslash =>
      obtain rfl := List.mem_singleton.mp hu
      exact ⟨hslash, Or.inl hv⟩

end Segments

section Steps

variable {members : List (JsString × Json)} {path branchKey b : JsString} {s : Surface}

/-- What a node says of a kind. -/
def valuesOf (members : List (JsString × Json)) : SurfaceKind → List JsString
  | .property => Record.keys (entriesOf members (js "properties"))
  | .enumMember => enumValues members
  | .required => requiredNames members
  | .closed => closedValues members
  | .type => typeNames members

theorem add_mem_addSteps {kind : SurfaceKind} {values : List JsString} :
    Step.add s b ∈ addSteps path branchKey kind values ↔
      s.path = path ∧ b = branchKey ∧ s.kind = kind ∧ s.value ∈ values := by
  simp only [addSteps, List.mem_map, Step.add.injEq]
  constructor
  · rintro ⟨value, hvalue, rfl, rfl⟩
    exact ⟨rfl, rfl, rfl, hvalue⟩
  · rintro ⟨rfl, rfl, rfl, hvalue⟩
    exact ⟨s.value, hvalue, rfl, rfl⟩

theorem add_not_mem_combinatorSteps {comb : JsString} :
    Step.add s b ∉ combinatorSteps members path branchKey comb := by
  intro h
  obtain ⟨_, -, he⟩ := List.mem_map.mp h
  cases he

theorem add_not_mem_conditionalSteps {cond : JsString} :
    Step.add s b ∉ conditionalSteps members path branchKey cond := by
  intro h
  unfold conditionalSteps at h
  split at h
  · split at h
    · obtain hs | hs := List.mem_append.mp h
      · split at hs
        · split at hs
          · cases List.mem_singleton.mp hs
          · cases hs
        · cases hs
      · cases List.mem_singleton.mp hs
    · cases h
  · cases h

theorem add_not_mem_map {α : Type} {f : α → Step} (hf : ∀ a, ∃ job, f a = .visit job)
    {items : List α} : Step.add s b ∉ items.map f := by
  intro h
  obtain ⟨a, -, he⟩ := List.mem_map.mp h
  obtain ⟨job, hjob⟩ := hf a
  cases hjob.symm.trans he

/-- A node adds what it says, at its path and in its branch. -/
theorem add_mem_steps : Step.add s b ∈ steps members path branchKey ↔
    s.path = path ∧ b = branchKey ∧ s.value ∈ valuesOf members s.kind := by
  have hproperties : Step.add s b ∈ (entriesOf members (js "properties")).flatMap (fun p =>
      [.add ⟨path, .property, p.1⟩ branchKey, below path branchKey (esc p.1) p.2]) ↔
      s.path = path ∧ b = branchKey ∧ s.kind = .property ∧
        s.value ∈ Record.keys (entriesOf members (js "properties")) := by
    simp only [List.mem_flatMap, List.mem_pair, Step.add.injEq, below, reduceCtorEq, or_false,
      Record.keys, List.mem_map]
    constructor
    · rintro ⟨p, hp, rfl, rfl⟩
      exact ⟨rfl, rfl, rfl, p, hp, rfl⟩
    · rintro ⟨rfl, rfl, hkind, p, hp, hvalue⟩
      refine ⟨p, hp, ?_, rfl⟩
      rw [← hkind, hvalue]
  have hbelow : ∀ segment node, ∃ job, below path branchKey segment node = .visit job :=
    fun _ _ => ⟨_, rfl⟩
  rw [steps]
  simp only [List.mem_append, add_mem_addSteps, hproperties, List.mem_flatMap,
    add_not_mem_combinatorSteps, add_not_mem_conditionalSteps, and_false, exists_false, false_or,
    add_not_mem_map fun _ => hbelow _ _, or_false]
  cases hkind : s.kind <;> simp [valuesOf]

end Steps

section Simple

/-- A node over `type`, `properties`, `required`, `additionalProperties`, `enum`, `const`, `items`
and a reference that stands alone. -/
@[mk_iff]
structure Simple (root : Json) (members : List (JsString × Json)) : Prop where
  keywords : ∀ k ∈ [js "anyOf", js "oneOf", js "allOf", js "if", js "then", js "else",
    js "patternProperties", js "prefixItems", js "minItems"], keyword members k = none
  reference : ∀ ref ∈ refOf members,
    Lone members ∧ unit '@' ∉ ref ∧ ∃ target, resolvePointer root ref = some target
  properties : ∀ s ∈ keyword members (js "properties"), ∃ ps, s = .obj ps
  names : ∀ p ∈ schemasOf members (js "properties"),
    p.1 ≠ js "*" ∧ p.1 ≠ js "[]" ∧ unit '|' ∉ p.1
  nodup : (Record.keys (schemasOf members (js "properties"))).Nodup
  additional : ∀ s ∈ keyword members (js "additionalProperties"),
    (∃ b, s = .bool b) ∨ ∃ ms, s = .obj ms
  items : ∀ s ∈ keyword members (js "items"), ∃ ms, s = .obj ms
  type : ∀ t ∈ keyword members (js "type"), typeNames members ≠ []
  required : ∀ n ∈ requiredItems members, ∃ k, n = .str k
  enum : ∀ s ∈ keyword members (js "enum"), ∃ values, s = .arr values
  single : keyword members (js "enum") = none ∨ keyword members (js "const") = none
  plain : ∀ v ∈ clausesOf members (js "enum") ++ (keyword members (js "const")).toList,
    Json.isPlain v = true

instance (o : Option Json) : Decidable (∃ v, o = some v) :=
  decidable_of_iff (o.isSome = true) Option.isSome_iff_exists

instance (v : Json) : Decidable (∃ b, v = .bool b) :=
  match v with
  | .bool b => isTrue ⟨b, rfl⟩
  | .null | .num _ | .str _ | .arr _ | .obj _ => isFalse fun ⟨_, h⟩ => nomatch h

instance (v : Json) : Decidable (∃ s, v = .str s) :=
  match v with
  | .str s => isTrue ⟨s, rfl⟩
  | .null | .bool _ | .num _ | .arr _ | .obj _ => isFalse fun ⟨_, h⟩ => nomatch h

instance (v : Json) : Decidable (∃ vs, v = .arr vs) :=
  match v with
  | .arr vs => isTrue ⟨vs, rfl⟩
  | .null | .bool _ | .num _ | .str _ | .obj _ => isFalse fun ⟨_, h⟩ => nomatch h

instance (v : Json) : Decidable (∃ ms, v = .obj ms) :=
  match v with
  | .obj ms => isTrue ⟨ms, rfl⟩
  | .null | .bool _ | .num _ | .str _ | .arr _ => isFalse fun ⟨_, h⟩ => nomatch h

instance (members : List (JsString × Json)) : Decidable (Lone members) :=
  inferInstanceAs (Decidable (∀ k ∈ siblingKeywords, keyword members k = none))

instance (root : Json) (members : List (JsString × Json)) : Decidable (Simple root members) :=
  decidable_of_iff _ (simple_iff root members).symm

/-- Every node of the schema is simple. -/
def SimpleSchema (root : Json) : Prop :=
  ∀ depth job, Occurs root depth job → ∃ members, job.node = .obj members ∧ Simple root members

/-- The subschemas of a simple node, by their segment. -/
def children (members : List (JsString × Json)) : List (JsString × Json) :=
  (schemasOf members (js "properties")).map (fun p => (esc p.1, p.2)) ++
    ((keyword members (js "additionalProperties")).filter
      fun s => Json.isObject (some s)).toList.map (fun s => (js "*", s)) ++
    (keyword members (js "items")).toList.map fun s => (js "[]", s)

variable {root : Json} {members : List (JsString × Json)} {path branchKey : JsString}

theorem Simple.entriesOf_eq (h : Simple root members) :
    entriesOf members (js "properties") = schemasOf members (js "properties") := by
  unfold entriesOf schemasOf
  cases hk : keyword members (js "properties") with
  | none => rfl
  | some s =>
    obtain ⟨ps, rfl⟩ := h.properties s hk
    rfl

theorem visit_not_mem_addSteps {kind : SurfaceKind} {values : List JsString} {next : Job} :
    Step.visit next ∉ addSteps path branchKey kind values := by
  intro h
  obtain ⟨_, -, he⟩ := List.mem_map.mp h
  cases he

/-- A simple node leads to its subschemas. -/
theorem Simple.visit_mem_steps (h : Simple root members) {next : Job} :
    Step.visit next ∈ steps members path branchKey ↔
      ∃ c ∈ children members, next = ⟨c.2, path ++ js "/" ++ c.1, branchKey, false⟩ := by
  have hcomb : [js "anyOf", js "oneOf", js "allOf"].flatMap
      (combinatorSteps members path branchKey) = [] := by
    simp [combinatorSteps, h.keywords (js "anyOf") (by decide), Json.items?,
      h.keywords (js "oneOf") (by decide), h.keywords (js "allOf") (by decide)]
  have hcond : [js "then", js "else"].flatMap (conditionalSteps members path branchKey) = [] := by
    simp [conditionalSteps, h.keywords (js "then") (by decide),
      h.keywords (js "else") (by decide)]
  have hpattern : entriesOf members (js "patternProperties") = [] := by
    simp [entriesOf, h.keywords (js "patternProperties") (by decide)]
  have hprefix : (Json.items? (keyword members (js "prefixItems"))).getD [] = [] := by
    rw [h.keywords (js "prefixItems") (by decide)]
    rfl
  have hitems : (keyword members (js "items")).filter
      (fun s => Json.isObject (some s) && (Json.items? (some s)).isNone) =
        keyword members (js "items") := by
    cases hk : keyword members (js "items") with
    | none => rfl
    | some s =>
      obtain ⟨ms, rfl⟩ := h.items s hk
      rfl
  have hproperties : Step.visit next ∈ (schemasOf members (js "properties")).flatMap (fun p =>
      [.add ⟨path, .property, p.1⟩ branchKey, below path branchKey (esc p.1) p.2]) ↔
      ∃ c ∈ (schemasOf members (js "properties")).map (fun p => (esc p.1, p.2)),
        next = ⟨c.2, path ++ js "/" ++ c.1, branchKey, false⟩ := by
    simp only [List.mem_flatMap, List.mem_pair, below, reduceCtorEq, Step.visit.injEq, false_or,
      List.mem_map, exists_exists_and_eq_and]
  have hmap : ∀ (segment : JsString) (nodes : List Json),
      Step.visit next ∈ nodes.map (below path branchKey segment) ↔
        ∃ c ∈ nodes.map (fun s => (segment, s)),
          next = ⟨c.2, path ++ js "/" ++ c.1, branchKey, false⟩ := by
    intro segment nodes
    simp only [List.mem_map, below, exists_exists_and_eq_and]
    simp only [Step.visit.injEq, eq_comm]
  rw [steps, hcomb, hcond, hpattern, hprefix, h.entriesOf_eq, hitems]
  simp only [List.mem_append, visit_not_mem_addSteps, hproperties, hmap, children, or_and_right,
    exists_or, List.nil_append, List.map_nil, List.zipIdx_nil, List.not_mem_nil, false_or,
    or_false]

end Simple

section Paths

variable {root : Json} {members settled settled' : List (JsString × Json)}
  {job job' : Job} {depth depth' : Nat} {segment segment' path path' : JsString} {a b : Json}

/-- A path ends in one segment. -/
theorem append_segment_inj (hs : unit '/' ∉ segment) (hs' : unit '/' ∉ segment')
    (h : path ++ js "/" ++ segment = path' ++ js "/" ++ segment') :
    path = path' ∧ segment = segment' := by
  have hrev := congrArg List.reverse h
  simp only [List.reverse_append] at hrev
  have hstop : ∀ p : JsString, Stops (· = unit '/') ((js "/").reverse ++ p) :=
    fun _ => stops_cons rfl
  have hmem : ∀ t : JsString, unit '/' ∉ t → ∀ u ∈ t.reverse, ¬ u = unit '/' :=
    fun t ht => forall_ne_of_not_mem fun h => ht (List.mem_reverse.mp h)
  have hparts : segment.reverse = segment'.reverse ∧
      (js "/").reverse ++ path.reverse = (js "/").reverse ++ path'.reverse :=
    append_inj_of_stops (hmem _ hs) (hmem _ hs') (hstop _) (hstop _) hrev
  exact ⟨List.reverse_injective (List.append_cancel_left hparts.2),
    List.reverse_injective hparts.1⟩

/-- The subschemas: those of properties, of the other members and of the items. -/
theorem mem_children {c : JsString × Json} : c ∈ children members ↔
    (∃ p ∈ schemasOf members (js "properties"), c = (esc p.1, p.2)) ∨
    (Json.isObject (some c.2) = true ∧ c.1 = js "*" ∧
      keyword members (js "additionalProperties") = some c.2) ∨
    (c.1 = js "[]" ∧ keyword members (js "items") = some c.2) := by
  obtain ⟨segment, node⟩ := c
  simp only [children, List.mem_append, List.mem_map, Option.mem_toList,
    Option.filter_eq_some_iff, Prod.mk.injEq, or_assoc]
  refine or_congr ?_ (or_congr ?_ ?_)
  · simp [eq_comm]
  · constructor
    · rintro ⟨s, ⟨hs, hobj⟩, rfl, rfl⟩
      exact ⟨hobj, rfl, hs⟩
    · rintro ⟨hobj, rfl, hs⟩
      exact ⟨node, ⟨hs, hobj⟩, rfl, rfl⟩
  · constructor
    · rintro ⟨s, hs, rfl, rfl⟩
      exact ⟨rfl, hs⟩
    · rintro ⟨rfl, hs⟩
      exact ⟨node, hs, rfl, rfl⟩

theorem Simple.segment_clean (h : Simple root members) (hc : (segment, a) ∈ children members) :
    unit '/' ∉ segment ∧ unit '|' ∉ segment := by
  obtain ⟨p, hp, he⟩ | ⟨-, he, -⟩ | ⟨he, -⟩ := mem_children.mp hc
  · cases he
    refine ⟨fun hmem => (mem_esc hmem).1 rfl, fun hmem => ?_⟩
    obtain hmem | hmem := (mem_esc hmem).2
    · exact (h.names p hp).2.2 hmem
    · exact absurd hmem (by decide)
  · cases he
    decide
  · cases he
    decide

/-- A segment leads to one subschema. -/
theorem Simple.child_unique (h : Simple root members) (ha : (segment, a) ∈ children members)
    (hb : (segment, b) ∈ children members) : a = b := by
  have hstar : ∀ p ∈ schemasOf members (js "properties"), esc p.1 ≠ js "*" :=
    fun p hp he => (h.names p hp).1 (esc_injective (he.trans (by decide)))
  have hitems : ∀ p ∈ schemasOf members (js "properties"), esc p.1 ≠ js "[]" :=
    fun p hp he => (h.names p hp).2.1 (esc_injective (he.trans (by decide)))
  obtain ⟨p, hp, he⟩ | ⟨-, he, hk⟩ | ⟨he, hk⟩ := mem_children.mp ha <;>
    obtain ⟨q, hq, he'⟩ | ⟨-, he', hk'⟩ | ⟨he', hk'⟩ := mem_children.mp hb
  · obtain ⟨rfl, rfl⟩ := Prod.mk.inj he
    obtain ⟨hkey, rfl⟩ := Prod.mk.inj he'
    have hp' := Record.get?_of_mem h.nodup hp
    have hq' := Record.get?_of_mem h.nodup hq
    rw [esc_injective hkey, hq'] at hp'
    exact (Option.some.inj hp').symm
  · exact absurd ((Prod.mk.inj he).1.symm.trans he') (hstar p hp)
  · exact absurd ((Prod.mk.inj he).1.symm.trans he') (hitems p hp)
  · exact absurd ((Prod.mk.inj he').1.symm.trans he) (hstar q hq)
  · exact Option.some.inj (hk.symm.trans hk')
  · exact absurd (he.symm.trans he') (by decide)
  · exact absurd ((Prod.mk.inj he').1.symm.trans he) (hitems q hq)
  · exact absurd (he.symm.trans he') (by decide)
  · exact Option.some.inj (hk.symm.trans hk')

end Paths

section Sites

variable {root : Json} {members settled settled' : List (JsString × Json)}
  {job : Job} {depth : Nat} {path : JsString}

/-- Everything in a simple schema is in its only branch, at a path without bars. -/
theorem SimpleSchema.one_branch (h : SimpleSchema root) (hocc : Occurs root depth job) :
    job.branchKey = js "root" ∧ job.conditionalAtSameSite = false ∧ unit '|' ∉ job.path := by
  induction hocc with
  | root => exact ⟨rfl, rfl, List.not_mem_nil⟩
  | ref _ _ _ _ ih => exact ⟨ih.1, rfl, ih.2.2⟩
  | step hocc hnode hmem ih =>
    obtain ⟨ms, hms, hsimple⟩ := h _ _ hocc
    obtain rfl := Json.obj.inj (hms.symm.trans hnode)
    obtain ⟨⟨segment, node⟩, hc, rfl⟩ := hsimple.visit_mem_steps.mp hmem
    refine ⟨ih.1, rfl, ?_⟩
    simp only [List.mem_append, not_or]
    exact ⟨⟨ih.2.2, by decide⟩, (hsimple.segment_clean hc).2⟩

/-- A job that is the root or a subschema of an occurrence. -/
def Fresh (root : Json) (job : Job) : Prop :=
  (job.node = root ∧ job.path = []) ∨ ∃ depth parent members segment, Occurs root depth parent ∧
    parent.node = .obj members ∧ (segment, job.node) ∈ children members ∧
    job.path = parent.path ++ js "/" ++ segment

/-- An occurrence is reached by references from a fresh one at its path. -/
theorem SimpleSchema.exists_fresh (h : SimpleSchema root) (hocc : Occurs root depth job) :
    ∃ first, Fresh root first ∧ first.path = job.path ∧
      ∀ settled, Settles root job.node settled → Settles root first.node settled := by
  induction hocc with
  | root => exact ⟨_, Or.inl ⟨rfl, rfl⟩, rfl, fun _ hs => hs⟩
  | ref hocc hnode href hres ih =>
    obtain ⟨first, hfresh, hpath, hsettles⟩ := ih
    obtain ⟨ms, hms, hsimple⟩ := h _ _ hocc
    obtain rfl := Json.obj.inj (hms.symm.trans hnode)
    refine ⟨first, hfresh, hpath, fun settled hs => hsettles settled ?_⟩
    rw [hnode]
    exact .ref href (hsimple.reference _ href).1 (targetOf_of_resolvePointer hres) hs
  | step hocc hnode hmem _ =>
    obtain ⟨ms, hms, hsimple⟩ := h _ _ hocc
    obtain rfl := Json.obj.inj (hms.symm.trans hnode)
    obtain ⟨⟨segment, node⟩, hc, rfl⟩ := hsimple.visit_mem_steps.mp hmem
    exact ⟨_, Or.inr ⟨_, _, _, segment, hocc, hnode, hc, rfl⟩, rfl, fun _ hs => hs⟩

/-- The node without a reference at a path. -/
def SettledAt (root : Json) (path : JsString) (settled : List (JsString × Json)) : Prop :=
  ∃ depth job, Occurs root depth job ∧ job.path = path ∧ Settles root job.node settled

/-- A node with a subschema has no reference. -/
theorem Simple.settles_of_child (h : Simple root members) {c : JsString × Json}
    (hc : c ∈ children members) : Settles root (.obj members) members := by
  apply Settles.here
  cases href : refOf members with
  | none => rfl
  | some ref =>
    obtain ⟨hlone, -⟩ := h.reference ref href
    obtain ⟨p, hp, -⟩ | ⟨-, -, hk⟩ | ⟨-, hk⟩ := mem_children.mp hc
    · rw [schemasOf, hlone _ (by decide)] at hp
      cases hp
    · rw [hlone _ (by decide)] at hk
      cases hk
    · rw [hlone _ (by decide)] at hk
      cases hk

/-- A path of a simple schema leads to one node. -/
theorem SimpleSchema.settledAt_unique (h : SimpleSchema root) (hs : SettledAt root path settled)
    (hs' : SettledAt root path settled') : settled = settled' := by
  generalize hn : path.length = n
  induction n using Nat.strong_induction_on generalizing path settled settled' with
  | _ n ih =>
    obtain ⟨depth, job, hocc, rfl, hset⟩ := hs
    obtain ⟨depth', job', hocc', hpath, hset'⟩ := hs'
    obtain ⟨first, hfresh, hp, hfirst⟩ := h.exists_fresh hocc
    obtain ⟨first', hfresh', hp', hfirst'⟩ := h.exists_fresh hocc'
    have hset := hfirst _ hset
    have hset' := hfirst' _ hset'
    have hsame : first.path = first'.path := hp.trans (hpath.symm.trans hp'.symm)
    have hne : ∀ q segment : JsString, q ++ js "/" ++ segment ≠ [] := by
      intro q segment hnil
      have hnil := (List.append_eq_nil_iff.mp (List.append_eq_nil_iff.mp hnil).1).2
      exact absurd hnil (by decide)
    obtain ⟨hroot, hnil⟩ | ⟨d, parent, members, segment, hparent, hnode, hc, hfp⟩ := hfresh <;>
      obtain ⟨hroot', hnil'⟩ | ⟨d', parent', members', segment', hparent', hnode', hc', hfp'⟩ :=
        hfresh'
    · rw [hroot] at hset
      rw [hroot'] at hset'
      exact hset.unique hset'
    · exact absurd (hfp'.symm.trans (hsame.symm.trans hnil)) (hne _ _)
    · exact absurd (hfp.symm.trans (hsame.trans hnil')) (hne _ _)
    · -- both come from the node at the path above, which is one by the induction hypothesis
      obtain ⟨ms, hms, hsimple⟩ := h _ _ hparent
      obtain rfl := Json.obj.inj (hms.symm.trans hnode)
      obtain ⟨ms', hms', hsimple'⟩ := h _ _ hparent'
      obtain rfl := Json.obj.inj (hms'.symm.trans hnode')
      obtain ⟨hq, rfl⟩ := append_segment_inj (hsimple.segment_clean hc).1
        (hsimple'.segment_clean hc').1 (hfp.symm.trans (hsame.trans hfp'))
      have hlen : parent.path.length < n := by
        rw [← hn, ← hp, hfp, List.length_append, List.length_append]
        have hpos : 0 < (js "/").length := by decide
        omega
      have hms_eq : ms = ms' := by
        apply ih _ hlen
          ⟨d, parent, hparent, rfl, hnode ▸ hsimple.settles_of_child hc⟩
          ⟨d', parent', hparent', hq.symm, hnode' ▸ hsimple'.settles_of_child hc'⟩ rfl
      subst hms_eq
      rw [hsimple.child_unique hc hc'] at hset
      exact hset.unique hset'

end Sites

section Census

variable {root : Json} {members settled : List (JsString × Json)} {job : Job} {depth : Nat}
  {path b : JsString} {s : Surface}

/-- No way to the path or above it is longer than the walk. -/
def Shallow (root : Json) (path : JsString) : Prop :=
  ∀ depth job, Occurs root depth job → job.path <+: path → depth ≤ maxWalkDepth

/-- The node a path settles on occurs there. -/
theorem SimpleSchema.exists_occurs (h : SimpleSchema root) {node : Json}
    (hset : Settles root node settled) {conditional : Bool}
    (hocc : Occurs root depth ⟨node, path, b, conditional⟩) :
    refOf settled = none ∧ ∃ depth' conditional',
      Occurs root depth' ⟨.obj settled, path, b, conditional'⟩ := by
  induction hset generalizing depth conditional with
  | here hnone => exact ⟨hnone, depth, conditional, hocc⟩
  | @ref members settled ref target href _ htarget _ ih =>
    obtain ⟨ms, hms, hsimple⟩ := h _ _ hocc
    obtain rfl := Json.obj.inj hms
    obtain ⟨-, -, target', hres⟩ := hsimple.reference ref href
    obtain rfl := Option.some.inj (htarget.symm.trans (targetOf_of_resolvePointer hres))
    exact ih (.ref hocc rfl href hres)

theorem SimpleSchema.covered (h : SimpleSchema root) (hshallow : Shallow root path) :
    Covered root path where
  shallow := hshallow
  plain depth job members ref hocc hnode href := by
    obtain ⟨ms, hms, hsimple⟩ := h _ _ hocc
    obtain rfl := Json.obj.inj (hms.symm.trans hnode)
    exact (hsimple.reference ref href).2.1
  once depth depth' job job' members members' ref hocc hocc' _ _ _ _ _ _ := by
    rw [(h.one_branch hocc).1, (h.one_branch hocc').1]

/-- A lone reference says nothing by itself. -/
theorem Lone.valuesOf_eq_nil (h : Lone members) (kind : SurfaceKind) :
    valuesOf members kind = [] := by
  cases kind with
  | property => simp [valuesOf, entriesOf, h (js "properties") (by decide)]
  | enumMember =>
    simp [valuesOf, enumValues, h (js "enum") (by decide), h (js "const") (by decide), Json.items?]
  | required => simp [valuesOf, requiredNames, h (js "required") (by decide), Json.items?]
  | closed => simp [valuesOf, closedValues, h (js "additionalProperties") (by decide)]
  | type => simp [valuesOf, typeNames, h (js "type") (by decide)]

theorem SimpleSchema.imposing_iff (h : SimpleSchema root) (hset : SettledAt root s.path settled) :
    Imposing root s b ↔ b = js "root" ∧ s.value ∈ valuesOf settled s.kind := by
  constructor
  · rintro ⟨depth, job, hocc, members, hnode, hmem⟩
    obtain ⟨hpath, hb, hvalue⟩ := add_mem_steps.mp hmem
    refine ⟨hb.trans (h.one_branch hocc).1, ?_⟩
    obtain ⟨ms, hms, hsimple⟩ := h _ _ hocc
    obtain rfl := Json.obj.inj (hms.symm.trans hnode)
    cases href : refOf ms with
    | none =>
      have hat : SettledAt root s.path ms := ⟨depth, job, hocc, hpath.symm, hnode ▸ .here href⟩
      rwa [h.settledAt_unique hset hat]
    | some ref =>
      rw [(hsimple.reference ref href).1.valuesOf_eq_nil] at hvalue
      cases hvalue
  · rintro ⟨rfl, hvalue⟩
    obtain ⟨depth, ⟨node, path, key, conditional⟩, hocc, hpath, hset⟩ := hset
    obtain ⟨-, depth', conditional', hocc'⟩ := h.exists_occurs hset hocc
    exact ⟨depth', _, hocc', settled, rfl,
      add_mem_steps.mpr ⟨hpath.symm, ((h.one_branch hocc).1).symm, hvalue⟩⟩

/-- At a covered path the census lists what the node says. -/
theorem SimpleSchema.mem_enumerateSchema (h : SimpleSchema root)
    (hshallow : Shallow root s.path) (hset : SettledAt root s.path settled) :
    s ∈ enumerateSchema root ↔ s.value ∈ valuesOf settled s.kind := by
  have hcov := h.covered hshallow
  have hex : (∃ b, Imposing root s b) ↔ s.value ∈ valuesOf settled s.kind := by
    simp only [h.imposing_iff hset, exists_and_right, exists_eq, true_and]
  rw [← hex]
  by_cases hkind : s.kind.isIntersected = true
  · apply hcov.mem_enumerateSchema_of_one hkind (b := js "root")
    rintro b ⟨depth, job, hocc, -, -, he⟩
    exact (congrArg Prod.snd he).trans (h.one_branch hocc).1
  · simp only [enumerateSchema, List.mem_filter, CensusState.counts, hkind, mem_collected,
      hcov.mem_acc, Bool.not_false, Bool.true_or, and_true]

/-- What the census collects was imposed somewhere. -/
theorem imposing_of_mem_acc (h : (s, b) ∈ (censusOf root).acc) : Imposing root s b := by
  obtain ⟨visited, -, hvisits⟩ := walk_visits (Nat.le_refl (maxWalkDepth + 1)) {}
    ⟨root, [], js "root", false⟩ (by simpa using Occurs.root)
  obtain he | he | ⟨levels, job, hv, ha⟩ := (hvisits.acc (s, b)).mp h
  · cases he
  · exact he.elim
  · exact ⟨_, job, (hvisits.occurs _ hv).2, ha⟩

theorem SimpleSchema.bar_not_mem (h : SimpleSchema root) (hs : s ∈ enumerateSchema root) :
    unit '|' ∉ s.path := by
  obtain ⟨b, hb⟩ := mem_collected.mp (List.mem_filter.mp hs).1
  obtain ⟨depth, job, hocc, ha⟩ := imposing_of_mem_acc hb
  rw [ha.path_eq.1]
  exact (h.one_branch hocc).2.2

end Census

end OpenWop.Schema
