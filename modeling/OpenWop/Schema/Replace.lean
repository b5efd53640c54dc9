import Mathlib.Data.List.Forall2
import OpenWop.Schema.Census

/-!
# Replacing a node of a schema

The node at a location of a schema is replaced by another. Where the location leads
through subschemas only, the walk does the same at a node and at the node with the
replacement below it, up to the nodes it visits next.
-/

namespace OpenWop.Schema

open OpenWop.Js

section Locations

/-- The node at a location. -/
def nodeAt : List JsString → Json → Option Json
  | [], node => some node
  | k :: loc, node => (child? node k).bind (nodeAt loc)

/-- The segments of a local pointer. -/
def segments (ptr : JsString) : List JsString :=
  (splitOn (ptr.drop 2) (unit '/')).map unescape

/-- The members with the value of the first one of that name rewritten. -/
def updateMember (f : Json → Json) (k : JsString) :
    List (JsString × Json) → List (JsString × Json)
  | [] => []
  | m :: members => if m.1 = k then (k, f m.2) :: members else m :: updateMember f k members

/-- The node with a child rewritten. -/
def updateChild (f : Json → Json) (k : JsString) : Json → Json
  | .obj members => .obj (updateMember f k members)
  | .arr items => .arr (items.mapIdx fun i v => if decimal i = k then f v else v)
  | node => node

/-- The node with the one at a location replaced. -/
def replaceAt (new : Json) : List JsString → Json → Json
  | [], _ => new
  | k :: loc, node => updateChild (replaceAt new loc) k node

variable {f : Json → Json} {k l : JsString} {members : List (JsString × Json)} {node new : Json}
  {loc more : List JsString}

theorem foldl_child? (segs : List JsString) (o : Option Json) :
    segs.foldl (fun node k => node.bind fun node => child? node k) o = o.bind (nodeAt segs) := by
  induction segs generalizing o with
  | nil => cases o <;> rfl
  | cons k segs ih =>
    rw [List.foldl_cons, ih]
    cases o <;> rfl

/-- A pointer leads to the node at its segments. -/
theorem resolvePointer_eq (schema : Json) (ptr : JsString) :
    resolvePointer schema ptr =
      if startsWith ptr (js "#/") then nodeAt (segments ptr) schema else none := by
  unfold resolvePointer segments
  split
  · rw [← List.foldl_map (f := unescape)
      (g := fun node k => Option.bind node fun node => child? node k), foldl_child?]
    rfl
  · rfl

theorem nodeAt_append (loc more : List JsString) (node : Json) :
    nodeAt (loc ++ more) node = (nodeAt loc node).bind (nodeAt more) := by
  induction loc generalizing node with
  | nil => rfl
  | cons k loc ih =>
    rw [List.cons_append, nodeAt, nodeAt]
    cases child? node k with
    | none => rfl
    | some child => exact ih child

theorem get?_updateMember (f : Json → Json) (k l : JsString) (members : List (JsString × Json)) :
    Record.get? (updateMember f k members) l =
      if l = k then (Record.get? members k).map f else Record.get? members l := by
  induction members with
  | nil => simp [updateMember]
  | cons m members ih =>
    rw [updateMember]
    by_cases hm : m.1 = k
    · rw [if_pos hm, Record.get?_cons, Record.get?_cons, Record.get?_cons, if_pos hm]
      by_cases hl : l = k
      · rw [if_pos hl, if_pos hl.symm]
        rfl
      · rw [if_neg hl, if_neg (Ne.symm hl), if_neg fun h => hl (h.symm.trans hm)]
    · rw [if_neg hm, Record.get?_cons, Record.get?_cons, Record.get?_cons, ih, if_neg hm]
      by_cases hl : l = k
      · rw [if_pos hl, if_pos hl, if_neg fun h => hm (h.trans hl)]
      · rw [if_neg hl, if_neg hl]

/-- The child of that name is rewritten, and no other. -/
theorem child?_updateChild (f : Json → Json) (k l : JsString) (node : Json) :
    child? (updateChild f k node) l = if l = k then (child? node k).map f else child? node l := by
  cases node with
  | obj members => exact get?_updateMember f k l members
  | arr items =>
    have hzip : (items.mapIdx fun i v => if decimal i = k then f v else v).zipIdx =
        items.zipIdx.map fun p => (if decimal p.2 = k then f p.1 else p.1, p.2) := by
      apply List.ext_getElem?
      simp [List.getElem?_zipIdx, List.getElem?_map, List.getElem?_mapIdx, Function.comp_def]
    have hfind : (items.mapIdx fun i v => if decimal i = k then f v else v).zipIdx.find?
        (fun p => decide (decimal p.2 = l)) = (items.zipIdx.find? fun p => decimal p.2 = l).map
          fun p => (if decimal p.2 = k then f p.1 else p.1, p.2) := by
      rw [hzip, List.find?_map]
      rfl
    simp only [updateChild, child?, hfind, Option.map_map]
    split
    · next hl =>
      subst hl
      cases hp : items.zipIdx.find? (fun p => decide (decimal p.2 = l)) with
      | none => rfl
      | some p =>
        have hd : decimal p.2 = l := by simpa using List.find?_some hp
        simp [hd]
    · next hl =>
      cases hp : items.zipIdx.find? (fun p => decide (decimal p.2 = l)) with
      | none => rfl
      | some p =>
        have hd : decimal p.2 = l := by simpa using List.find?_some hp
        simp [hd, hl]
  | null | bool _ | num _ | str _ => simp [updateChild, child?]

/-- A location above the replaced node. -/
theorem nodeAt_replaceAt_append (new : Json) (loc more : List JsString) (node : Json) :
    nodeAt loc (replaceAt new (loc ++ more) node) = (nodeAt loc node).map (replaceAt new more) := by
  induction loc generalizing node with
  | nil => rfl
  | cons k loc ih =>
    rw [List.cons_append, replaceAt, nodeAt, nodeAt, child?_updateChild, if_pos rfl]
    cases child? node k with
    | none => rfl
    | some child => exact ih child

/-- A location beside the replaced node. -/
theorem nodeAt_replaceAt_beside (new : Json) {loc loc' : List JsString} (node : Json)
    (h : ¬ loc <+: loc') (h' : ¬ loc' <+: loc) :
    nodeAt loc (replaceAt new loc' node) = nodeAt loc node := by
  induction loc generalizing loc' node with
  | nil => exact absurd List.nil_prefix h
  | cons k loc ih =>
    cases loc' with
    | nil => exact absurd List.nil_prefix h'
    | cons k' loc' =>
      rw [replaceAt, nodeAt, nodeAt, child?_updateChild]
      by_cases hk : k = k'
      · subst hk
        rw [if_pos rfl]
        cases child? node k with
        | none => rfl
        | some child =>
          exact ih child (fun hp => h (List.cons_prefix_cons.mpr ⟨rfl, hp⟩))
            fun hp => h' (List.cons_prefix_cons.mpr ⟨rfl, hp⟩)
      · rw [if_neg hk]

/-- A location below the replaced node. -/
theorem nodeAt_append_replaceAt {old : Json} (new : Json) (h : nodeAt loc node = some old) :
    nodeAt (loc ++ more) (replaceAt new loc node) = nodeAt more new := by
  have hat := nodeAt_replaceAt_append new loc [] node
  rw [List.append_nil, h] at hat
  rw [nodeAt_append, hat]
  rfl

end Locations

section Subschemas

/-- How the walk reads the value of a keyword. -/
inductive Role where
  | data
  | group
  | arm
  | schema
  | unread
  deriving DecidableEq

/-- The role of a keyword. -/
def roleOf (k : JsString) : Role :=
  if k ∈ [js "$ref", js "type", js "enum", js "const", js "required"] then .data
  else if k ∈ [js "anyOf", js "oneOf", js "allOf", js "properties", js "patternProperties",
    js "prefixItems"] then .group
  else if k ∈ [js "then", js "else"] then .arm
  else if k ∈ [js "additionalProperties", js "items"] then .schema
  else .unread

/-- A location leads to a subschema, or to where the walk does not look. `arms` admits the arms
of a conditional. -/
def isPlace (arms : Bool) : List JsString → Bool
  | [] => true
  | k :: loc =>
    match roleOf k, loc with
    | .data, _ => false
    | .group, [] => false
    | .group, _ :: loc => isPlace arms loc
    | .arm, [] => arms
    | .arm, loc => isPlace arms loc
    | .schema, loc => isPlace arms loc
    | .unread, _ => true

/-- The second node is the first one, or the first one with the old node replaced at a place. -/
inductive Similar (arms : Bool) (old new : Json) (conditional : Bool) : Json → Json → Prop
  | refl (node : Json) : Similar arms old new conditional node node
  | place {loc : List JsString} {node : Json} (hat : nodeAt loc node = some old)
      (hplace : isPlace arms loc = true) (harm : loc = [] → conditional = true → arms = true) :
      Similar arms old new conditional node (replaceAt new loc node)

/-- The walk tells two values apart by these properties. -/
structure SameKind (v v' : Json) : Prop where
  object : Json.isObject (some v') = Json.isObject (some v)
  array : (Json.items? (some v')).isNone = (Json.items? (some v)).isNone
  members : (∃ members, v' = .obj members) ↔ ∃ members, v = .obj members
  closed : v' = .bool false ↔ v = .bool false

variable {arms conditional : Bool} {old new node v v' : Json} {k : JsString} {loc : List JsString}
  {R : Json → Json → Prop} {f : Json → Json}

theorem SameKind.refl (v : Json) : SameKind v v := ⟨rfl, rfl, Iff.rfl, Iff.rfl⟩

theorem SameKind.of_obj (h : ∃ members, v = .obj members) (h' : ∃ members, v' = .obj members) :
    SameKind v v' := by
  obtain ⟨members, rfl⟩ := h
  obtain ⟨members', rfl⟩ := h'
  exact ⟨rfl, rfl, by simp, by simp⟩

theorem SameKind.updateChild (f : Json → Json) (k : JsString) (v : Json) :
    SameKind v (updateChild f k v) := by
  cases v with
  | obj members => exact .of_obj ⟨_, rfl⟩ ⟨_, rfl⟩
  | arr items => exact ⟨rfl, rfl, by simp [Schema.updateChild], by simp [Schema.updateChild]⟩
  | null | bool _ | num _ | str _ => exact SameKind.refl _

theorem SameKind.replaceAt (hold : ∃ members, old = .obj members)
    (hnew : ∃ members, new = .obj members) (hat : nodeAt loc v = some old) :
    SameKind v (replaceAt new loc v) := by
  cases loc with
  | nil =>
    obtain rfl := Option.some.inj hat
    exact .of_obj hold hnew
  | cons k loc => exact SameKind.updateChild _ k v

theorem Similar.sameKind (hold : ∃ members, old = .obj members)
    (hnew : ∃ members, new = .obj members) (h : Similar arms old new conditional v v') :
    SameKind v v' := by
  cases h with
  | refl => exact SameKind.refl v
  | place hat => exact SameKind.replaceAt hold hnew hat

theorem forall₂_updateMember (hrefl : ∀ v, R v v) {members : List (JsString × Json)}
    (hf : ∀ v, Record.get? members k = some v → R v (f v)) :
    List.Forall₂ (fun p q => p.1 = q.1 ∧ R p.2 q.2) members (updateMember f k members) := by
  induction members with
  | nil => exact .nil
  | cons m members ih =>
    rw [updateMember]
    split
    · next hm =>
      refine .cons ⟨hm, hf m.2 ?_⟩ (List.forall₂_same.mpr fun p _ => ⟨rfl, hrefl p.2⟩)
      rw [Record.get?_cons, if_pos hm]
    · next hm =>
      refine .cons ⟨rfl, hrefl m.2⟩ (ih fun v hv => hf v ?_)
      rwa [Record.get?_cons, if_neg hm]

theorem forall₂_mapIdx (hrefl : ∀ v, R v v) {items : List Json}
    (hf : ∀ i v, items[i]? = some v → decimal i = k → R v (f v)) :
    List.Forall₂ R items (items.mapIdx fun i v => if decimal i = k then f v else v) := by
  rw [List.forall₂_iff_get]
  refine ⟨by simp, fun i hi hi' => ?_⟩
  simp only [List.get_eq_getElem, List.getElem_mapIdx]
  split
  · next hk => exact hf i _ (List.getElem?_eq_getElem hi) hk
  · exact hrefl _

theorem forall₂_zipIdx {l l' : List Json} (h : List.Forall₂ R l l') (n : Nat) :
    List.Forall₂ (fun p q => R p.1 q.1 ∧ p.2 = q.2) (l.zipIdx n) (l'.zipIdx n) := by
  induction h generalizing n with
  | nil => exact .nil
  | cons hv _ ih => exact .cons ⟨hv, rfl⟩ (ih (n + 1))

/-- The item at an index is the child of that name. -/
theorem child?_decimal (items : List Json) (i : Nat) :
    child? (.arr items) (decimal i) = items[i]? := by
  rw [child?]
  cases hfind : items.zipIdx.find? (fun p => decide (decimal p.2 = decimal i)) with
  | none =>
    cases hi : items[i]? with
    | none => rfl
    | some v =>
      have hmem : (v, i) ∈ items.zipIdx := List.mk_mem_zipIdx_iff_getElem?.mpr hi
      have hne := List.find?_eq_none.mp hfind _ hmem
      simp at hne
  | some p =>
    have hd : p.2 = i := decimal_inj (by simpa using List.find?_some hfind)
    have hmem := List.mem_zipIdx_iff_getElem?.mp (List.mem_of_find?_eq_some hfind)
    rw [← hd, hmem]
    rfl

/-- A further item leaves the children as they are. -/
theorem child?_append {items : List Json} (more : List Json) (h : child? (.arr items) k = some v) :
    child? (.arr (items ++ more)) k = some v := by
  obtain ⟨p, hp, rfl⟩ := Option.map_eq_some_iff.mp h
  rw [child?, List.zipIdx_append, List.find?_append, hp]
  rfl

theorem updateMember_updateMember (f g : Json → Json) (members : List (JsString × Json)) :
    updateMember f k (updateMember g k members) = updateMember (f ∘ g) k members := by
  induction members with
  | nil => rfl
  | cons m members ih =>
    rw [updateMember, updateMember]
    by_cases hm : m.1 = k
    · rw [if_pos hm, if_pos hm, updateMember, if_pos rfl]
      rfl
    · rw [if_neg hm, if_neg hm, updateMember, if_neg hm, ih]

theorem updateChild_updateChild (f g : Json → Json) (node : Json) :
    updateChild f k (updateChild g k node) = updateChild (f ∘ g) k node := by
  cases node with
  | obj members => exact congrArg Json.obj (updateMember_updateMember f g members)
  | arr items =>
    simp only [updateChild, List.mapIdx_mapIdx, Json.arr.injEq]
    congr 1
    funext i v
    by_cases hk : decimal i = k
    · simp [hk]
    · simp [hk]
  | null | bool _ | num _ | str _ => rfl

/-- The second replacement is the one that stays. -/
theorem replaceAt_replaceAt (new new' : Json) (loc : List JsString) (node : Json) :
    replaceAt new loc (replaceAt new' loc node) = replaceAt new loc node := by
  induction loc generalizing node with
  | nil => rfl
  | cons k loc ih =>
    rw [replaceAt, replaceAt, updateChild_updateChild, replaceAt]
    exact congrArg (updateChild · k node) (funext ih)

theorem updateMember_of_get? {members : List (JsString × Json)}
    (h : Record.get? members k = some v) (hf : f v = v) : updateMember f k members = members := by
  induction members with
  | nil => rfl
  | cons m members ih =>
    rw [Record.get?_cons] at h
    rw [updateMember]
    split
    · next hm =>
      rw [if_pos hm, Option.some.injEq] at h
      rw [h, hf, ← hm, ← h]
    · next hm =>
      rw [if_neg hm] at h
      rw [ih h]

theorem updateChild_of_child? (h : child? node k = some v) (hf : f v = v) :
    updateChild f k node = node := by
  cases node with
  | obj members => exact congrArg Json.obj (updateMember_of_get? h hf)
  | arr items =>
    refine congrArg Json.arr (List.ext_getElem? fun i => ?_)
    rw [List.getElem?_mapIdx]
    cases hi : items[i]? with
    | none => rfl
    | some w =>
      rw [Option.map_some]
      split
      · next hk =>
        rw [← hk, child?_decimal, hi, Option.some.injEq] at h
        rw [h, hf]
      · rfl
  | null | bool _ | num _ | str _ => rfl

/-- A node stands for itself. -/
theorem replaceAt_self (h : nodeAt loc node = some v) : replaceAt v loc node = node := by
  induction loc generalizing node with
  | nil => exact (Option.some.inj h).symm
  | cons k loc ih =>
    obtain ⟨child, hchild, hat⟩ := Option.bind_eq_some_iff.mp h
    exact updateChild_of_child? hchild (ih hat)

end Subschemas

section Steps

/-- Two steps do the same, up to the nodes they visit. -/
inductive Step.Matches (R : Bool → Json → Json → Prop) : Step → Step → Prop
  | add (surface : Surface) (branchKey : JsString) :
      Matches R (.add surface branchKey) (.add surface branchKey)
  | select (branchKey : JsString) (selector selector' : Json) :
      Matches R (.select branchKey selector) (.select branchKey selector')
  | visit {node node' : Json} (path branchKey : JsString) {conditional : Bool}
      (h : R conditional node node') :
      Matches R (.visit ⟨node, path, branchKey, conditional⟩)
        (.visit ⟨node', path, branchKey, conditional⟩)

/-- Two nodes read alike, up to the subschemas in their keywords. -/
structure MembersMatch (R : Bool → Json → Json → Prop)
    (members members' : List (JsString × Json)) : Prop where
  data : ∀ k, roleOf k = .data → keyword members' k = keyword members k
  items : ∀ k, roleOf k = .group → List.Forall₂ (R false)
    ((Json.items? (keyword members k)).getD []) ((Json.items? (keyword members' k)).getD [])
  entries : ∀ k, roleOf k = .group → List.Forall₂ (fun p q => p.1 = q.1 ∧ R false p.2 q.2)
    (entriesOf members k) (entriesOf members' k)
  arm : ∀ k, roleOf k = .arm → Option.Rel (R true) (keyword members k) (keyword members' k)
  schema : ∀ k, roleOf k = .schema → Option.Rel (R false) (keyword members k) (keyword members' k)
  selector : Option.Rel SameKind (keyword members (js "if")) (keyword members' (js "if"))

variable {R : Bool → Json → Json → Prop} {members members' : List (JsString × Json)}
  {path branchKey : JsString}

theorem rel_self {Q : Json → Json → Prop} (hrefl : ∀ v, Q v v) (o : Option Json) :
    Option.Rel Q o o := by
  cases o with
  | none => exact .none
  | some v => exact .some (hrefl v)

theorem Step.Matches.refl (hrefl : ∀ c v, R c v v) (step : Step) : step.Matches R step := by
  cases step with
  | add surface branchKey => exact .add surface branchKey
  | select branchKey selector => exact .select branchKey selector selector
  | visit job => exact .visit job.path job.branchKey (hrefl _ _)

theorem MembersMatch.refl (hrefl : ∀ c v, R c v v) (members : List (JsString × Json)) :
    MembersMatch R members members where
  data _ _ := rfl
  items _ _ := List.forall₂_same.mpr fun v _ => hrefl false v
  entries _ _ := List.forall₂_same.mpr fun p _ => ⟨rfl, hrefl false p.2⟩
  arm _ _ := rel_self (hrefl true) _
  schema _ _ := rel_self (hrefl false) _
  selector := rel_self SameKind.refl _

theorem MembersMatch.combinatorSteps (h : MembersMatch R members members') {comb : JsString}
    (hrole : roleOf comb = .group) :
    List.Forall₂ (Step.Matches R) (combinatorSteps members path branchKey comb)
      (combinatorSteps members' path branchKey comb) := by
  apply List.forall₂_map_left_iff.mpr
  apply List.forall₂_map_right_iff.mpr
  refine (forall₂_zipIdx (h.items comb hrole) 0).imp ?_
  rintro ⟨v, i⟩ ⟨v', _⟩ ⟨hv, rfl⟩
  exact .visit _ _ hv

theorem MembersMatch.conditionalSteps (hkind : ∀ c v v', R c v v' → SameKind v v')
    (h : MembersMatch R members members') {cond : JsString} (hrole : roleOf cond = .arm) :
    List.Forall₂ (Step.Matches R) (conditionalSteps members path branchKey cond)
      (conditionalSteps members' path branchKey cond) := by
  unfold Schema.conditionalSteps
  have harm := h.arm cond hrole
  have hsel := h.selector
  generalize keyword members cond = arm, keyword members' cond = arm' at harm
  generalize keyword members (js "if") = sel, keyword members' (js "if") = sel' at hsel
  cases harm with
  | none => exact .nil
  | @some v v' hv =>
    simp only [(hkind _ _ _ hv).object]
    split
    · refine List.rel_append ?_ (.cons (.visit _ _ hv) .nil)
      cases hsel with
      | none => exact .nil
      | @some s s' hs =>
        simp only [hs.object]
        split
        · exact .cons (.select _ _ _) .nil
        · exact .nil
    · exact .nil

theorem forall₂_filter {P : Step → Step → Prop} {Q : Json → Json → Prop} {p : Json → Bool}
    {f : Json → Step} (hp : ∀ v v', Q v v' → p v' = p v) (hf : ∀ v v', Q v v' → P (f v) (f v'))
    {o o' : Option Json} (h : Option.Rel Q o o') :
    List.Forall₂ P ((o.filter p).toList.map f) ((o'.filter p).toList.map f) := by
  cases h with
  | none => exact .nil
  | @some v v' hv =>
    rw [Option.filter_some, Option.filter_some, hp v v' hv]
    split
    · exact .cons (hf v v' hv) .nil
    · exact .nil

/-- The walk does the same at both nodes, up to the nodes it visits next. -/
theorem MembersMatch.steps (hrefl : ∀ c v, R c v v) (hkind : ∀ c v v', R c v v' → SameKind v v')
    (h : MembersMatch R members members') :
    List.Forall₂ (Step.Matches R) (steps members path branchKey)
      (steps members' path branchKey) := by
  have hsame : ∀ ss : List Step, List.Forall₂ (Step.Matches R) ss ss :=
    fun ss => List.forall₂_same.mpr fun s _ => Step.Matches.refl hrefl s
  have hbelow : ∀ (segment : JsString) (v v' : Json), R false v v' →
      (below path branchKey segment v).Matches R (below path branchKey segment v') :=
    fun _ _ _ hv => .visit _ _ hv
  have htypes : typeNames members' = typeNames members := by
    rw [typeNames, typeNames, h.data (js "type") (by decide)]
  have henum : enumValues members' = enumValues members := by
    rw [enumValues, enumValues, h.data (js "enum") (by decide), h.data (js "const") (by decide)]
  have hrequired : requiredNames members' = requiredNames members := by
    rw [requiredNames, requiredNames, h.data (js "required") (by decide)]
  have hadditional := h.schema (js "additionalProperties") (by decide)
  have hclosed : closedValues members' = closedValues members := by
    unfold closedValues
    generalize keyword members (js "additionalProperties") = v,
      keyword members' (js "additionalProperties") = v' at hadditional
    cases hadditional with
    | none => rfl
    | some hv => simp only [Option.some.injEq, (hkind _ _ _ hv).closed]
  unfold Schema.steps
  rw [htypes, henum, hclosed, hrequired]
  simp only [List.flatMap_cons, List.flatMap_nil, List.append_nil]
  refine List.rel_append (List.rel_append (List.rel_append (List.rel_append (List.rel_append
    (List.rel_append (List.rel_append (List.rel_append (List.rel_append (List.rel_append
      ?_ ?_) (hsame _)) (hsame _)) (hsame _)) (hsame _)) ?_) ?_) ?_) ?_) ?_
  · exact List.rel_append (h.combinatorSteps (by decide))
      (List.rel_append (h.combinatorSteps (by decide)) (h.combinatorSteps (by decide)))
  · exact List.rel_append (h.conditionalSteps hkind (by decide))
      (h.conditionalSteps hkind (by decide))
  · refine List.rel_flatMap (h.entries (js "properties") (by decide)) ?_
    rintro ⟨k, v⟩ ⟨_, v'⟩ ⟨rfl, hv⟩
    exact .cons (.add _ _) (.cons (hbelow _ _ _ hv) .nil)
  · refine List.rel_map ?_ (h.entries (js "patternProperties") (by decide))
    rintro ⟨k, v⟩ ⟨_, v'⟩ ⟨rfl, hv⟩
    exact hbelow _ _ _ hv
  · exact forall₂_filter (fun v v' hv => (hkind _ v v' hv).object) (hbelow _) hadditional
  · refine forall₂_filter (fun v v' hv => ?_) (hbelow _) (h.schema (js "items") (by decide))
    rw [(hkind _ _ _ hv).object, (hkind _ _ _ hv).array]
  · refine List.rel_map ?_ (forall₂_zipIdx (h.items (js "prefixItems") (by decide)) 0)
    rintro ⟨v, i⟩ ⟨v', _⟩ ⟨hv, rfl⟩
    exact hbelow _ _ _ hv

section Places

variable {arms : Bool} {old new v : Json} {k name : JsString} {loc : List JsString}

theorem keyword_updateMember (f : Json → Json) (k l : JsString) :
    keyword (updateMember f k members) l =
      if l = k then (keyword members k).map f else keyword members l :=
  get?_updateMember f k l members

theorem isPlace_cons (h : isPlace arms (k :: loc) = true) :
    roleOf k ≠ .data ∧
    (roleOf k = .group → ∃ name rest, loc = name :: rest ∧ isPlace arms rest = true) ∧
    (roleOf k = .arm → isPlace arms loc = true ∧ (loc = [] → arms = true)) ∧
    (roleOf k = .schema → isPlace arms loc = true) := by
  unfold isPlace at h
  cases hrole : roleOf k with
  | data => simp [hrole] at h
  | group =>
    cases loc with
    | nil => simp [hrole] at h
    | cons name rest => simpa [hrole] using h
  | arm =>
    cases loc with
    | nil => simpa [hrole, isPlace] using h
    | cons name rest => simpa [hrole] using h
  | schema => simpa [hrole] using h
  | unread => simp

/-- The items of a group with a node replaced in one of them. -/
theorem forall₂_items (hat : (child? v name).bind (nodeAt loc) = some old)
    (hplace : isPlace arms loc = true) : List.Forall₂ (Similar arms old new false)
      ((Json.items? (some v)).getD [])
      ((Json.items? (some (updateChild (replaceAt new loc) name v))).getD []) := by
  cases v with
  | arr items =>
    refine forall₂_mapIdx (fun v => .refl v) fun i v hi hk => ?_
    have hi : items[i]? = some v := hi
    rw [← hk, child?_decimal, hi] at hat
    exact .place hat hplace (by simp)
  | obj _ | null | bool _ | num _ | str _ => exact .nil

/-- The members of a group with a node replaced in one of them. -/
theorem forall₂_entries (hat : (child? v name).bind (nodeAt loc) = some old)
    (hplace : isPlace arms loc = true) :
    List.Forall₂ (fun p q => p.1 = q.1 ∧ Similar arms old new false p.2 q.2)
      (entries v) (entries (updateChild (replaceAt new loc) name v)) := by
  cases v with
  | obj members =>
    refine forall₂_updateMember (fun v => .refl v) fun v hv => .place ?_ hplace (by simp)
    have hv : Record.get? members name = some v := hv
    rw [child?, hv] at hat
    exact hat
  | arr items =>
    refine List.rel_map ?_ (forall₂_zipIdx (forall₂_items hat hplace) 0)
    rintro ⟨v, i⟩ ⟨v', _⟩ ⟨hv, rfl⟩
    exact ⟨rfl, hv⟩
  | null | bool _ | num _ | str _ => exact .nil

/-- A node with a node replaced below it reads alike, up to the subschemas. -/
theorem MembersMatch.of_replace (hold : ∃ ms, old = .obj ms) (hnew : ∃ ms, new = .obj ms)
    (hat : nodeAt (k :: loc) (.obj members) = some old) (hplace : isPlace arms (k :: loc) = true) :
    MembersMatch (Similar arms old new) members (updateMember (replaceAt new loc) k members) := by
  obtain ⟨hdata, hgroup, harm, hschema⟩ := isPlace_cons hplace
  obtain ⟨v, hv, hbelow⟩ := Option.bind_eq_some_iff.mp hat
  have hv : keyword members k = some v := hv
  constructor
  · intro l hl
    rw [keyword_updateMember, if_neg]
    rintro rfl
    exact hdata hl
  · intro l hl
    rw [keyword_updateMember]
    split
    · next he =>
      subst he
      obtain ⟨name, rest, rfl, hrest⟩ := hgroup hl
      rw [hv]
      exact forall₂_items hbelow hrest
    · exact List.forall₂_same.mpr fun v _ => .refl v
  · intro l hl
    rw [entriesOf, entriesOf, keyword_updateMember]
    split
    · next he =>
      subst he
      obtain ⟨name, rest, rfl, hrest⟩ := hgroup hl
      rw [hv, Option.map_some, Option.filter_some, Option.filter_some,
        replaceAt, (SameKind.updateChild _ name v).object]
      split
      · exact forall₂_entries hbelow hrest
      · exact .nil
    · exact List.forall₂_same.mpr fun p _ => ⟨rfl, .refl p.2⟩
  · intro l hl
    rw [keyword_updateMember]
    split
    · next he =>
      subst he
      obtain ⟨hrest, hnil⟩ := harm hl
      rw [hv]
      exact .some (.place hbelow hrest fun he _ => hnil he)
    · exact rel_self (fun v => .refl v) _
  · intro l hl
    rw [keyword_updateMember]
    split
    · next he =>
      subst he
      rw [hv]
      exact .some (.place hbelow (hschema hl) (by simp))
    · exact rel_self (fun v => .refl v) _
  · rw [keyword_updateMember]
    split
    · next he =>
      rw [he, hv]
      exact .some (SameKind.replaceAt hold hnew hbelow)
    · exact rel_self SameKind.refl _

end Places

end Steps

end OpenWop.Schema
