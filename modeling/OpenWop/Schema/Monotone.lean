import Mathlib.Order.Filter.AtTopBot.Basic
import Mathlib.Order.Filter.Finite
import OpenWop.Js.JsonEqual
import OpenWop.Schema.Gate
import OpenWop.Schema.Sites

/-!
# What a passing gate promises

The gate compares what two schemas say, site by site, and lets additions pass. Between
simple schemas, where the new one adds no keyword at a site of the old that narrows by
being there, a passing gate leaves every document valid.
-/

namespace OpenWop.Schema

open OpenWop.Js

section Tuples

variable {rel a r : JsString} {s t : Surface}

theorem beforeBar_append (h : unit '|' ∉ a) : beforeBar (a ++ js "|" ++ r) = a := by
  have ha : ∀ u ∈ a, decide (u ≠ unit '|') = true := by
    intro u hu
    exact decide_eq_true (forall_ne_of_not_mem h u hu)
  rw [beforeBar, List.append_assoc, List.takeWhile_append_of_pos ha]
  exact List.append_nil a

theorem afterBar_append (h : unit '|' ∉ a) : afterBar (a ++ js "|" ++ r) = r := by
  have ha : ∀ u ∈ a, decide (u ≠ unit '|') = true := by
    intro u hu
    exact decide_eq_true (forall_ne_of_not_mem h u hu)
  rw [afterBar, List.append_assoc, List.dropWhile_append_of_pos ha]
  rfl

theorem bar_not_mem_text (kind : SurfaceKind) : unit '|' ∉ kind.text := by
  cases kind <;> decide

/-- A tuple without bars before its kind parses into its parts. -/
theorem parse_tuple (hrel : unit '|' ∉ rel) (hs : unit '|' ∉ s.path) :
    parse (s.tuple rel) = ⟨rel ++ js "#" ++ s.path, s.kind.text, s.value⟩ := by
  have hsite : unit '|' ∉ rel ++ js "#" ++ s.path := by
    simp only [List.mem_append, not_or]
    exact ⟨⟨hrel, by decide⟩, hs⟩
  have htuple : s.tuple rel =
      (rel ++ js "#" ++ s.path) ++ js "|" ++ (s.kind.text ++ js "|" ++ s.value) := by
    simp [Surface.tuple]
  rw [htuple, parse, beforeBar_append hsite, afterBar_append hsite,
    beforeBar_append (bar_not_mem_text _), afterBar_append (bar_not_mem_text _)]

theorem text_injective : Function.Injective SurfaceKind.text := by
  intro k l h
  cases k <;> cases l <;> first | rfl | exact absurd h (by decide)

theorem tuple_inj (hrel : unit '|' ∉ rel) (hs : unit '|' ∉ s.path) (ht : unit '|' ∉ t.path)
    (h : s.tuple rel = t.tuple rel) : s = t := by
  have hparse := congrArg parse h
  rw [parse_tuple hrel hs, parse_tuple hrel ht, Tuple.mk.injEq] at hparse
  obtain ⟨hsite, hkind, hvalue⟩ := hparse
  cases s
  cases t
  simp only [Surface.mk.injEq]
  exact ⟨List.append_cancel_left hsite, text_injective hkind, hvalue⟩

end Tuples

section Gate

variable (rel : JsString) (old new schema : Json)

/-- The tuples of a schema in the file `rel`. -/
def censusTuples : List JsString := (enumerateSchema schema).map (Surface.tuple rel)

/-- The `conditionals` of a schema, by tuple. -/
def conditionalTuples : Record JsString (List (Option Json)) :=
  (conditionals schema).map fun c => (c.1.tuple rel, c.2)

/-- The gate passes the new schema against the baseline of the old, without licences. -/
def GatePasses : Prop :=
  gateFailures [] (censusTuples rel old) (censusTuples rel new) (conditionalTuples rel new) = []

instance : Decidable (GatePasses rel old new) := inferInstanceAs (Decidable (_ = _))

variable {rel old new schema} {path : JsString} {settled settled' : List (JsString × Json)}
  {kind : SurfaceKind} {value : JsString}

theorem mem_censusTuples (hrel : unit '|' ∉ rel) (h : SimpleSchema schema)
    (hshallow : Shallow schema path) (hset : SettledAt schema path settled) :
    Surface.tuple rel ⟨path, kind, value⟩ ∈ censusTuples rel schema ↔
      value ∈ valuesOf settled kind := by
  rw [← h.mem_enumerateSchema (s := ⟨path, kind, value⟩) hshallow hset, censusTuples]
  obtain ⟨depth, job, hocc, rfl, -⟩ := hset
  have hbar := (h.one_branch hocc).2.2
  constructor
  · intro hmem
    obtain ⟨s, hs, he⟩ := List.mem_map.mp hmem
    rwa [← tuple_inj hrel (h.bar_not_mem hs) hbar he]
  · exact fun hs => List.mem_map_of_mem hs

/-- What a node of a simple schema imposes, its own branch imposes. -/
theorem SimpleSchema.not_mem_conditionals (h : SimpleSchema schema) {s : Surface}
    (hshallow : Shallow schema s.path) (selectors : List (Option Json)) :
    (s, selectors) ∉ conditionals schema := by
  intro hmem
  have hcov := h.covered hshallow
  obtain ⟨s', -, he⟩ := List.mem_filterMap.mp hmem
  obtain ⟨_, hsome, he⟩ := Option.map_eq_some_iff.mp he
  obtain ⟨rfl, rfl⟩ := Prod.mk.inj he
  have hkind := (conditional?_isSome_iff.mp (Option.isSome_of_eq_some hsome)).1
  obtain ⟨hlisted, hnone⟩ := (hcov.mem_conditionals hkind).mp ⟨_, hmem⟩
  obtain ⟨b, hb⟩ := mem_collected.mp (List.mem_filter.mp hlisted).1
  have himp := hcov.mem_acc.mp hb
  obtain ⟨depth, job, hocc, hadds⟩ := id himp
  obtain ⟨hpath, rfl⟩ := hadds.path_eq
  obtain ⟨members, hnode, -⟩ := hadds
  have hreach : job.Reaches (s'.path, job.branchKey) :=
    ⟨⟨members, hnode⟩, (h.one_branch hocc).2.1, by rw [hpath]⟩
  exact hnone _ himp ⟨depth, job, hocc, hreach⟩

theorem get?_conditionalTuples (hrel : unit '|' ∉ rel) (h : SimpleSchema schema)
    (hshallow : Shallow schema path) (hset : SettledAt schema path settled) :
    Record.get? (conditionalTuples rel schema) (Surface.tuple rel ⟨path, .required, value⟩) =
      none := by
  rw [Record.get?_eq_none_iff]
  intro hmem
  obtain ⟨c, hc, he⟩ := List.mem_map.mp hmem
  obtain ⟨⟨s, selectors⟩, hs, rfl⟩ := List.mem_map.mp hc
  obtain ⟨depth, job, hocc, rfl, -⟩ := hset
  have hlisted : s ∈ enumerateSchema schema := by
    obtain ⟨s', hs', he'⟩ := List.mem_filterMap.mp hs
    obtain ⟨_, -, he'⟩ := Option.map_eq_some_iff.mp he'
    rwa [← (Prod.mk.inj he').1]
  obtain rfl := tuple_inj hrel (h.bar_not_mem hlisted) (h.one_branch hocc).2.2 he
  exact h.not_mem_conditionals hshallow _ hs

end Gate

section Passing

/-- Two simple schemas between which the gate passes. -/
structure GatedPair (rel : JsString) (old new : Json) : Prop where
  bar : unit '|' ∉ rel
  simple_old : SimpleSchema old
  simple_new : SimpleSchema new
  passes : GatePasses rel old new

/-- A path of such schemas, with the nodes it leads to. -/
structure GatedSite (rel : JsString) (old new : Json) (path : JsString)
    (was now : List (JsString × Json)) : Prop extends GatedPair rel old new where
  shallow_old : Shallow old path
  shallow_new : Shallow new path
  settled_old : SettledAt old path was
  settled_new : SettledAt new path now

variable {rel path value : JsString} {old new : Json} {was now : List (JsString × Json)}
  {kind : SurfaceKind}

theorem GatedSite.mem_before (h : GatedSite rel old new path was now) :
    Surface.tuple rel ⟨path, kind, value⟩ ∈ censusTuples rel old ↔ value ∈ valuesOf was kind :=
  mem_censusTuples h.bar h.simple_old h.shallow_old h.settled_old

theorem GatedSite.mem_after (h : GatedSite rel old new path was now) :
    Surface.tuple rel ⟨path, kind, value⟩ ∈ censusTuples rel new ↔ value ∈ valuesOf now kind :=
  mem_censusTuples h.bar h.simple_new h.shallow_new h.settled_new

theorem GatedSite.parse_tuple (h : GatedSite rel old new path was now) :
    parse (Surface.tuple rel ⟨path, kind, value⟩) = ⟨rel ++ js "#" ++ path, kind.text, value⟩ := by
  obtain ⟨depth, job, hocc, rfl, -⟩ := h.settled_old
  exact Schema.parse_tuple h.bar (h.simple_old.one_branch hocc).2.2

/-- Properties and values stay. -/
theorem GatedSite.union_kept (h : GatedSite rel old new path was now)
    (hkind : kind = .property ∨ kind = .enumMember) (hvalue : value ∈ valuesOf was kind) :
    value ∈ valuesOf now kind := by
  apply h.mem_after.mp
  apply Schema.union_kept h.passes (h.mem_before.mpr hvalue)
  rw [h.parse_tuple]
  obtain rfl | rfl := hkind
  · exact List.mem_cons_self ..
  · exact List.mem_cons_of_mem _ (List.mem_cons_self ..)

/-- Types stay where the new schema says something. -/
theorem GatedSite.type_kept (h : GatedSite rel old new path was now)
    (hsaid : ∃ kind value, value ∈ valuesOf now kind) (hvalue : value ∈ valuesOf was .type) :
    value ∈ valuesOf now .type := by
  apply h.mem_after.mp
  apply Schema.type_kept h.passes (h.mem_before.mpr hvalue)
  · rw [h.parse_tuple]
    rfl
  · obtain ⟨kind, said, hsaid⟩ := hsaid
    refine ⟨_, h.mem_after.mpr hsaid, ?_⟩
    rw [h.parse_tuple, h.parse_tuple]

/-- Restrictions were there where the old schema says something. -/
theorem GatedSite.restriction_kept (h : GatedSite rel old new path was now)
    (hkind : kind = .required ∨ kind = .closed)
    (hsaid : ∃ kind value, value ∈ valuesOf was kind) (hvalue : value ∈ valuesOf now kind) :
    value ∈ valuesOf was kind := by
  apply h.mem_before.mp
  apply Schema.restriction_kept h.passes (h.mem_after.mpr hvalue)
  · rw [h.parse_tuple]
    exact hkind.imp (congrArg SurfaceKind.text) (congrArg SurfaceKind.text)
  · rw [h.parse_tuple]
    have hnone : Record.get? (conditionalTuples rel new)
        (Surface.tuple rel ⟨path, .required, value⟩) = none :=
      get?_conditionalTuples h.bar h.simple_new h.shallow_new h.settled_new
    rw [Surface.tuple] at hnone
    simpa [SurfaceKind.text, js] using hnone
  · obtain ⟨kind, said, hsaid⟩ := hsaid
    refine ⟨_, h.mem_before.mpr hsaid, ?_⟩
    rw [h.parse_tuple, h.parse_tuple]

end Passing

section Assertions

/-- The new node adds no keyword that narrows by being there: a type, a set of values, a schema
for items or for further members stands where the old node has one, members are declared where they
were closed, and what is required or closed was spoken of before. -/
@[mk_iff]
structure Additive (was now : List (JsString × Json)) : Prop where
  type : (keyword now (js "type")).isSome → (keyword was (js "type")).isSome
  values : (keyword now (js "enum")).isSome ∨ (keyword now (js "const")).isSome →
    (keyword was (js "enum")).isSome ∨ (keyword was (js "const")).isSome
  known : requiredNames now ≠ [] ∨ closedValues now ≠ [] → ∃ kind, valuesOf was kind ≠ []
  declared : ∀ k ∈ Record.keys (schemasOf now (js "properties")),
    k ∈ Record.keys (schemasOf was (js "properties")) ∨
      keyword was (js "additionalProperties") = some (.bool false)
  additional : Json.isObject (keyword now (js "additionalProperties")) = true →
    Json.isObject (keyword was (js "additionalProperties")) = true ∨
      keyword was (js "additionalProperties") = some (.bool false)
  items : (keyword now (js "items")).isSome → (keyword was (js "items")).isSome

instance {p : SurfaceKind → Prop} [DecidablePred p] : Decidable (∃ kind, p kind) :=
  decidable_of_iff (p .property ∨ p .enumMember ∨ p .required ∨ p .closed ∨ p .type) <| by
    constructor
    · rintro (h | h | h | h | h)
      all_goals exact ⟨_, h⟩
    · rintro ⟨kind, h⟩
      cases kind <;> simp [h]

instance (was now : List (JsString × Json)) : Decidable (Additive was now) :=
  decidable_of_iff _ (additive_iff was now).symm

/-- The values `enum` and `const` permit. -/
def permitted (members : List (JsString × Json)) : List Json :=
  clausesOf members (js "enum") ++ (keyword members (js "const")).toList

variable {rel path : JsString} {old new root v : Json}
  {was now members : List (JsString × Json)}

theorem enumValues_eq : enumValues members = (permitted members).map Json.stringify := by
  simp [enumValues, permitted, clausesOf]

/-- With one of `enum` and `const`, a value is accepted when it is permitted. -/
theorem Simple.permitted_iff (h : Simple root members)
    (hsome : (keyword members (js "enum")).isSome ∨ (keyword members (js "const")).isSome) :
    (enumHolds members v = true ∧ constHolds members v = true) ↔
      ∃ w ∈ permitted members, Json.Same v w := by
  unfold enumHolds constHolds permitted clausesOf
  obtain hnone | hnone := h.single
  · rw [hnone] at hsome ⊢
    obtain ⟨c, hc⟩ := Option.isSome_iff_exists.mp (hsome.resolve_left (by simp))
    simp [hc, Json.items?]
  · rw [hnone] at hsome ⊢
    obtain ⟨s, hs⟩ := Option.isSome_iff_exists.mp (hsome.resolve_right (by simp))
    obtain ⟨values, rfl⟩ := h.enum s hs
    simp [hs, Json.items?]

theorem GatedSite.typeHolds (h : GatedSite rel old new path was now) (hadd : Additive was now)
    (hnow : Simple root now) (hv : typeHolds was v = true) : typeHolds now v = true := by
  unfold Schema.typeHolds at hv ⊢
  cases ht : keyword now (js "type") with
  | none => rfl
  | some t =>
    obtain ⟨t', ht'⟩ := Option.isSome_iff_exists.mp (hadd.type (by rw [ht]; rfl))
    rw [ht', Option.all_some, List.any_eq_true] at hv
    obtain ⟨name, hname, htype⟩ := hv
    rw [Option.all_some, List.any_eq_true]
    obtain ⟨said, hsaid⟩ := List.exists_mem_of_ne_nil _ (hnow.type t ht)
    exact ⟨name, h.type_kept ⟨.type, said, hsaid⟩ hname, htype⟩

theorem GatedSite.values_hold (h : GatedSite rel old new path was now)
    (hadd : Additive was now) (hwas : Simple old was) (hnow : Simple new now)
    (hv : enumHolds was v = true ∧ constHolds was v = true) :
    enumHolds now v = true ∧ constHolds now v = true := by
  by_cases hsome : (keyword now (js "enum")).isSome ∨ (keyword now (js "const")).isSome
  · rw [hwas.permitted_iff (hadd.values hsome)] at hv
    rw [hnow.permitted_iff hsome]
    obtain ⟨w, hw, hsame⟩ := hv
    have htext : w.stringify ∈ valuesOf was .enumMember := by
      rw [valuesOf, enumValues_eq]
      exact List.mem_map_of_mem hw
    have hkept := h.union_kept (Or.inr rfl) htext
    rw [valuesOf, enumValues_eq] at hkept
    obtain ⟨w', hw', he⟩ := List.mem_map.mp hkept
    -- plain values with one text are one value
    obtain rfl := Json.stringify_inj (hnow.plain w' hw') (hwas.plain w hw) he
    exact ⟨w', hw', hsame⟩
  · rw [not_or, Option.not_isSome_iff_eq_none, Option.not_isSome_iff_eq_none] at hsome
    simp [enumHolds, constHolds, hsome, Json.items?]

theorem GatedSite.requiredHolds (h : GatedSite rel old new path was now)
    (hadd : Additive was now) (hwas : Simple old was) (hv : requiredHolds was [] v = true) :
    requiredHolds now [] v = true := by
  rw [requiredHolds_iff] at hv ⊢
  intro vs hvs k hk
  have hname : k ∈ valuesOf now .required := List.mem_map.mpr ⟨_, hk, rfl⟩
  obtain ⟨kind, hsaid⟩ := hadd.known (Or.inl (List.ne_nil_of_mem hname))
  obtain ⟨said, hsaid⟩ := List.exists_mem_of_ne_nil _ hsaid
  have hold := h.restriction_kept (Or.inl rfl) ⟨kind, said, hsaid⟩ hname
  obtain ⟨n, hn, he⟩ := List.mem_map.mp hold
  obtain ⟨k', rfl⟩ := hwas.required n hn
  obtain rfl : k' = k := he
  exact hv vs hvs k' hn

/-- What looks at the value alone. -/
theorem GatedSite.asserts (h : GatedSite rel old new path was now) (hadd : Additive was now)
    (hwas : Simple old was) (hnow : Simple new now) (hv : asserts was [] v = true) :
    asserts now [] v = true := by
  rw [asserts_iff] at hv ⊢
  obtain ⟨htype, henum, hconst, hrequired, -⟩ := hv
  obtain ⟨henum, hconst⟩ := h.values_hold hadd hwas hnow ⟨henum, hconst⟩
  refine ⟨h.typeHolds hadd hnow htype, henum, hconst, h.requiredHolds hadd hwas hrequired, ?_⟩
  unfold minItemsHolds
  rw [hnow.keywords (js "minItems") (by decide)]
  cases v <;> rfl

end Assertions

section Documents

/-- A path that the value at a path, or a part of it, may stand at. -/
inductive Site : Json → JsString → JsString → Prop
  | here (v : Json) (path : JsString) : Site v path path
  | item {xs : List Json} {x : Json} {path q : JsString} (mem : x ∈ xs)
      (site : Site x (path ++ js "/" ++ js "[]") q) : Site (.arr xs) path q
  | member {vs : List (JsString × Json)} {m : JsString × Json} {path q : JsString} (mem : m ∈ vs)
      (site : Site m.2 (path ++ js "/" ++ esc m.1) q) : Site (.obj vs) path q
  | additional {vs : List (JsString × Json)} {m : JsString × Json} {path q : JsString}
      (mem : m ∈ vs) (site : Site m.2 (path ++ js "/" ++ js "*") q) : Site (.obj vs) path q

variable {rel path : JsString} {old new root node v : Json}
  {was now settled members : List (JsString × Json)}

end Documents

section Carried

open Filter

variable {rel path : JsString} {old new v : Json} {was now : List (JsString × Json)} {bound : Nat}

end Carried

section Closed

variable {rel path : JsString} {root old new : Json} {settled : List (JsString × Json)}
  {jobs jobs' : List (Nat × Job)}

/-- The members of the node a job calls for. -/
def Job.members (job : Job) : List (JsString × Json) := membersOf job.node

end Closed

section Examples

end Examples

end OpenWop.Schema
