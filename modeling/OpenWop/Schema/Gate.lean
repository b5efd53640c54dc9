import OpenWop.Schema.Census

/-!
# The monotone gate

`check-v2-surface-monotone` compares the tuples of a baseline with those of the tree. A
removed member of a union fails unless a licence names it, or it goes with a property
above it that is removed too. A new `required` or `closed` fails at a site the baseline
knows, and a removed `type` at a site the tree still knows. Everything else is an
addition and passes.
-/

namespace OpenWop.Schema

open OpenWop.Js

section Tuples

/-- A tuple of the census, in its parts. -/
structure Tuple where
  site : JsString
  kind : JsString
  value : JsString
  deriving DecidableEq

/-- What stands before the first bar. -/
def beforeBar (s : JsString) : JsString := s.takeWhile (· ≠ unit '|')

/-- What stands after the first bar. -/
def afterBar (s : JsString) : JsString := (s.dropWhile (· ≠ unit '|')).tail

/-- `parse`, of a text with two bars. -/
def parse (s : JsString) : Tuple where
  site := beforeBar s
  kind := beforeBar (afterBar s)
  value := afterBar (afterBar s)

/-- `siteOf`: the instance pointer a removal is about. -/
def siteOf (t : Tuple) : JsString :=
  if t.kind = js "property" then t.site ++ js "/" ++ t.value
  else if t.kind = js "operation" then js "spec/v2/path-manifest.json#/operations/" ++ t.value
  else if t.kind = js "channel" then js "spec/v2/path-manifest.json#/channels/" ++ t.value
  else t.site

/-- The kinds of which a removed member fails. -/
def unionKinds : List JsString :=
  [js "property", js "enum-member", js "operation", js "channel"]

/-- `value.replace(/^"|"$/g, '')`. -/
def unquote (value : JsString) : JsString :=
  dropSuffix (if startsWith value (js "\"") then value.tail else value) (js "\"")

/-- `licensedBy`: a pointer names the site, something above it, or the member. -/
def licensedBy (licences : List JsString) (site : JsString) (value : Option JsString) : Bool :=
  licences.any fun pointer => site = pointer || startsWith site (pointer ++ js "/") ||
    value.any fun value => pointer = site ++ js "=" ++ unquote value

end Tuples

section Failures

/-- What the gate finds wrong. -/
inductive Failure where
  | removed (t : Tuple)
  | required (t : Tuple)
  | closed (t : Tuple)
  | type (t : Tuple)
  deriving DecidableEq

variable (licences before after : List JsString)
  (conditionals : Record JsString (List (Option Json)))

/-- The tuples of the baseline that the tree lacks. -/
def removedTuples : List Tuple := (before.filter fun s => s ∉ after).map parse

/-- The tuples of the tree that the baseline lacks. -/
def addedTuples : List Tuple := (after.filter fun s => s ∉ before).map parse

/-- The members of unions that are removed. -/
def removedUnion : List Tuple :=
  (removedTuples before after).filter fun t => t.kind ∈ unionKinds

/-- A removed property takes its whole subtree with it. -/
def isUnderARemovedProperty (site : JsString) : Bool :=
  (((removedUnion before after).filter fun t => t.kind = js "property").map siteOf).any fun p =>
    site ≠ p && startsWith site (p ++ js "/")

/-- The removals nothing licenses. -/
def removalFailures : List Failure :=
  (removedUnion before after).filterMap fun t =>
    if isUnderARemovedProperty before after (siteOf t) then none
    else if licensedBy licences (siteOf t)
        (if t.kind = js "enum-member" then some t.value else none) then none
    else some (.removed t)

/-- The values a selector pins a property to. -/
def pinnedValues (p : Option Json) : List Json :=
  match Json.read? p (js "const") with
  | some v => [v]
  | none => (Json.items? (Json.read? p (js "enum"))).getD []

/-- `selectsOnlyNewValues`: the selector requires a property and pins it to added members. -/
def selectsOnlyNewValues (site : JsString) (sel : Option Json) : Bool :=
  ((Json.items? (Json.read? sel (js "required"))).getD []).any fun k =>
    let values := pinnedValues (Json.read? (Json.read? sel (js "properties")) k.text)
    !values.isEmpty && values.all fun v =>
      decide ((site ++ js "/" ++ esc k.text ++ js "|enum-member|" ++ v.stringify) ∈
        after.filter fun s => s ∉ before)

/-- A `required` that holds only under selectors on members the same change adds. -/
def isNewValueConditional (t : Tuple) : Bool :=
  match Record.get? conditionals (t.site ++ js "|required|" ++ t.value) with
  | some selectors => !selectors.isEmpty &&
      selectors.all (selectsOnlyNewValues before after t.site)
  | none => false

/-- The new restrictions at sites the baseline knows. -/
def restrictionFailures : List Failure :=
  (addedTuples before after).filterMap fun t =>
    if t.site ∉ before.map (fun s => (parse s).site) then none
    else if t.kind = js "required" then
      if isNewValueConditional before after conditionals t then none else some (.required t)
    else if t.kind = js "closed" then some (.closed t)
    else none

/-- The types that are gone from sites the tree still knows. -/
def typeFailures : List Failure :=
  (removedTuples before after).filterMap fun t =>
    if t.kind = js "type" ∧ t.site ∈ after.map (fun s => (parse s).site) then some (.type t)
    else none

/-- What the gate reports. It passes when there is nothing to report. -/
def gateFailures : List Failure :=
  removalFailures licences before after ++ restrictionFailures before after conditionals ++
    typeFailures before after

end Failures

section Passing

variable {before after : List JsString} {conditionals : Record JsString (List (Option Json))}
  {s : JsString}

theorem mem_removedTuples {t : Tuple} : t ∈ removedTuples before after ↔
    ∃ s ∈ before, s ∉ after ∧ parse s = t := by
  simp [removedTuples, and_assoc]

theorem mem_addedTuples {t : Tuple} : t ∈ addedTuples before after ↔
    ∃ s ∈ after, s ∉ before ∧ parse s = t := by
  simp [addedTuples, and_assoc]

theorem mem_removedUnion {t : Tuple} : t ∈ removedUnion before after ↔
    t ∈ removedTuples before after ∧ t.kind ∈ unionKinds := by
  simp [removedUnion]

/-- Without licences no member of a union is removed: the topmost removal would be reported. -/
theorem removedUnion_eq_nil (h : gateFailures [] before after conditionals = []) :
    removedUnion before after = [] := by
  have hremovals : removalFailures [] before after = [] :=
    (List.append_eq_nil_iff.mp (List.append_eq_nil_iff.mp h).1).1
  have hunder : ∀ t ∈ removedUnion before after,
      isUnderARemovedProperty before after (siteOf t) = true := by
    intro t ht
    by_contra hnot
    have hfail := List.filterMap_eq_nil_iff.mp hremovals t ht
    rw [if_neg hnot] at hfail
    simp [licensedBy] at hfail
  have hnone : ∀ n, ∀ t ∈ removedUnion before after, (siteOf t).length ≠ n := by
    intro n
    induction n using Nat.strong_induction_on with
    | _ n ih =>
      intro t ht hlen
      -- a property above the site is removed, and its own site is shorter
      have h := hunder t ht
      simp only [isUnderARemovedProperty, List.any_map, List.any_eq_true, List.mem_filter,
        decide_eq_true_eq, Function.comp_apply, Bool.and_eq_true] at h
      obtain ⟨p, ⟨hp, -⟩, -, hstart⟩ := h
      have hle := (startsWith_iff.mp hstart).length_le
      rw [List.length_append] at hle
      have hpos : 0 < (js "/").length := by decide
      exact ih (siteOf p).length (by omega) p hp rfl
  apply List.eq_nil_iff_forall_not_mem.mpr
  exact fun t ht => hnone _ t ht rfl

/-- The members of unions stay. -/
theorem union_kept (h : gateFailures [] before after conditionals = []) (hs : s ∈ before)
    (hkind : (parse s).kind ∈ unionKinds) : s ∈ after := by
  by_contra hnot
  have hmem : parse s ∈ removedUnion before after :=
    mem_removedUnion.mpr ⟨mem_removedTuples.mpr ⟨s, hs, hnot, rfl⟩, hkind⟩
  rw [removedUnion_eq_nil h] at hmem
  cases hmem

/-- At a site the tree knows, the types stay. -/
theorem type_kept (h : gateFailures [] before after conditionals = []) (hs : s ∈ before)
    (hkind : (parse s).kind = js "type")
    (hsite : ∃ s' ∈ after, (parse s').site = (parse s).site) : s ∈ after := by
  by_contra hnot
  have htypes := (List.append_eq_nil_iff.mp h).2
  have hfail := List.filterMap_eq_nil_iff.mp htypes (parse s)
    (mem_removedTuples.mpr ⟨s, hs, hnot, rfl⟩)
  rw [if_pos ⟨hkind, List.mem_map.mpr hsite⟩] at hfail
  cases hfail

/-- At a site the baseline knows, a restriction that no conditional imposes was there before. -/
theorem restriction_kept (h : gateFailures [] before after conditionals = []) (hs : s ∈ after)
    (hkind : (parse s).kind = js "required" ∨ (parse s).kind = js "closed")
    (hcond : Record.get? conditionals ((parse s).site ++ js "|required|" ++ (parse s).value) = none)
    (hsite : ∃ s' ∈ before, (parse s').site = (parse s).site) : s ∈ before := by
  by_contra hnot
  have hrestrictions := (List.append_eq_nil_iff.mp (List.append_eq_nil_iff.mp h).1).2
  have hfail := List.filterMap_eq_nil_iff.mp hrestrictions (parse s)
    (mem_addedTuples.mpr ⟨s, hs, hnot, rfl⟩)
  rw [if_neg (not_not.mpr (List.mem_map.mpr hsite))] at hfail
  have hplain : isNewValueConditional before after conditionals (parse s) = false := by
    rw [isNewValueConditional, hcond]
  obtain hk | hk := hkind
  · rw [if_pos hk, if_neg (by rw [hplain]; exact Bool.false_ne_true)] at hfail
    cases hfail
  · rw [if_neg (by rw [hk]; decide), if_pos hk] at hfail
    cases hfail

end Passing

end OpenWop.Schema
