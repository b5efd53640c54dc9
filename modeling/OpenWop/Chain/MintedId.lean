import OpenWop.Chain.Tree

/-!
# Minted child workflow ids

`mintChildWorkflowId` joins the tenant, the chain and the version with `__` and replaces
every unit but ASCII letters, digits and hyphens by `_`. Two triples get one id exactly
when their joined texts differ in replaced units only.
-/

namespace OpenWop.Chain

open OpenWop.Js

section Slug

/-- A unit that is its own replacement and no other's: an ASCII letter, digit or hyphen. -/
def isKeptUnit (u : UInt16) : Bool :=
  (48 ≤ u && u ≤ 57) || (65 ≤ u && u ≤ 90) || (97 ≤ u && u ≤ 122) || u = unit '-'

/-- The replacement of a unit. -/
def slugUnit (u : UInt16) : UInt16 := if isKeptUnit u then u else unit '_'

theorem not_isKeptUnit_underscore : isKeptUnit (unit '_') = false := by decide

theorem slug_eq_map (s : JsString) : slug s = s.map slugUnit := by
  rw [slug, List.map_map]
  apply List.map_congr_left
  intro u _
  have hdot : isKeptUnit (unit '.') = false := by decide
  have hkept : isSlugUnit u = (isKeptUnit u || decide (u = unit '_')) := by
    unfold isSlugUnit isKeptUnit
    cases (decide (48 ≤ u) && decide (u ≤ 57)) <;> cases (decide (65 ≤ u) && decide (u ≤ 90)) <;>
      cases (decide (97 ≤ u) && decide (u ≤ 122)) <;> simp [Bool.or_comm]
  by_cases hd : u = unit '.'
  · subst hd
    simp [slugUnit, hdot]
  · by_cases hu : u = unit '_'
    · subst hu
      simp [slugUnit, hkept, not_isKeptUnit_underscore]
    · by_cases hk : isKeptUnit u = true <;> simp [slugUnit, hkept, hk, hd, hu]

theorem slug_append (s t : JsString) : slug (s ++ t) = slug s ++ slug t := by
  simp only [slug_eq_map, List.map_append]

/-- Two units have one replacement when they are equal or both replaced. -/
theorem slugUnit_eq_iff {u v : UInt16} :
    slugUnit u = slugUnit v ↔ u = v ∨ (isKeptUnit u = false ∧ isKeptUnit v = false) := by
  have hne : ∀ w, isKeptUnit w = true → w ≠ unit '_' := by
    rintro w hw rfl
    rw [not_isKeptUnit_underscore] at hw
    cases hw
  unfold slugUnit
  cases hu : isKeptUnit u <;> cases hv : isKeptUnit v
  · simp
  · have hv' := hne v hv
    simp only [Bool.false_eq_true, if_false, if_true, and_false, or_false, reduceCtorEq]
    constructor
    · exact fun h => absurd h.symm hv'
    · rintro rfl
      rw [hu] at hv
      cases hv
  · have hu' := hne u hu
    simp only [Bool.false_eq_true, if_false, if_true, false_and, or_false, reduceCtorEq]
    constructor
    · exact fun h => absurd h hu'
    · rintro rfl
      rw [hu] at hv
      cases hv
  · simp

end Slug

section Minted

/-- What a child workflow id is minted from. -/
structure ChildKey where
  tenantId : JsString
  childChainId : JsString
  version : JsString
  deriving DecidableEq, Repr

/-- The id minted from a key. -/
def ChildKey.mint (key : ChildKey) : JsString :=
  mintChildWorkflowId key.tenantId key.childChainId key.version

/-- The tenant, the chain and the version joined by `__`. -/
def ChildKey.joined (key : ChildKey) : JsString :=
  key.tenantId ++ js "__" ++ key.childChainId ++ js "__" ++ key.version

/-- Two texts of one length that differ in replaced units only. -/
def Merged (s t : JsString) : Prop :=
  List.Forall₂ (fun u v => u = v ∨ (isKeptUnit u = false ∧ isKeptUnit v = false)) s t

instance (s t : JsString) : Decidable (Merged s t) :=
  inferInstanceAs (Decidable (List.Forall₂ _ s t))

theorem mint_eq_slug (key : ChildKey) : key.mint = js "wfc_" ++ slug key.joined := by
  have hsep : slug (js "__") = js "__" := by decide
  simp only [ChildKey.mint, ChildKey.joined, mintChildWorkflowId, slug_append, hsep,
    List.append_assoc]

theorem slug_eq_iff {s t : JsString} : slug s = slug t ↔ Merged s t := by
  rw [slug_eq_map, slug_eq_map, ← List.forall₂_eq_eq_eq, List.forall₂_map_left_iff,
    List.forall₂_map_right_iff]
  simp only [slugUnit_eq_iff]
  rfl

/-- Distinct keys get distinct ids exactly when their joined texts are not merged. -/
theorem mint_ne_iff (key key' : ChildKey) :
    (key ≠ key' → key.mint ≠ key'.mint) ↔
      (key = key' ∨ ¬ Merged key.joined key'.joined) := by
  have hmint : key.mint = key'.mint ↔ Merged key.joined key'.joined := by
    rw [mint_eq_slug, mint_eq_slug, List.append_cancel_left_eq, slug_eq_iff]
  rw [ne_eq, ne_eq, hmint, or_iff_not_imp_left]

/-- Two tenants that differ in a dot share the id of one child. -/
theorem mint_not_injective : ¬ ∀ key key' : ChildKey, key ≠ key' → key.mint ≠ key'.mint := by
  intro h
  exact h ⟨js "acme.prod", js "lesson", js "1"⟩ ⟨js "acme_prod", js "lesson", js "1"⟩
    (by decide) (by decide)

/-- A tenant of kept units only is what the id starts with after `wfc_`. -/
theorem takeWhile_slug_joined {key : ChildKey} (h : ∀ u ∈ key.tenantId, isKeptUnit u = true) :
    (slug key.joined).takeWhile isKeptUnit = key.tenantId := by
  have htenant : slug key.tenantId = key.tenantId := by
    rw [slug_eq_map]
    exact (List.map_congr_left fun u hu => if_pos (h u hu)).trans (List.map_id _)
  have hsep : slug (js "__") = unit '_' :: js "_" := by decide
  rw [ChildKey.joined, List.append_assoc, List.append_assoc, slug_append, slug_append, htenant,
    hsep, List.append_assoc, List.takeWhile_append_of_pos h, List.cons_append,
    List.takeWhile_cons_of_neg
    (by rw [not_isKeptUnit_underscore]; exact Bool.false_ne_true), List.append_nil]

/-- Tenants of letters, digits and hyphens never share an id. -/
theorem tenantId_eq_of_mint {key key' : ChildKey} (h : ∀ u ∈ key.tenantId, isKeptUnit u = true)
    (h' : ∀ u ∈ key'.tenantId, isKeptUnit u = true) (hmint : key.mint = key'.mint) :
    key.tenantId = key'.tenantId := by
  rw [mint_eq_slug, mint_eq_slug, List.append_cancel_left_eq] at hmint
  rw [← takeWhile_slug_joined h, ← takeWhile_slug_joined h', hmint]

end Minted

end OpenWop.Chain
