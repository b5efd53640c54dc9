import OpenWop.Chain.Expand

/-!
# Freshness of expanded node ids

Every expansion prefixes its node ids with the chain id, dots replaced, and the
expansion id, each followed by `_`. The namespaces so written are not prefix-free: when
one continues another, the two expansions can meet at a node id that supplies the rest.
-/

namespace OpenWop.Chain

open OpenWop.Js

section Expansions

/-- An expansion that succeeded. -/
structure Expansion where
  chain : WorkflowChain
  ctx : ExpansionContext
  fragment : ExpandedFragment
  expanded : expandChain chain ctx = .ok fragment

/-- A chain id with its dots written as underscores. -/
def undotted (chainId : JsString) : JsString :=
  chainId.map fun u => if u = unit '.' then unit '_' else u

/-- The chain id without dots and the expansion id, each followed by `_`. -/
def Expansion.namespaceText (e : Expansion) : JsString :=
  undotted e.chain.chainId ++ js "_" ++ e.ctx.expansionId ++ js "_"

/-- The ids of the chain's own nodes. -/
def Expansion.sourceIds (e : Expansion) : List JsString := e.chain.nodes.map FragmentNode.id

/-- The ids of the expanded nodes. -/
def Expansion.expandedIds (e : Expansion) : List JsString := e.fragment.nodes.map ExpandedNode.id

theorem expandedIds_eq (e : Expansion) :
    e.expandedIds = e.sourceIds.map (e.namespaceText ++ ·) := by
  have h := e.expanded
  unfold expandChain at h
  split at h
  · cases h
  · have hf := Except.ok.inj h
    rw [Expansion.expandedIds, ← hf, Expansion.sourceIds, List.map_map, List.map_map]
    rfl

/-- Distinct ids of a chain stay distinct. -/
theorem nodup_expandedIds {e : Expansion} (h : e.sourceIds.Nodup) : e.expandedIds.Nodup := by
  rw [expandedIds_eq]
  exact h.map fun _ _ => List.append_cancel_left

end Expansions

section Overlaps

/-- The namespace of the first expansion is continued by that of the second, and a node id of
the first supplies the rest of a node id of the second. -/
def Overlaps (e e' : Expansion) : Prop :=
  ∃ rest, e'.namespaceText = e.namespaceText ++ rest ∧
    ∃ id ∈ e'.sourceIds, rest ++ id ∈ e.sourceIds

/-- Two expansions share an id exactly when one overlaps the other. -/
theorem disjoint_expandedIds_iff (e e' : Expansion) :
    e.expandedIds.Disjoint e'.expandedIds ↔ ¬ Overlaps e e' ∧ ¬ Overlaps e' e := by
  have hshared : ∀ {f f' : Expansion}, Overlaps f f' →
      ∃ id, id ∈ f.expandedIds ∧ id ∈ f'.expandedIds := by
    rintro f f' ⟨rest, hns, id, hid, hrest⟩
    refine ⟨f'.namespaceText ++ id, ?_, ?_⟩
    · rw [expandedIds_eq, hns, List.append_assoc]
      exact List.mem_map_of_mem hrest
    · rw [expandedIds_eq]
      exact List.mem_map_of_mem hid
  constructor
  · intro h
    refine ⟨fun ho => ?_, fun ho => ?_⟩
    · obtain ⟨id, hid, hid'⟩ := hshared ho
      exact h hid hid'
    · obtain ⟨id, hid', hid⟩ := hshared ho
      exact h hid hid'
  · rintro ⟨hno, hno'⟩ id hid hid'
    rw [expandedIds_eq] at hid hid'
    obtain ⟨a, ha, rfl⟩ := List.mem_map.mp hid
    obtain ⟨b, hb, hab⟩ := List.mem_map.mp hid'
    -- The shorter namespace is the beginning of the longer one.
    obtain ⟨rest, hns, hb'⟩ | ⟨rest, hns, ha'⟩ := List.append_eq_append_iff.mp hab
    · exact hno' ⟨rest, hns, a, ha, hb' ▸ hb⟩
    · exact hno ⟨rest, hns, b, hb, ha' ▸ ha⟩

/-- The expanded ids are pairwise distinct across the expansions, and within each one whose
chain has distinct node ids. -/
def Fresh (expansions : List Expansion) : Prop :=
  expansions.Pairwise (fun e e' => e.expandedIds.Disjoint e'.expandedIds) ∧
    ∀ e ∈ expansions, e.sourceIds.Nodup → e.expandedIds.Nodup

theorem fresh_iff_pairwise (expansions : List Expansion) : Fresh expansions ↔
    expansions.Pairwise fun e e' => ¬ Overlaps e e' ∧ ¬ Overlaps e' e := by
  simp only [Fresh, disjoint_expandedIds_iff]
  exact and_iff_left fun e _ => nodup_expandedIds

/-- Expansions under distinct ids are fresh exactly when none overlaps another. -/
theorem fresh_iff (expansions : List Expansion) :
    ((expansions.map fun e => e.ctx.expansionId).Nodup → Fresh expansions) ↔
      ((expansions.map fun e => e.ctx.expansionId).Nodup →
        expansions.Pairwise fun e e' => ¬ Overlaps e e' ∧ ¬ Overlaps e' e) :=
  imp_congr_right fun _ => fresh_iff_pairwise expansions

end Overlaps

section OneChain

/-- Expansion ids without underscores are read off the namespaces of one chain. -/
theorem expansionId_eq_of_namespaceText {e e' : Expansion} {rest : JsString}
    (hchain : e.chain.chainId = e'.chain.chainId) (he : unit '_' ∉ e.ctx.expansionId)
    (he' : unit '_' ∉ e'.ctx.expansionId)
    (h : e'.namespaceText = e.namespaceText ++ rest) : e.ctx.expansionId = e'.ctx.expansionId := by
  have hread : ∀ {id : JsString} (s : JsString), unit '_' ∉ id →
      (id ++ (js "_" ++ s)).takeWhile (· ≠ unit '_') = id := by
    intro id s hid
    have hkept : ∀ u ∈ id, decide (u ≠ unit '_') = true := by
      rintro u hu
      rw [decide_eq_true_eq]
      rintro rfl
      exact hid hu
    rw [List.takeWhile_append_of_pos hkept]
    simp [js, utf16Units, unit]
  simp only [Expansion.namespaceText, hchain, List.append_assoc, List.append_cancel_left_eq] at h
  rw [← hread rest he, ← h]
  exact hread [] he'

/-- Expansions of one chain under distinct ids without underscores are fresh. -/
theorem fresh_of_oneChain {expansions : List Expansion} {chainId : JsString}
    (hchain : ∀ e ∈ expansions, e.chain.chainId = chainId)
    (hplain : ∀ e ∈ expansions, unit '_' ∉ e.ctx.expansionId)
    (hids : (expansions.map fun e => e.ctx.expansionId).Nodup) : Fresh expansions := by
  rw [fresh_iff_pairwise]
  refine (List.pairwise_map.mp hids).imp_of_mem fun {e e'} hmem hmem' hne => ?_
  have hsame := (hchain e hmem).trans (hchain e' hmem').symm
  constructor
  · rintro ⟨rest, hns, -⟩
    exact hne (expansionId_eq_of_namespaceText hsame (hplain e hmem) (hplain e' hmem') hns)
  · rintro ⟨rest, hns, -⟩
    exact hne (expansionId_eq_of_namespaceText hsame.symm (hplain e' hmem') (hplain e hmem)
      hns).symm

/-- A context without parameters in which every type resolves. -/
def plainContext (expansionId : JsString) : ExpansionContext where
  expansionId
  params := []
  isTypeIdResolvable := fun _ => true

/-- A chain `a` with nodes `x` and `b_x`. -/
def overlappingChain : WorkflowChain where
  chainId := js "a"
  version := js "1.0.0"
  nodes := [{ id := js "x", typeId := js "t" }, { id := js "b_x", typeId := js "t" }]

/-- One chain expanded under `e` and under `e_b` gives two nodes with the id `a_e_b_x`. -/
theorem not_fresh : ¬ ∀ expansions : List Expansion,
    (expansions.map fun e => e.ctx.expansionId).Nodup → Fresh expansions := by
  intro h
  have hfresh := h [⟨overlappingChain, plainContext (js "e"), _, rfl⟩,
    ⟨overlappingChain, plainContext (js "e_b"), _, rfl⟩] (by decide)
  have hdisjoint := List.rel_of_pairwise_cons hfresh.1 (List.mem_cons_self ..)
  exact hdisjoint (a := js "a_e_b_x") (by decide) (by decide)

end OneChain

end OpenWop.Chain
