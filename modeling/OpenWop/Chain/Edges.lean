import OpenWop.Chain.Expand

/-!
# Edges of an expanded fragment

An endpoint names a fragment node by its id, alone or with a port after a dot. The expansion takes
what stands before the first dot for the id.
-/

namespace OpenWop.Chain

open OpenWop.Js

section Naming

/-- The endpoint is the id of a node, or the id with a port. -/
def NamesWith (ref id port : JsString) : Prop :=
  ref = id ++ port ∧ (port = [] ∨ ∃ name, port = unit '.' :: name)

/-- The endpoint names a node of the fragment. -/
def Names (ids : List JsString) (ref : JsString) : Prop := ∃ id ∈ ids, ∃ port, NamesWith ref id port

/-- An endpoint and what it should become: the prefixed id with the same port, in every reading, and
itself where it names no node of the fragment. -/
def RenamedTo (ids : List JsString) (pre ref ref' : JsString) : Prop :=
  (∀ id ∈ ids, ∀ port, NamesWith ref id port → NamesWith ref' (pre ++ id) port) ∧
    (¬ Names ids ref → ref' = ref)

/-- An edge and what it should become. -/
def EdgeRenamed (ids : List JsString) (pre : JsString) (e e' : FragmentEdge) : Prop :=
  RenamedTo ids pre e.fromRef e'.fromRef ∧ RenamedTo ids pre e.toRef e'.toRef ∧
    e'.condition = e.condition ∧ e'.triggerRule = e.triggerRule

/-- What stands before the first dot is an id, if the endpoint names a node. -/
def ReadsId (ids : List JsString) (ref : JsString) : Prop :=
  Names ids ref → ref.takeWhile (· ≠ unit '.') ∈ ids

end Naming

section Rewriting

variable {ids : List JsString} {pre ref : JsString}

/-- The text splits at its first dot into an id and a port. -/
theorem namesWith_split (ref : JsString) :
    NamesWith ref (ref.takeWhile (· ≠ unit '.')) (ref.dropWhile (· ≠ unit '.')) := by
  refine ⟨List.takeWhile_append_dropWhile.symm, ?_⟩
  cases hport : ref.dropWhile (· ≠ unit '.') with
  | nil => exact .inl rfl
  | cons u name =>
    have hne : ref.dropWhile (· ≠ unit '.') ≠ [] := by rw [hport]; exact List.cons_ne_nil u name
    have hhead := List.head_dropWhile_not (· ≠ unit '.') hne
    simp only [hport, List.head_cons, decide_eq_false_iff_not, not_not] at hhead
    exact .inr ⟨name, by rw [hhead]⟩

theorem rewriteEdgeRef_of_mem (h : ref.takeWhile (· ≠ unit '.') ∈ ids) :
    rewriteEdgeRef ref ids pre = pre ++ ref := by
  rw [rewriteEdgeRef, if_pos h, List.append_assoc, List.takeWhile_append_dropWhile]

theorem rewriteEdgeRef_of_notMem (h : ref.takeWhile (· ≠ unit '.') ∉ ids) :
    rewriteEdgeRef ref ids pre = ref := by
  rw [rewriteEdgeRef, if_neg h]

/-- An endpoint is rewritten as it should be exactly when its id is read off. -/
theorem renamedTo_rewriteEdgeRef_iff (hpre : pre ≠ []) :
    RenamedTo ids pre ref (rewriteEdgeRef ref ids pre) ↔ ReadsId ids ref := by
  constructor
  · rintro h ⟨id, hid, port, hnames⟩
    by_contra hout
    have hrenamed := (h.1 id hid port hnames).1
    rw [rewriteEdgeRef_of_notMem hout, List.append_assoc, ← hnames.1] at hrenamed
    exact hpre (List.append_left_eq_self.mp hrenamed.symm)
  · intro h
    by_cases hread : ref.takeWhile (· ≠ unit '.') ∈ ids
    · rw [rewriteEdgeRef_of_mem hread]
      refine ⟨fun id _ port hnames => ⟨?_, hnames.2⟩, fun hnone => ?_⟩
      · rw [hnames.1, List.append_assoc]
      · exact absurd ⟨_, hread, _, namesWith_split ref⟩ hnone
    · rw [rewriteEdgeRef_of_notMem hread]
      exact ⟨fun id hid port hnames => absurd (h ⟨id, hid, port, hnames⟩) hread, fun _ => rfl⟩

theorem computePrefix_ne_nil (chainId expansionId : JsString) :
    computePrefix chainId expansionId ≠ [] := by
  intro h
  have hempty := (List.append_eq_nil_iff.mp h).2
  exact absurd hempty (by decide)

end Rewriting

section Expansion

variable {chain : WorkflowChain} {ctx : ExpansionContext} {fragment : ExpandedFragment}

theorem edges_of_expandChain (h : expandChain chain ctx = .ok fragment) :
    fragment.edges = expandedEdges chain (computePrefix chain.chainId ctx.expansionId) := by
  rw [expandChain] at h
  split at h
  · cases h
  · cases h
    rfl

/-- The edges of the fragment are the edges of the chain with their endpoints renamed exactly when
every endpoint that names a node names the one before its first dot. -/
theorem edges_renamed_iff (h : expandChain chain ctx = .ok fragment) :
    List.Forall₂ (EdgeRenamed (chain.nodes.map FragmentNode.id)
        (computePrefix chain.chainId ctx.expansionId)) (chain.edges.getD []) fragment.edges ↔
      ∀ e ∈ chain.edges.getD [], ReadsId (chain.nodes.map FragmentNode.id) e.fromRef ∧
        ReadsId (chain.nodes.map FragmentNode.id) e.toRef := by
  have hids : ∀ ref pre, rewriteEdgeRef ref chain.nodeIds pre =
      rewriteEdgeRef ref (chain.nodes.map FragmentNode.id) pre := fun ref pre => by
    simp only [rewriteEdgeRef, WorkflowChain.nodeIds, mem_uniq]
  have hpre := computePrefix_ne_nil chain.chainId ctx.expansionId
  rw [edges_of_expandChain h, expandedEdges, List.forall₂_map_right_iff, List.forall₂_same]
  refine forall₂_congr fun e _ => ?_
  simp only [EdgeRenamed, hids, renamedTo_rewriteEdgeRef_iff hpre, and_true]

/-- A chain of one node, with an edge from it to itself. -/
def loopChain (id : JsString) : WorkflowChain where
  chainId := js "c"
  version := js "1"
  nodes := [{ id := id, typeId := js "t" }]
  edges := some [{ fromRef := id ++ js ".out", toRef := id }]

/-- An expansion without parameters. -/
def bareContext : ExpansionContext where
  expansionId := js "e"
  params := []
  isTypeIdResolvable := fun _ => true

/-- What `expandChain` makes of such a chain. -/
def loopFragment (id : JsString) : ExpandedFragment where
  nodes := [(FragmentNode.mk id (js "t") none none none none).expand (loopChain id) (js "c_e_") none none]
  edges := expandedEdges (loopChain id) (js "c_e_")
  idMap := idMapOf (loopChain id) (js "c_e_")

theorem expandChain_loopChain (id : JsString) :
    expandChain (loopChain id) bareContext = .ok (loopFragment id) := rfl

/-- An id without a dot. -/
theorem loopChain_renamed : List.Forall₂ (EdgeRenamed [js "a"] (js "c_e_"))
    ((loopChain (js "a")).edges.getD []) (loopFragment (js "a")).edges := by
  refine (edges_renamed_iff (expandChain_loopChain (js "a"))).mpr fun e he => ?_
  obtain rfl := List.mem_singleton.mp he
  exact ⟨fun _ => by decide, fun _ => by decide⟩

/-- Edges at a node whose id has a dot keep the id the node no longer has. -/
theorem loopChain_dotted : expandChain (loopChain (js "a.b")) bareContext =
      .ok (loopFragment (js "a.b")) ∧
    (loopFragment (js "a.b")).nodes.map ExpandedNode.id = [js "c_e_a.b"] ∧
    (loopFragment (js "a.b")).edges = [{ fromRef := js "a.b.out", toRef := js "a.b" }] ∧
    ¬ List.Forall₂ (EdgeRenamed [js "a.b"] (js "c_e_"))
      ((loopChain (js "a.b")).edges.getD []) (loopFragment (js "a.b")).edges := by
  refine ⟨rfl, by decide, by decide, fun h => ?_⟩
  obtain _ | ⟨hedge, _⟩ := h
  have hnames : NamesWith (js "a.b") (js "a.b") [] := ⟨(List.append_nil _).symm, .inl rfl⟩
  have hrenamed := (hedge.2.1.1 _ (List.mem_singleton_self _) [] hnames).1
  exact absurd hrenamed (by decide)

end Expansion

end OpenWop.Chain
