import Mathlib.Data.List.Sort
import OpenWop.Chain.ComposeNet
import OpenWop.Chain.TreeCorrect

/-!
# Tree expansion and the order of nodes

A chain that is registered is not expanded again, so that a longer second way to it goes
unchecked, and which way is taken first depends on the order in which the nodes are
listed. An accepted expansion bounds every way of composition, and the order does not
matter, exactly when all ways are bounded and end at chains that resolve, or when no
plan of the composition exists.
-/

namespace OpenWop.Chain

open OpenWop.Js OpenWop.DepthFirst

section Statements

/-- The references followed from a chain on. -/
inductive Composes (ctx : CoExpansionContext) : WorkflowChain → List JsString → Prop
  | nil (chain : WorkflowChain) : Composes ctx chain []
  | cons {chain sibling : WorkflowChain} {ref : JsString} {refs : List JsString}
      (mem : ref ∈ subChainRefsInNodes chain) (found : ctx.siblingChains.get? ref = some sibling)
      (rest : Composes ctx sibling refs) : Composes ctx chain (ref :: refs)

/-- The chain lists the same nodes in another order. -/
def Reordered (chain chain' : WorkflowChain) : Prop :=
  ∃ nodes, nodes.Perm chain.nodes ∧ chain' = { chain with nodes }

/-- The sibling chains list the same nodes in another order. -/
def SiblingsReordered (ctx ctx' : CoExpansionContext) : Prop :=
  ∃ siblingChains, ctx' = { ctx with siblingChains } ∧
    ∀ ref, Option.Rel Reordered (ctx.siblingChains.get? ref) (siblingChains.get? ref)

/-- An accepted expansion means that no way of composition revisits a chain or is longer than
`maxDepth`, and acceptance does not depend on the order in which the chains list their nodes. -/
structure Orderly (ctx : CoExpansionContext) (root : WorkflowChain) : Prop where
  bounded : Accepts ctx root → ∀ refs, Composes ctx root refs →
    (root.chainId :: refs).Nodup ∧ refs.length ≤ ctx.depthBound
  stable : ∀ ctx' root', SiblingsReordered ctx ctx' → Reordered root root' →
    (Accepts ctx' root' ↔ Accepts ctx root)

end Statements

section Routes

variable {ctx : CoExpansionContext} {root chain : WorkflowChain} {n : Option JsString}
  {refs : List JsString}

theorem composeNet_refs (h : chainOf ctx root n = some chain) :
    (composeNet ctx root).refs n = subChainRefsInNodes chain := by
  simp only [composeNet, h, Option.map_some, Option.getD_some]

/-- The ways of composition are the routes of the net. -/
theorem route_iff (h : chainOf ctx root n = some chain) :
    (composeNet ctx root).Route n refs ↔ Composes ctx chain refs := by
  constructor
  · intro hr
    induction hr generalizing chain with
    | nil n => exact .nil chain
    | cons mem known _ ih =>
      rw [composeNet_refs h] at mem
      obtain ⟨sibling, hs⟩ := Option.isSome_iff_exists.mp known
      exact .cons mem hs (ih hs)
  · intro hc
    induction hc generalizing n with
    | nil chain => exact .nil n
    | cons mem found _ ih =>
      refine .cons ((composeNet_refs h).symm ▸ mem) ?_ (ih found)
      exact Option.isSome_iff_exists.mpr ⟨_, found⟩

theorem bounded_iff : (composeNet ctx root).Bounded ctx.depthBound ↔
    ∀ refs, Composes ctx root refs → (root.chainId :: refs).Nodup ∧ refs.length ≤ ctx.depthBound :=
  forall_congr' fun _ => imp_congr_left (route_iff (n := none) rfl)

end Routes

section Reordering

variable {ctx ctx' : CoExpansionContext} {root root' chain chain' : WorkflowChain}

theorem Reordered.refs_perm (h : Reordered chain chain') :
    (subChainRefsInNodes chain').Perm (subChainRefsInNodes chain) := by
  obtain ⟨nodes, hperm, rfl⟩ := h
  unfold subChainRefsInNodes
  rw [List.perm_ext_iff_of_nodup (nodup_uniq _) (nodup_uniq _)]
  intro ref
  rw [mem_uniq, mem_uniq]
  exact (hperm.filterMap _).mem_iff

theorem Reordered.resolvable (h : Reordered chain chain') (p : JsString → Bool) :
    chain'.resolvable p = chain.resolvable p := by
  obtain ⟨nodes, hperm, rfl⟩ := h
  rw [Bool.eq_iff_iff, WorkflowChain.resolvable, WorkflowChain.resolvable, List.all_eq_true,
    List.all_eq_true]
  exact forall_congr' fun m => imp_congr_left hperm.mem_iff

theorem Reordered.declared (h : Reordered chain chain') : chain'.declared = chain.declared := by
  obtain ⟨nodes, -, rfl⟩ := h
  rfl

theorem depthBound_reordered (h : SiblingsReordered ctx ctx') :
    ctx'.depthBound = ctx.depthBound := by
  obtain ⟨siblingChains, rfl, -⟩ := h
  rfl

/-- The chains of a reordered context. -/
theorem chainOf_reordered (hctx : SiblingsReordered ctx ctx') (hroot : Reordered root root')
    (n : Option JsString) :
    Option.Rel Reordered (chainOf ctx root n) (chainOf ctx' root' n) := by
  obtain ⟨siblingChains, rfl, hs⟩ := hctx
  cases n with
  | none => exact .some hroot
  | some ref => exact hs ref

theorem any_of_rel {o o' : Option WorkflowChain} {p p' : WorkflowChain → Bool}
    (h : Option.Rel Reordered o o') (hp : ∀ c c', Reordered c c' → p' c' = p c) :
    o'.any p' = o.any p := by
  cases h with
  | none => rfl
  | some hc => exact hp _ _ hc

theorem refs_of_rel {o o' : Option WorkflowChain} (h : Option.Rel Reordered o o') :
    ((o'.map subChainRefsInNodes).getD []).Perm ((o.map subChainRefsInNodes).getD []) := by
  cases h with
  | none => exact List.Perm.refl _
  | some hc => exact hc.refs_perm

theorem version_of_rel {o o' : Option WorkflowChain} (h : Option.Rel Reordered o o') :
    o'.map WorkflowChain.version = o.map WorkflowChain.version := by
  cases h with
  | none => rfl
  | some hc =>
    obtain ⟨nodes, -, rfl⟩ := hc
    rfl

/-- Reordering the nodes reorders the references of the net. -/
theorem composeNet_reordered (hctx : SiblingsReordered ctx ctx') (hroot : Reordered root root') :
    ∃ order h, composeNet ctx' root' = (composeNet ctx root).reorder order h := by
  have hrel := chainOf_reordered hctx hroot
  refine ⟨(composeNet ctx' root').refs, fun n => refs_of_rel (hrel n), ?_⟩
  obtain ⟨siblingChains, rfl, hs⟩ := hctx
  apply Net.ext
  · obtain ⟨nodes, -, rfl⟩ := hroot
    rfl
  · rfl
  · funext ref
    change (siblingChains.get? ref).isSome = (ctx.siblingChains.get? ref).isSome
    rw [← Option.any_true, ← Option.any_true]
    exact any_of_rel (hs ref) fun _ _ _ => rfl
  · funext n ref
    refine any_of_rel (hrel n) fun c c' h => ?_
    rw [h.declared]
  · funext n
    exact any_of_rel (hrel n) fun c c' h => h.resolvable _
  · funext ref
    change mintChildWorkflowId ctx.tenantId ref
        (((siblingChains.get? ref).map WorkflowChain.version).getD (js "0.0.0")) =
      ctx.childId ref
    rw [version_of_rel (hs ref)]
    rfl

end Reordering

section Listings

variable {ctx : CoExpansionContext} {root chain : WorkflowChain} {order : List JsString}

/-- Where a node stands in an order of references. -/
def positionIn (order : List JsString) (n : FragmentNode) : Nat :=
  (n.ref?.map fun ref => order.idxOf ref).getD 0

/-- The chain with its nodes sorted by an order of their references. -/
def listedIn (order : List JsString) (chain : WorkflowChain) : WorkflowChain :=
  { chain with nodes := chain.nodes.mergeSort fun m n => positionIn order m ≤ positionIn order n }

theorem reordered_listedIn (order : List JsString) (chain : WorkflowChain) :
    Reordered chain (listedIn order chain) :=
  ⟨_, List.mergeSort_perm _ _, rfl⟩

theorem uniq_sublist {α : Type} [DecidableEq α] (items : List α) :
    (uniq items).Sublist items := by
  induction items using List.reverseRecOn with
  | nil => exact List.Sublist.refl _
  | append_singleton items x ih =>
    rw [uniq, List.foldl_append]
    change (if x ∈ uniq items then uniq items else uniq items ++ [x]).Sublist (items ++ [x])
    split
    · exact ih.trans (List.sublist_append_left items [x])
    · exact ih.append (List.Sublist.refl _)

/-- Listed in an order, the references of a chain come in that order. -/
theorem subChainRefsInNodes_listedIn (h : order.Perm (subChainRefsInNodes chain)) :
    subChainRefsInNodes (listedIn order chain) = order := by
  have hnodup : order.Nodup := h.nodup_iff.mpr (nodup_uniq _)
  have hperm : (subChainRefsInNodes (listedIn order chain)).Perm order :=
    (reordered_listedIn order chain).refs_perm.trans h.symm
  have hsorted : (chain.nodes.mergeSort fun m n =>
      decide (positionIn order m ≤ positionIn order n)).Pairwise
      fun m n => decide (positionIn order m ≤ positionIn order n) = true := by
    apply List.pairwise_mergeSort
    · simp only [decide_eq_true_eq]
      exact fun _ _ _ => Nat.le_trans
    · simp only [Bool.or_eq_true, decide_eq_true_eq]
      exact fun _ _ => Nat.le_total _ _
  have hrefs : (subChainRefsInNodes (listedIn order chain)).Pairwise
      fun a b => order.idxOf a ≤ order.idxOf b := by
    apply List.Pairwise.sublist (uniq_sublist _)
    rw [List.pairwise_filterMap]
    refine hsorted.imp fun {m n} hmn a ha b hb => ?_
    simpa [positionIn, ha, hb] using hmn
  have horder : order.Pairwise fun a b => order.idxOf a ≤ order.idxOf b := by
    rw [List.pairwise_iff_getElem]
    intro i j hi hj hij
    rw [hnodup.idxOf_getElem, hnodup.idxOf_getElem]
    exact hij.le
  refine hperm.eq_of_pairwise ?_ hrefs horder
  intro a b ha _ hab hba
  exact (List.idxOf_inj (hperm.mem_iff.mp ha)).mp (Nat.le_antisymm hab hba)

/-- The context with every sibling chain listed in an order. -/
def contextListedIn (order : Option JsString → List JsString) (ctx : CoExpansionContext) :
    CoExpansionContext :=
  { ctx with siblingChains := {
      chains := ctx.siblingChains.chains.mapValues fun chain =>
        listedIn (order (some chain.chainId)) chain
      keyed ref chain h := by
        rw [Map.get?_mapValues, Option.map_eq_some_iff] at h
        obtain ⟨c, hc, rfl⟩ := h
        exact ctx.siblingChains.keyed ref c hc } }

theorem siblingsReordered_listedIn (order : Option JsString → List JsString)
    (ctx : CoExpansionContext) : SiblingsReordered ctx (contextListedIn order ctx) := by
  refine ⟨_, rfl, fun ref => ?_⟩
  rw [SiblingChains.get?, SiblingChains.get?, Map.get?_mapValues]
  cases ctx.siblingChains.chains.get? ref with
  | none => exact .none
  | some chain => exact .some (reordered_listedIn _ chain)

theorem composeNet_listedIn {order : Option JsString → List JsString}
    (h : ∀ n, (order n).Perm ((composeNet ctx root).refs n)) (n : Option JsString) :
    (composeNet (contextListedIn order ctx) (listedIn (order none) root)).refs n = order n := by
  cases n with
  | none => exact subChainRefsInNodes_listedIn (h none)
  | some ref =>
    have hn := h (some ref)
    change (((contextListedIn order ctx).siblingChains.get? ref).map subChainRefsInNodes).getD [] = _
    change (order (some ref)).Perm
      (((ctx.siblingChains.get? ref).map subChainRefsInNodes).getD []) at hn
    rw [contextListedIn, SiblingChains.get?, Map.get?_mapValues]
    cases hs : ctx.siblingChains.get? ref with
    | none =>
      rw [SiblingChains.get?] at hs
      rw [SiblingChains.get?, hs] at hn
      rw [hs]
      exact hn.eq_nil.symm
    | some chain =>
      have hkey := ctx.siblingChains.keyed ref chain hs
      rw [SiblingChains.get?] at hs
      rw [SiblingChains.get?, hs] at hn
      rw [hs, Option.map_some, Option.map_some, Option.getD_some, hkey]
      exact subChainRefsInNodes_listedIn hn

/-- Every order of the references is the order of some listing. -/
theorem exists_listing {order : Option JsString → List JsString}
    (h : ∀ n, (order n).Perm ((composeNet ctx root).refs n)) :
    ∃ ctx' root', SiblingsReordered ctx ctx' ∧ Reordered root root' ∧
      composeNet ctx' root' = (composeNet ctx root).reorder order h := by
  have hctx := siblingsReordered_listedIn order ctx
  have hroot := reordered_listedIn (order none) root
  refine ⟨_, _, hctx, hroot, ?_⟩
  obtain ⟨order', h', heq⟩ := composeNet_reordered hctx hroot
  have horder : order' = order := by
    funext n
    rw [← composeNet_listedIn h n, heq]
    rfl
  subst horder
  exact heq

end Listings

section Main

/-- A tree expansion is orderly exactly where every way of composition is bounded and ends at a
chain that resolves, or where the composition has no plan. -/
theorem expandChainTree_orderly_iff (ctx : CoExpansionContext) (root : WorkflowChain) :
    Orderly ctx root ↔
      ((composeNet ctx root).Bounded ctx.depthBound ∧ (composeNet ctx root).AllFine) ∨
        ¬ (composeNet ctx root).Plannable ctx.depthBound := by
  rw [← Net.orderly_iff, ← accepts_iff, bounded_iff]
  constructor
  · intro h
    refine ⟨h.bounded, fun order horder => ?_⟩
    obtain ⟨ctx', root', hctx, hroot, heq⟩ := exists_listing horder
    rw [← h.stable ctx' root' hctx hroot, accepts_iff, heq, depthBound_reordered hctx]
  · rintro ⟨hbounded, hstable⟩
    refine ⟨hbounded, fun ctx' root' hctx hroot => ?_⟩
    obtain ⟨order, horder, heq⟩ := composeNet_reordered hctx hroot
    rw [accepts_iff, heq, depthBound_reordered hctx]
    exact hstable order horder

end Main

section Diamond

/-- `p` composes `a` and `b`, `b` composes `a`, and `a` composes `c`; two levels are allowed. -/
def diamondContext : CoExpansionContext :=
  { packContext [refChain (js "a") [js "c"], refChain (js "b") [js "a"], refChain (js "c") []] with
    maxDepth := some 2 }

/-- The way over `b`, `a` and `c` is longer than the bound, and is not checked since `a` is
registered when `b` is expanded. -/
theorem not_orderly : ¬ ∀ ctx root, Orderly ctx root := by
  intro h
  have haccepts : Accepts diamondContext (refChain (js "p") [js "a", js "b"]) := ⟨_, rfl⟩
  have hway : Composes diamondContext (refChain (js "p") [js "a", js "b"])
      [js "b", js "a", js "c"] :=
    .cons (by decide) rfl (.cons (by decide) rfl (.cons (by decide) rfl (.nil _)))
  have hlength := ((h diamondContext _).bounded haccepts _ hway).2
  exact absurd hlength (by decide)

end Diamond

end OpenWop.Chain
