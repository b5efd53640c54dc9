import OpenWop.Chain.Tree

/-!
# Runs of the tree expansion

The walk keeps one invariant: every registered child carries the fragment of the sibling
it was registered for, under that sibling's minted id, and the ids of the siblings it
refers to are taken. An accepted walk leaves the references of its chain registered too.
-/

namespace OpenWop.Chain

open OpenWop.Js

section Composition

variable (ctx : CoExpansionContext) (root : WorkflowChain)

/-- The chains that are reached from the root by references that resolve. -/
inductive Composed : WorkflowChain → Prop
  | root : Composed root
  | child {chain sibling : WorkflowChain} {ref : JsString} : Composed chain →
      ref ∈ subChainRefsInNodes chain → ctx.siblingChains.get? ref = some sibling → Composed sibling

/-- A chain that is reached refers to it. -/
def Referenced (ref : JsString) : Prop :=
  ∃ chain, Composed ctx root chain ∧ ref ∈ subChainRefsInNodes chain

/-- The id minted for the reference is taken, and the reference resolves. -/
def Registered (children : Map JsString CoRegisteredChild) (ref : JsString) : Prop :=
  (children.get? (ctx.childId ref)).isSome = true ∧ (ctx.siblingChains.get? ref).isSome = true

/-- The child carries the fragment of its chain, whose references are registered. -/
structure Entry (children : Map JsString CoRegisteredChild) (id : JsString)
    (child : CoRegisteredChild) : Prop where
  id_eq : child.childWorkflowId = id
  minted : id = ctx.childId child.chainId
  referenced : Referenced ctx root child.chainId
  expanded : ∃ sibling, ctx.siblingChains.get? child.chainId = some sibling ∧
    treeFragment ctx root sibling = .ok child.fragment ∧
    ∀ ref ∈ subChainRefsInNodes sibling, Registered ctx children ref

/-- Every entry of the map is in order. -/
def Entries (children : Map JsString CoRegisteredChild) : Prop :=
  ∀ id child, children.get? id = some child → Entry ctx root children id child

end Composition

section Growth

variable {ctx : CoExpansionContext} {root : WorkflowChain}
  {children children' children'' : Map JsString CoRegisteredChild}

/-- Every id taken in one map is taken in the other. An entry may be replaced: two references with
one id may be expanded within each other. -/
def Grows (children children' : Map JsString CoRegisteredChild) : Prop :=
  ∀ id, (children.get? id).isSome = true → (children'.get? id).isSome = true

theorem Grows.trans (h : Grows children children') (h' : Grows children' children'') :
    Grows children children'' := fun id hc => h' id (h id hc)

theorem Grows.set (children : Map JsString CoRegisteredChild) (id : JsString)
    (child : CoRegisteredChild) : Grows children (children.set id child) := by
  intro other hc
  rw [Map.get?_set]
  split
  · rfl
  · exact hc

theorem Registered.grows (h : Grows children children') {ref : JsString}
    (hr : Registered ctx children ref) : Registered ctx children' ref :=
  ⟨h _ hr.1, hr.2⟩

theorem Entry.grows (h : Grows children children') {id : JsString} {child : CoRegisteredChild}
    (he : Entry ctx root children id child) : Entry ctx root children' id child := by
  obtain ⟨sibling, hs, hf, hrefs⟩ := he.expanded
  exact ⟨he.id_eq, he.minted, he.referenced, sibling, hs, hf, fun ref hr => (hrefs ref hr).grows h⟩

/-- A child in order is added to entries in order. -/
theorem Entries.set (he : Entries ctx root children) {id : JsString} {child : CoRegisteredChild}
    (hc : Entry ctx root children id child) : Entries ctx root (children.set id child) := by
  have hg := Grows.set children id child
  intro other c hget
  rw [Map.get?_set] at hget
  split at hget
  · next ho =>
    cases hget
    rw [ho]
    exact hc.grows hg
  · exact (he other c hget).grows hg

end Growth

section Runs

variable {ctx : CoExpansionContext} {root : WorkflowChain} {α β : Type}

theorem run_bind_ok {x : Tree α} {f : α → Tree β} {s s' : TreeState} {b : β}
    (h : (x >>= f).run s = .ok (b, s')) :
    ∃ a s₁, x.run s = .ok (a, s₁) ∧ (f a).run s₁ = .ok (b, s') := by
  rw [StateT.run_bind] at h
  cases hx : x.run s with
  | error e =>
    rw [hx] at h
    cases h
  | ok r =>
    rw [hx] at h
    exact ⟨r.1, r.2, rfl, h⟩

theorem run_lift_ok {x : Except ExpansionError α} {s s' : TreeState} {a : α}
    (h : (liftM x : Tree α).run s = .ok (a, s')) : x = .ok a ∧ s' = s := by
  cases x with
  | error e => cases h
  | ok b =>
    cases h
    exact ⟨rfl, rfl⟩

theorem resolveRef_ok {chain sibling : WorkflowChain} {ref : JsString}
    (h : resolveRef ctx chain ref = .ok sibling) : ctx.siblingChains.get? ref = some sibling := by
  rw [resolveRef] at h
  split at h
  · cases hs : ctx.siblingChains.get? ref with
    | none =>
      rw [hs] at h
      cases h
    | some c =>
      rw [hs] at h
      cases h
      rfl
  · cases h

/-- What an accepted step leaves behind for the references of a chain. -/
structure Step (ctx : CoExpansionContext) (root : WorkflowChain) (refs : List JsString)
    (s s' : TreeState) : Prop where
  entries : Entries ctx root s.children → Entries ctx root s'.children
  grows : Grows s.children s'.children
  registered : ∀ ref ∈ refs, Registered ctx s'.children ref

/-- The expansion of every chain that is reached registers its references and yields its
fragment. -/
def Expands (ctx : CoExpansionContext) (root : WorkflowChain)
    (expand : WorkflowChain → Tree ExpandedFragment) : Prop :=
  ∀ chain s fragment s', Composed ctx root chain → (expand chain).run s = .ok (fragment, s') →
    Step ctx root (subChainRefsInNodes chain) s s' ∧ treeFragment ctx root chain = .ok fragment

variable {expand : WorkflowChain → Tree ExpandedFragment} {chain : WorkflowChain}

theorem registerRef_run (he : Expands ctx root expand) (hc : Composed ctx root chain)
    {ref : JsString} (hr : ref ∈ subChainRefsInNodes chain) {s s' : TreeState} {u : Unit}
    (h : (registerRef ctx expand chain ref).run s = .ok (u, s')) :
    Step ctx root [ref] s s' := by
  rw [registerRef] at h
  obtain ⟨sibling, s₁, hlift, hbody⟩ := run_bind_ok h
  obtain ⟨hres, rfl⟩ := run_lift_ok hlift
  have hsib := resolveRef_ok hres
  have hid : mintChildWorkflowId ctx.tenantId ref sibling.version = ctx.childId ref := by
    rw [CoExpansionContext.childId, hsib]
    rfl
  dsimp only at hbody
  rw [hid] at hbody
  obtain ⟨state, s₂, hget, htest⟩ := run_bind_ok hbody
  cases hget
  have hsome : (ctx.siblingChains.get? ref).isSome = true := by simp [hsib]
  cases hnew : s₁.children.get? (ctx.childId ref) with
  | some child =>
    -- The id is taken: nothing is written.
    simp only [hnew, Option.isNone_some, Bool.false_eq_true, if_false] at htest
    cases htest
    refine ⟨id, fun _ hc => hc, fun r hr => ?_⟩
    rw [List.mem_singleton.mp hr]
    exact ⟨by simp [hnew], hsome⟩
  | none =>
    simp only [hnew, Option.isNone_none, if_true] at htest
    obtain ⟨fragment, s₂, hexpand, hset⟩ := run_bind_ok htest
    cases hset
    obtain ⟨hstep, hfragment⟩ := he sibling _ _ _ (.child hc hr hsib) hexpand
    refine ⟨fun hentries => (hstep.entries hentries).set ?_, hstep.grows.trans (Grows.set _ _ _),
      fun r hr => ?_⟩
    · exact ⟨rfl, rfl, ⟨chain, hc, hr⟩, sibling, hsib, hfragment, hstep.registered⟩
    · rw [List.mem_singleton.mp hr]
      exact ⟨by simp, hsome⟩

/-- The loop over references of a chain. -/
theorem registerRefs_run (he : Expands ctx root expand) (hc : Composed ctx root chain)
    {refs : List JsString} (hr : refs ⊆ subChainRefsInNodes chain) {s s' : TreeState} {u : Unit}
    (h : (registerRefs ctx expand chain refs).run s = .ok (u, s')) :
    Step ctx root refs s s' := by
  induction refs generalizing s with
  | nil =>
    cases h
    exact ⟨id, fun _ hc => hc, fun _ h => nomatch h⟩
  | cons ref refs ih =>
    obtain ⟨_, s₁, hfirst, hrest⟩ := run_bind_ok h
    have hstep := registerRef_run he hc (hr List.mem_cons_self) hfirst
    have hsteps := ih (fun r h => hr (List.mem_cons_of_mem _ h)) hrest
    refine ⟨hsteps.entries ∘ hstep.entries, hstep.grows.trans hsteps.grows, ?_⟩
    refine List.forall_mem_cons.mpr ⟨?_, hsteps.registered⟩
    exact (hstep.registered ref (List.mem_singleton_self _)).grows hsteps.grows

/-- The walk, at any depth. -/
theorem expandOne_run (levels : Nat) : Expands ctx root (expandOne ctx root levels) := by
  induction levels with
  | zero =>
    intro chain s fragment s' _ h
    cases h
  | succ levels ih =>
    intro chain s fragment s' hc h
    rw [expandOne] at h
    obtain ⟨state, s₁, hget, hbody⟩ := run_bind_ok h
    cases hget
    by_cases hcycle : chain.chainId ∈ s.onStack
    · rw [if_pos hcycle] at hbody
      cases hbody
    rw [if_neg hcycle] at hbody
    obtain ⟨_, s₁, hpush, hloop⟩ := run_bind_ok hbody
    cases hpush
    obtain ⟨_, s₂, hrefs, hfragment⟩ := run_bind_ok hloop
    obtain ⟨_, s₃, hlift, hpop⟩ := run_bind_ok hfragment
    obtain ⟨htree, rfl⟩ := run_lift_ok hlift
    cases hpop
    have hstep := registerRefs_run ih hc (List.Subset.refl _) hrefs
    exact ⟨⟨hstep.entries, hstep.grows, hstep.registered⟩, htree⟩

/-- An accepted expansion of a tree: the parent's fragment, the entries and the parent's
references. -/
theorem expandChainTree_run {tree : ChainTreeExpansion} (h : expandChainTree ctx root = .ok tree) :
    ∃ children : Map JsString CoRegisteredChild, tree.children = children.values ∧
      Entries ctx root children ∧ treeFragment ctx root root = .ok tree.parent ∧
      ∀ ref ∈ subChainRefsInNodes root, Registered ctx children ref := by
  rw [expandChainTree] at h
  cases hrun : (expandOne ctx root (ctx.depthBound + 1) root).run
      { children := Map.empty, onStack := [] } with
  | error e =>
    rw [hrun] at h
    cases h
  | ok r =>
    rw [hrun] at h
    cases h
    obtain ⟨hstep, hfragment⟩ := expandOne_run _ _ _ _ _ .root hrun
    refine ⟨r.2.children, rfl, hstep.entries fun id child hc => ?_, hfragment, hstep.registered⟩
    rw [Map.get?_empty] at hc
    cases hc

end Runs

end OpenWop.Chain
