import OpenWop.Core.Plan
import OpenWop.Chain.TreeRun

/-!
# The composition net of a chain

The walk of `expandChainTree` is the depth-first walk over the references of the root
and of the sibling chains: the children map holds the finished ids, and acceptance is
the same.
-/

namespace OpenWop.Chain

open OpenWop.Js OpenWop.DepthFirst

section Nets

variable (ctx : CoExpansionContext) (root : WorkflowChain)

/-- The root, or the sibling a reference names. -/
def chainOf : Option JsString → Option WorkflowChain
  | none => some root
  | some ref => ctx.siblingChains.get? ref

/-- The node types of a chain resolve. -/
def WorkflowChain.resolvable (chain : WorkflowChain) (isTypeIdResolvable : JsString → Bool) : Bool :=
  chain.nodes.all fun n => isTypeIdResolvable n.typeId

/-- The references of the root and of the sibling chains. -/
def composeNet : Net JsString JsString where
  rootKey := root.chainId
  refs n := ((chainOf ctx root n).map subChainRefsInNodes).getD []
  nodup_refs n := by
    cases chainOf ctx root n with
    | none => exact List.nodup_nil
    | some chain => exact nodup_uniq _
  known ref := (ctx.siblingChains.get? ref).isSome
  declared n ref := (chainOf ctx root n).any fun chain => ref ∈ chain.declared
  sound n := (chainOf ctx root n).any fun chain => chain.resolvable ctx.isTypeIdResolvable
  id := ctx.childId

/-- The tree of the root is expanded. -/
def Accepts : Prop := ∃ tree, expandChainTree ctx root = .ok tree

end Nets

section Refinement

variable {ctx : CoExpansionContext} {root chain : WorkflowChain} {n : Option JsString}
  {done : List JsString} {s : TreeState} {α : Type}

/-- The registered ids are the finished ones. -/
def Finished (children : Map JsString CoRegisteredChild) (done : List JsString) : Prop :=
  ∀ id, (children.get? id).isSome = true ↔ id ∈ done

/-- A walk and a run agree: both refuse, or the finished ids are the registered ones and the stack
is as before. -/
def Agrees (stack : List JsString) :
    Option (List JsString) → Except ExpansionError (α × TreeState) → Prop
  | some done, .ok (_, s) => Finished s.children done ∧ s.onStack = stack
  | none, .error _ => True
  | _, _ => False

theorem run_bind_eq {β : Type} (x : Tree α) (f : α → Tree β) (s : TreeState) :
    (x >>= f).run s = (x.run s).bind fun p => (f p.1).run p.2 := rfl

theorem Agrees.bind {β : Type} {stack stack' : List JsString} {o : Option (List JsString)}
    {r : Except ExpansionError (α × TreeState)} {f : List JsString → Option (List JsString)}
    {k : α × TreeState → Except ExpansionError (β × TreeState)} (h : Agrees stack o r)
    (hk : ∀ done a s, Finished s.children done → s.onStack = stack →
      Agrees stack' (f done) (k (a, s))) : Agrees stack' (o.bind f) (r.bind k) := by
  match o, r, h with
  | some done, .ok (a, s), h => exact hk done a s h.1 h.2
  | none, .error e, _ => trivial

theorem Finished.cons {children : Map JsString CoRegisteredChild} (h : Finished children done)
    (id : JsString) (child : CoRegisteredChild) :
    Finished (children.set id child) (id :: done) := by
  intro other
  rw [Map.get?_set, List.mem_cons, ← h other]
  split
  · next ho => simp [ho]
  · next ho => simp [ho]

theorem key_of_chainOf (h : chainOf ctx root n = some chain) :
    (composeNet ctx root).key n = chain.chainId := by
  cases n with
  | none =>
    cases h
    rfl
  | some ref => exact (ctx.siblingChains.keyed ref chain h).symm

/-- A reference resolves when the net lets it be followed. -/
theorem resolveRef_of_usable (h : chainOf ctx root n = some chain) (ref : JsString) :
    (if (composeNet ctx root).usable n ref = true then ∃ sibling,
        ctx.siblingChains.get? ref = some sibling ∧ resolveRef ctx chain ref = .ok sibling
      else ∃ error, resolveRef ctx chain ref = .error error) := by
  have hu : (composeNet ctx root).usable n ref =
      (decide (ref ∈ chain.declared) && (ctx.siblingChains.get? ref).isSome) := by
    simp only [Net.usable, composeNet, h, Option.any_some]
  rw [hu, resolveRef]
  by_cases hd : ref ∈ chain.declared
  · cases hs : ctx.siblingChains.get? ref with
    | none => simp [hd]
    | some sibling => simp [hd]
  · simp [hd]

/-- A reference that resolves: its sibling is expanded and registered, unless its id is taken. -/
theorem registerRef_of_ok {expand : WorkflowChain → Tree ExpandedFragment} {ref : JsString}
    {sibling : WorkflowChain} (hsib : ctx.siblingChains.get? ref = some sibling)
    (hok : resolveRef ctx chain ref = .ok sibling) (s : TreeState) :
    (registerRef ctx expand chain ref).run s =
      if (s.children.get? (ctx.childId ref)).isSome = true then .ok ((), s)
      else ((expand sibling).run s).bind fun p => .ok ((), { p.2 with
        children := p.2.children.set (ctx.childId ref)
          { childWorkflowId := ctx.childId ref, chainId := ref, fragment := p.1 } }) := by
  have hid : mintChildWorkflowId ctx.tenantId ref sibling.version = ctx.childId ref := by
    rw [CoExpansionContext.childId, hsib]
    rfl
  rw [registerRef, run_bind_eq, hok]
  change StateT.run (do
    let state ← (get : Tree TreeState)
    if (state.children.get? (mintChildWorkflowId ctx.tenantId ref sibling.version)).isNone then _) s
      = _
  rw [hid, run_bind_eq]
  change StateT.run (if (s.children.get? (ctx.childId ref)).isNone = true then _ else _) s = _
  cases hget : s.children.get? (ctx.childId ref) with
  | some child => rfl
  | none => rfl

/-- The loop over references of a chain agrees with the loop of the net. -/
theorem registerRefs_agrees {expand : WorkflowChain → Tree ExpandedFragment}
    {visit : List JsString → JsString → Option (List JsString)} {stack : List JsString}
    (hchain : chainOf ctx root n = some chain)
    (hvisit : ∀ ref sibling done s, ctx.siblingChains.get? ref = some sibling →
      Finished s.children done → s.onStack = stack →
      Agrees stack (visit done ref) ((expand sibling).run s))
    (refs : List JsString) (hdone : Finished s.children done) (hstack : s.onStack = stack) :
    Agrees stack ((composeNet ctx root).walkRefs visit n refs done)
      ((registerRefs ctx expand chain refs).run s) := by
  induction refs generalizing done s with
  | nil => exact ⟨hdone, hstack⟩
  | cons ref refs ih =>
    have hres := resolveRef_of_usable hchain ref
    rw [Net.walkRefs, registerRefs, run_bind_eq]
    by_cases hu : (composeNet ctx root).usable n ref = true
    · rw [if_pos hu] at hres ⊢
      obtain ⟨sibling, hsib, hok⟩ := hres
      rw [registerRef_of_ok hsib hok]
      by_cases hid : ctx.childId ref ∈ done
      · rw [if_pos ((hdone _).mpr hid), if_pos (show (composeNet ctx root).id ref ∈ done from hid)]
        exact ih hdone hstack
      · rw [if_neg (mt (hdone _).mp hid), if_neg (show (composeNet ctx root).id ref ∉ done from hid)]
        have hassoc : ∀ {r : Except ExpansionError (ExpandedFragment × TreeState)}
            {f : _ → Except ExpansionError (Unit × TreeState)}
            {k : _ → Except ExpansionError (Unit × TreeState)},
            (r.bind f).bind k = r.bind fun p => (f p).bind k := by
          intro r f k
          cases r <;> rfl
        rw [hassoc]
        refine (hvisit ref sibling done s hsib hdone hstack).bind ?_
        intro done' fragment s' hdone' hs'
        exact ih (hdone'.cons _ _) hs'
    · rw [if_neg hu] at hres ⊢
      obtain ⟨error, herror⟩ := hres
      rw [registerRef, run_bind_eq, herror]
      trivial

theorem unresolvable?_eq_none_iff {isTypeIdResolvable : JsString → Bool} :
    unresolvable? chain isTypeIdResolvable = none ↔
      chain.resolvable isTypeIdResolvable = true := by
  simp [unresolvable?, WorkflowChain.resolvable]

/-- The fragment of a chain is built when its node types resolve. -/
theorem treeFragment_of_resolvable (root : WorkflowChain)
    (h : chain.resolvable ctx.isTypeIdResolvable = true) :
    ∃ fragment, treeFragment ctx root chain = .ok fragment := by
  rw [← unresolvable?_eq_none_iff] at h
  rw [treeFragment, expandChain]
  change unresolvable? chain (expansionContextOf ctx root chain).isTypeIdResolvable = none at h
  rw [h]
  exact ⟨_, rfl⟩

theorem treeFragment_of_not_resolvable (root : WorkflowChain)
    (h : ¬ chain.resolvable ctx.isTypeIdResolvable = true) :
    ∃ error, treeFragment ctx root chain = .error error := by
  rw [← unresolvable?_eq_none_iff] at h
  obtain ⟨error, herror⟩ := Option.ne_none_iff_exists'.mp h
  rw [treeFragment, expandChain]
  change unresolvable? chain (expansionContextOf ctx root chain).isTypeIdResolvable = some error
    at herror
  rw [herror]
  exact ⟨_, rfl⟩

/-- The walk of the code agrees with the walk of the net. -/
theorem expandOne_agrees (levels : Nat) (hchain : chainOf ctx root n = some chain)
    (hdone : Finished s.children done) :
    Agrees s.onStack ((composeNet ctx root).walk levels s.onStack done n)
      ((expandOne ctx root levels chain).run s) := by
  induction levels generalizing n chain done s with
  | zero => trivial
  | succ levels ih =>
    rw [Net.walk, key_of_chainOf hchain, expandOne, run_bind_eq]
    change Agrees s.onStack _ (StateT.run (do
      if chain.chainId ∈ s.onStack then _
      _) s)
    by_cases hcycle : chain.chainId ∈ s.onStack
    · rw [if_pos hcycle, if_pos hcycle]
      trivial
    · rw [if_neg hcycle, if_neg hcycle]
      change Agrees s.onStack _ (StateT.run (do
        registerRefs ctx (expandOne ctx root levels) chain (subChainRefsInNodes chain)
        let fragment ← (liftM (treeFragment ctx root chain) : Tree ExpandedFragment)
        modify fun s => { s with onStack := s.onStack.filter (· ≠ chain.chainId) }
        return fragment) { s with onStack := chain.chainId :: s.onStack })
      have hrefs : (composeNet ctx root).refs n = subChainRefsInNodes chain := by
        simp only [composeNet, hchain, Option.map_some, Option.getD_some]
      have hsound : (composeNet ctx root).sound n = chain.resolvable ctx.isTypeIdResolvable := by
        simp only [composeNet, hchain, Option.any_some]
      have hloop : Agrees (chain.chainId :: s.onStack)
          ((composeNet ctx root).walkRefs (fun done r =>
            (composeNet ctx root).walk levels (chain.chainId :: s.onStack) done (some r)) n
            (subChainRefsInNodes chain) done)
          ((registerRefs ctx (expandOne ctx root levels) chain (subChainRefsInNodes chain)).run
            { s with onStack := chain.chainId :: s.onStack }) :=
        registerRefs_agrees hchain
          (fun ref sibling done s' hsib hdone' hs' => hs' ▸ ih hsib hdone') _ hdone rfl
      rw [hrefs, run_bind_eq, hsound]
      revert hloop
      generalize (composeNet ctx root).walkRefs _ _ _ _ = o
      generalize StateT.run (registerRefs _ _ _ _) _ = r
      intro hloop
      rcases o with _ | done' <;> rcases r with e | ⟨parent, s'⟩
      · trivial
      · exact hloop.elim
      · exact hloop.elim
      · obtain ⟨hdone', hstack'⟩ := hloop
        change Agrees s.onStack _ (StateT.run (do
          let fragment ← (liftM (treeFragment ctx root chain) : Tree ExpandedFragment)
          modify fun s => { s with onStack := s.onStack.filter (· ≠ chain.chainId) }
          return fragment) s')
        cases hres : chain.resolvable ctx.isTypeIdResolvable with
        | true =>
          obtain ⟨fragment, hfragment⟩ := treeFragment_of_resolvable root hres
          rw [hfragment]
          refine ⟨hdone', ?_⟩
          change s'.onStack.filter (· ≠ chain.chainId) = s.onStack
          rw [hstack', List.filter_cons_of_neg (by simp), List.filter_eq_self]
          exact fun k hk => decide_eq_true fun hkey => hcycle (hkey ▸ hk)
        | false =>
          obtain ⟨error, herror⟩ :=
            treeFragment_of_not_resolvable root (Bool.eq_false_iff.mp hres)
          rw [herror]
          trivial

/-- The tree is expanded when the walk of its net is accepted. -/
theorem accepts_iff : Accepts ctx root ↔ (composeNet ctx root).Accepts ctx.depthBound := by
  have hempty : Finished Map.empty [] := fun id => by simp
  have hagrees : Agrees [] ((composeNet ctx root).walk (ctx.depthBound + 1) [] [] none)
      ((expandOne ctx root (ctx.depthBound + 1) root).run
        { children := Map.empty, onStack := [] }) :=
    expandOne_agrees (n := none) (s := ⟨Map.empty, []⟩) (ctx.depthBound + 1) rfl hempty
  rw [Accepts, Net.Accepts, expandChainTree]
  revert hagrees
  generalize (composeNet ctx root).walk _ _ _ _ = o
  generalize StateT.run (expandOne _ _ _ _) _ = r
  intro hagrees
  rcases o with _ | done <;> rcases r with e | ⟨parent, s⟩
  · refine iff_of_false ?_ Bool.false_ne_true
    rintro ⟨_, h⟩
    cases h
  · exact hagrees.elim
  · exact hagrees.elim
  · exact iff_of_true ⟨_, rfl⟩ rfl

end Refinement

end OpenWop.Chain
