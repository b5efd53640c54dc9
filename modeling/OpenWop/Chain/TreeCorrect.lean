import OpenWop.Chain.TreeRun

/-!
# Correct tree expansions

In a correct expansion every reference of every fragment gave way to the id of a child
that is the expansion of the chain the reference names, and every chain that is reached
is registered once. An accepted expansion is correct exactly when the minted ids tell
the references apart, substitution leaves the references as they are, and external
references admit the version of the chain supplied for them.
-/

namespace OpenWop.Chain

open OpenWop.Js

section Statements

/-- The declared reference admits a chain of that version. `satisfies` is the range check of the
host that resolves external references. -/
def ChainRef.Admits (satisfies : JsString → JsString → Bool) (version : JsString) : ChainRef → Prop
  | .sibling _ => True
  | .external _ _ range => satisfies range version = true

/-- The reference, as the chain declares it, names the sibling. -/
def WorkflowChain.Names (satisfies : JsString → JsString → Bool) (chain : WorkflowChain)
    (ref : JsString) (sibling : WorkflowChain) : Prop :=
  sibling.chainId = ref ∧ ∃ declared ∈ chain.subChains.getD [],
    declared.refChainId = ref ∧ declared.Admits satisfies sibling.version

variable (ctx : CoExpansionContext) (satisfies : JsString → JsString → Bool) (root : WorkflowChain)

/-- The reference of a chain gave way to the id of the child that is the expansion of the chain it
names. -/
def Linked (children : List CoRegisteredChild) (chain : WorkflowChain) (v : Json)
    (n : ExpandedNode) : Prop :=
  ∃ ref sibling child, v = .str ref ∧ ctx.siblingChains.get? ref = some sibling ∧
    chain.Names satisfies ref sibling ∧ child ∈ children ∧ child.chainId = ref ∧
    treeFragment ctx root sibling = .ok child.fragment ∧
    (n.config.bind fun fields => Record.get? fields (js "workflowId")) =
      some (.str child.childWorkflowId)

/-- No reference is left in the fragment, and every reference of the chain is linked. -/
structure FragmentLinked (children : List CoRegisteredChild) (chain : WorkflowChain)
    (fragment : ExpandedFragment) : Prop where
  replaced : ∀ n ∈ fragment.nodes, subChainRef? n.config = none
  linked : ∀ p ∈ chain.nodes.zip fragment.nodes, ∀ v ∈ subChainRef? p.1.config,
    Linked ctx satisfies root children chain v p.2

/-- The parent and every child are linked, every chain that is referred to is registered once, and
the ids tell the children apart. -/
structure ChainTreeExpansion.Correct (tree : ChainTreeExpansion) : Prop where
  parent : FragmentLinked ctx satisfies root tree.children root tree.parent
  children : ∀ child ∈ tree.children, ∃ sibling,
    ctx.siblingChains.get? child.chainId = some sibling ∧
    treeFragment ctx root sibling = .ok child.fragment ∧
    FragmentLinked ctx satisfies root tree.children sibling child.fragment
  once : ∀ ref, Referenced ctx root ref → ∃! child, child ∈ tree.children ∧ child.chainId = ref
  ids : (tree.children.map CoRegisteredChild.childWorkflowId).Nodup

/-- The references of the chains that are reached tell the chains apart, read the same before and
after substitution, and admit what is supplied for them. -/
structure WellReferenced : Prop where
  distinct : ∀ ref ref', Referenced ctx root ref → Referenced ctx root ref' →
    ctx.childId ref = ctx.childId ref' → ref = ref'
  readable : ∀ chain, Composed ctx root chain → ∀ n ∈ chain.nodes, ∀ v ∈ subChainRef? n.config,
    ∃ ref text, v = .str ref ∧ substituteText ctx.params ref = .str text ∧
      ctx.childId text = ctx.childId ref
  named : ∀ chain, Composed ctx root chain → ∀ ref ∈ subChainRefsInNodes chain,
    ∀ sibling, ctx.siblingChains.get? ref = some sibling → chain.Names satisfies ref sibling

end Statements

section Nodes

variable {ctx : CoExpansionContext} {root : WorkflowChain}

theorem mem_subChainRefsInNodes {chain : WorkflowChain} {ref : JsString} :
    ref ∈ subChainRefsInNodes chain ↔ ∃ n ∈ chain.nodes, subChainRef? n.config = some (.str ref) := by
  rw [subChainRefsInNodes, mem_uniq, List.mem_filterMap]
  refine exists_congr fun n => and_congr_right fun _ => ?_
  rw [FragmentNode.ref?]
  split
  · next s hs => simp [hs]
  · next h =>
    refine iff_of_false (by simp) fun hs => ?_
    exact h ref hs

/-- A reference is left in a node exactly when it is there and not a string. -/
theorem subChainRef?_rewriteRef {n : ExpandedNode} :
    subChainRef? (rewriteRef ctx n).config = none ↔
      ∀ v ∈ subChainRef? n.config, ∃ text, v = .str text := by
  rw [rewriteRef]
  split
  · next fields ref hc hr =>
    simp only [hr, Option.mem_some_iff, forall_eq', Json.str.injEq, exists_eq', iff_true]
    rw [subChainRef?, Option.bind_some, Record.get?_set, if_neg (by decide), Record.get?_erase_self]
  · next h =>
    cases hr : subChainRef? n.config with
    | none => simp
    | some v =>
      refine iff_of_false (by simp) fun hv => ?_
      obtain ⟨text, rfl⟩ := hv v rfl
      cases hc : n.config with
      | none =>
        rw [hc] at hr
        cases hr
      | some fields => exact h fields text hc hr

theorem workflowId_rewriteRef {n : ExpandedNode} {text : JsString}
    (h : subChainRef? n.config = some (.str text)) :
    ((rewriteRef ctx n).config.bind fun fields => Record.get? fields (js "workflowId")) =
      some (.str (ctx.childId text)) := by
  cases hc : n.config with
  | none =>
    rw [hc] at h
    cases h
  | some fields =>
    rw [hc] at h
    simp only [rewriteRef, hc, h, Option.bind_some]
    exact Record.get?_set_self ..

/-- The reference of a substituted config. -/
theorem subChainRef?_substituteFields (params : Params) (config : Option Fields) :
    subChainRef? (config.map (substituteFields params)) =
      (subChainRef? config).map (substitute params) := by
  cases config with
  | none => rfl
  | some fields => exact Record.get?_mapValues ..

/-- A substituted value that is a string was one. -/
theorem substitute_eq_str {params : Params} {v : Json} {text : JsString}
    (h : substitute params v = .str text) :
    ∃ ref, v = .str ref ∧ substituteText params ref = .str text := by
  cases v with
  | str ref => exact ⟨ref, rfl, h⟩
  | null => cases h
  | bool b => cases h
  | num n => cases h
  | arr items => cases h
  | obj members => cases h

/-- The node of a tree fragment that comes from a node of its chain. -/
def treeNode (ctx : CoExpansionContext) (root chain : WorkflowChain) (n : FragmentNode) :
    ExpandedNode :=
  rewriteRef ctx (n.expand chain (computePrefix chain.chainId (expansionIdOf ctx root chain))
    (n.config.map (substituteFields ctx.params)) (n.inputs.map (substituteFields ctx.params)))

theorem treeFragment_nodes {chain : WorkflowChain} {fragment : ExpandedFragment}
    (h : treeFragment ctx root chain = .ok fragment) :
    fragment.nodes = chain.nodes.map (treeNode ctx root chain) := by
  rw [treeFragment, expandChain] at h
  cases hu : unresolvable? chain (expansionContextOf ctx root chain).isTypeIdResolvable with
  | some error =>
    rw [hu] at h
    cases h
  | none =>
    rw [hu] at h
    cases h
    exact List.map_map

/-- A reference that reads as a string after substitution gives way to the id minted for that
text. -/
theorem subChainRef?_treeNode {chain : WorkflowChain} {n : FragmentNode} :
    subChainRef? (treeNode ctx root chain n).config = none ↔
      ∀ v ∈ subChainRef? n.config, ∃ ref text, v = .str ref ∧
        substituteText ctx.params ref = .str text := by
  rw [treeNode, subChainRef?_rewriteRef]
  change (∀ v ∈ subChainRef? (n.config.map (substituteFields ctx.params)), _) ↔ _
  rw [subChainRef?_substituteFields]
  constructor
  · intro h v hv
    obtain ⟨text, ht⟩ := h _ (Option.mem_map_of_mem _ hv)
    obtain ⟨ref, rfl, hr⟩ := substitute_eq_str ht
    exact ⟨ref, text, rfl, hr⟩
  · intro h w hw
    obtain ⟨v, hv, rfl⟩ := Option.mem_map.mp hw
    obtain ⟨ref, text, rfl, hr⟩ := h v hv
    exact ⟨text, hr⟩

theorem workflowId_treeNode {chain : WorkflowChain} {n : FragmentNode} {ref text : JsString}
    (hr : subChainRef? n.config = some (.str ref))
    (ht : substituteText ctx.params ref = .str text) :
    ((treeNode ctx root chain n).config.bind fun fields => Record.get? fields (js "workflowId")) =
      some (.str (ctx.childId text)) := by
  apply workflowId_rewriteRef
  change subChainRef? (n.config.map (substituteFields ctx.params)) = _
  rw [subChainRef?_substituteFields, hr, ← ht]
  rfl

end Nodes

section Correctness

variable {ctx : CoExpansionContext} {satisfies : JsString → JsString → Bool} {root : WorkflowChain}
  {children : Map JsString CoRegisteredChild}

/-- A registered id names one child. -/
theorem nodup_ids (he : Entries ctx root children) :
    (children.values.map CoRegisteredChild.childWorkflowId).Nodup := by
  have hkeys : children.values.map CoRegisteredChild.childWorkflowId = children.keys := by
    rw [Map.values, Record.values, List.map_map, Map.keys, Record.keys]
    exact List.map_congr_left fun e hm => (he e.1 e.2 (Map.mem_entries_iff.mp hm)).id_eq
  rw [hkeys]
  exact children.nodup

/-- With distinct ids, a reference that is registered is registered for its own chain. -/
theorem child_of_registered (he : Entries ctx root children)
    (hd : ∀ ref ref', Referenced ctx root ref → Referenced ctx root ref' →
      ctx.childId ref = ctx.childId ref' → ref = ref') {ref : JsString}
    (href : Referenced ctx root ref) (hr : Registered ctx children ref) :
    ∃ child, children.get? (ctx.childId ref) = some child ∧ child.chainId = ref := by
  obtain ⟨child, hc⟩ := Option.isSome_iff_exists.mp hr.1
  have hentry := he _ _ hc
  exact ⟨child, hc, (hd _ _ href hentry.referenced hentry.minted).symm⟩

/-- With distinct ids, every reference of a chain that is reached is registered. -/
theorem registered_of_composed (he : Entries ctx root children)
    (hroot : ∀ ref ∈ subChainRefsInNodes root, Registered ctx children ref)
    (hd : ∀ ref ref', Referenced ctx root ref → Referenced ctx root ref' →
      ctx.childId ref = ctx.childId ref' → ref = ref') {chain : WorkflowChain}
    (hc : Composed ctx root chain) : ∀ ref ∈ subChainRefsInNodes chain, Registered ctx children ref := by
  induction hc with
  | root => exact hroot
  | @child chain sibling ref hc hr hs ih =>
    obtain ⟨child, hchild, rfl⟩ := child_of_registered he hd ⟨chain, hc, hr⟩ (ih ref hr)
    obtain ⟨sibling', hs', _, hrefs⟩ := (he _ _ hchild).expanded
    rw [hs] at hs'
    cases hs'
    exact hrefs

/-- A child registered for a reference is the only one. -/
theorem existsUnique_child (he : Entries ctx root children)
    (hd : ∀ ref ref', Referenced ctx root ref → Referenced ctx root ref' →
      ctx.childId ref = ctx.childId ref' → ref = ref') {ref : JsString}
    (href : Referenced ctx root ref) (hr : Registered ctx children ref) :
    ∃! child, child ∈ children.values ∧ child.chainId = ref := by
  obtain ⟨child, hc, hid⟩ := child_of_registered he hd href hr
  refine ⟨child, ⟨Map.mem_values_iff.mpr ⟨_, hc⟩, hid⟩, ?_⟩
  rintro other ⟨hm, ho⟩
  obtain ⟨id, hget⟩ := Map.mem_values_iff.mp hm
  rw [(he _ _ hget).minted, ho, hc] at hget
  exact (Option.some.inj hget).symm

/-- With well-formed references, the fragment of a chain that is reached is linked. -/
theorem fragmentLinked_of_composed (he : Entries ctx root children)
    (hroot : ∀ ref ∈ subChainRefsInNodes root, Registered ctx children ref)
    (hw : WellReferenced ctx satisfies root) {chain : WorkflowChain} (hc : Composed ctx root chain)
    {fragment : ExpandedFragment} (hf : treeFragment ctx root chain = .ok fragment) :
    FragmentLinked ctx satisfies root children.values chain fragment := by
  have hnodes := treeFragment_nodes hf
  constructor
  · rw [hnodes]
    refine List.forall_mem_map.mpr fun n hn => subChainRef?_treeNode.mpr fun v hv => ?_
    obtain ⟨ref, text, hv, ht, _⟩ := hw.readable chain hc n hn v hv
    exact ⟨ref, text, hv, ht⟩
  · rw [hnodes, ← List.map_prod_left_eq_zip]
    refine List.forall_mem_map.mpr fun n hn v hv => ?_
    obtain ⟨ref, text, rfl, ht, hid⟩ := hw.readable chain hc n hn v hv
    have hr : ref ∈ subChainRefsInNodes chain := mem_subChainRefsInNodes.mpr ⟨n, hn, hv⟩
    have hregistered := registered_of_composed he hroot hw.distinct hc ref hr
    obtain ⟨child, hchild, hchain⟩ := child_of_registered he hw.distinct ⟨chain, hc, hr⟩ hregistered
    have hentry := he _ _ hchild
    obtain ⟨sibling, hs, hfragment, _⟩ := hentry.expanded
    rw [hchain] at hs
    refine ⟨ref, sibling, child, rfl, hs, hw.named chain hc ref hr sibling hs,
      Map.mem_values_iff.mpr ⟨_, hchild⟩, hchain, hfragment, ?_⟩
    rw [workflowId_treeNode hv ht, hid, hentry.id_eq]

/-- In a correct expansion the fragment of every chain that is reached is linked. -/
theorem ChainTreeExpansion.Correct.fragmentLinked {tree : ChainTreeExpansion}
    (h : tree.Correct ctx satisfies root) (hparent : treeFragment ctx root root = .ok tree.parent)
    {chain : WorkflowChain} (hc : Composed ctx root chain) :
    ∃ fragment, treeFragment ctx root chain = .ok fragment ∧
      FragmentLinked ctx satisfies root tree.children chain fragment := by
  cases hc with
  | root => exact ⟨_, hparent, h.parent⟩
  | @child chain sibling ref hc hr hs =>
    obtain ⟨child, ⟨hm, rfl⟩, _⟩ := h.once ref ⟨chain, hc, hr⟩
    obtain ⟨sibling', hs', hfragment, hlinked⟩ := h.children child hm
    rw [hs] at hs'
    cases hs'
    exact ⟨_, hfragment, hlinked⟩

/-- A linked reference of a chain, with the text its substitution left. -/
theorem FragmentLinked.reference {list : List CoRegisteredChild} {chain : WorkflowChain}
    {fragment : ExpandedFragment} (h : FragmentLinked ctx satisfies root list chain fragment)
    (hf : treeFragment ctx root chain = .ok fragment) {n : FragmentNode} (hn : n ∈ chain.nodes)
    {v : Json} (hv : v ∈ subChainRef? n.config) :
    ∃ ref text sibling child, v = .str ref ∧ substituteText ctx.params ref = .str text ∧
      ctx.siblingChains.get? ref = some sibling ∧ chain.Names satisfies ref sibling ∧
      child ∈ list ∧ child.chainId = ref ∧ ctx.childId text = child.childWorkflowId := by
  have hnodes := treeFragment_nodes hf
  have hnone := h.replaced (treeNode ctx root chain n) (by rw [hnodes]; exact List.mem_map_of_mem hn)
  obtain ⟨ref, text, rfl, ht⟩ := subChainRef?_treeNode.mp hnone v hv
  have hzip : (n, treeNode ctx root chain n) ∈ chain.nodes.zip fragment.nodes := by
    rw [hnodes, ← List.map_prod_left_eq_zip]
    exact List.mem_map_of_mem hn
  obtain ⟨ref', sibling, child, hr, hs, hnames, hm, hchain, _, hid⟩ := h.linked _ hzip _ hv
  cases hr
  rw [workflowId_treeNode hv ht] at hid
  exact ⟨ref, text, sibling, child, rfl, ht, hs, hnames, hm, hchain, Json.str.inj (Option.some.inj hid)⟩

end Correctness

/-- An accepted expansion is correct exactly when its references are well-formed. -/
theorem tree_correct_iff (ctx : CoExpansionContext) (satisfies : JsString → JsString → Bool)
    (root : WorkflowChain) (tree : ChainTreeExpansion) (h : expandChainTree ctx root = .ok tree) :
    tree.Correct ctx satisfies root ↔ WellReferenced ctx satisfies root := by
  obtain ⟨children, hchildren, he, hparent, hroot⟩ := expandChainTree_run h
  have hminted : ∀ child ∈ tree.children, child.childWorkflowId = ctx.childId child.chainId := by
    intro child hm
    rw [hchildren] at hm
    obtain ⟨id, hget⟩ := Map.mem_values_iff.mp hm
    have hentry := he _ _ hget
    rw [hentry.id_eq, ← hentry.minted]
  constructor
  · intro hcorrect
    constructor
    · intro ref ref' href href' hid
      obtain ⟨child, ⟨hm, rfl⟩, _⟩ := hcorrect.once ref href
      obtain ⟨child', ⟨hm', rfl⟩, _⟩ := hcorrect.once ref' href'
      rw [← hminted child hm, ← hminted child' hm'] at hid
      rw [List.inj_on_of_nodup_map hcorrect.ids hm hm' hid]
    · intro chain hc n hn v hv
      obtain ⟨fragment, hf, hlinked⟩ := hcorrect.fragmentLinked hparent hc
      obtain ⟨ref, text, sibling, child, rfl, ht, _, _, hm, hchain, hid⟩ := hlinked.reference hf hn hv
      exact ⟨ref, text, rfl, ht, by rw [hid, hminted child hm, hchain]⟩
    · intro chain hc ref hr sibling hs
      obtain ⟨fragment, hf, hlinked⟩ := hcorrect.fragmentLinked hparent hc
      obtain ⟨n, hn, hv⟩ := mem_subChainRefsInNodes.mp hr
      obtain ⟨ref', _, sibling', _, href, _, hs', hnames, _⟩ := hlinked.reference hf hn hv
      cases href
      rw [hs] at hs'
      cases hs'
      exact hnames
  · intro hw
    constructor
    · rw [hchildren]
      exact fragmentLinked_of_composed he hroot hw .root hparent
    · intro child hm
      rw [hchildren] at hm ⊢
      obtain ⟨id, hget⟩ := Map.mem_values_iff.mp hm
      have hentry := he _ _ hget
      obtain ⟨sibling, hs, hfragment, _⟩ := hentry.expanded
      obtain ⟨chain, hc, hr⟩ := hentry.referenced
      exact ⟨sibling, hs, hfragment, fragmentLinked_of_composed he hroot hw (.child hc hr hs) hfragment⟩
    · rintro ref ⟨chain, hc, hr⟩
      rw [hchildren]
      exact existsUnique_child he hw.distinct ⟨chain, hc, hr⟩
        (registered_of_composed he hroot hw.distinct hc ref hr)
    · rw [hchildren]
      exact nodup_ids he

section Runs

/-- A node that refers to a chain. -/
def refNode (id ref : JsString) : FragmentNode where
  id
  typeId := js "core.subWorkflow"
  config := some [(js "subChainRef", .str ref)]

/-- A chain whose nodes refer to those chains, which it declares. -/
def refChain (chainId : JsString) (refs : List JsString) : WorkflowChain where
  chainId
  version := js "1.0.0"
  nodes := refs.map fun ref => refNode ref ref
  subChains := some (refs.map ChainRef.sibling)

/-- A context without parameters in which every type resolves. -/
def packContext (chains : List WorkflowChain) : CoExpansionContext where
  parentExpansionId := js "e"
  tenantId := js "t"
  params := []
  isTypeIdResolvable := fun _ => true
  siblingChains := .ofChains chains

/-- The chains registered by an accepted expansion. -/
def registeredChains (ctx : CoExpansionContext) (root : WorkflowChain) : Option (List JsString) :=
  (expandChainTree ctx root).toOption.map fun tree => tree.children.map CoRegisteredChild.chainId

/-- A chain that refers to one leaf is expanded correctly. -/
theorem leaf_tree_correct :
    ∃ tree, expandChainTree (packContext [refChain (js "a") []]) (refChain (js "p") [js "a"]) = .ok tree ∧
      tree.Correct (packContext [refChain (js "a") []]) (fun range version => range = version)
        (refChain (js "p") [js "a"]) := by
  have hreg : registeredChains (packContext [refChain (js "a") []]) (refChain (js "p") [js "a"]) =
    some [js "a"] := by decide
  rcases hrun : expandChainTree (packContext [refChain (js "a") []]) (refChain (js "p") [js "a"]) with
    error | tree
  · rw [registeredChains, hrun] at hreg
    cases hreg
  refine ⟨tree, rfl, (tree_correct_iff _ _ _ _ hrun).mpr ?_⟩
  have hsib : ∀ ref sibling, (packContext [refChain (js "a") []]).siblingChains.get? ref = some sibling →
      sibling = refChain (js "a") [] := by
    intro ref sibling h
    have hm := Map.mem_values_iff.mpr ⟨ref, h⟩
    exact List.mem_singleton.mp hm
  have hroot : subChainRefsInNodes (refChain (js "p") [js "a"]) = [js "a"] := by decide
  have hcomposed : ∀ chain, Composed (packContext [refChain (js "a") []]) (refChain (js "p") [js "a"])
      chain → chain = refChain (js "p") [js "a"] ∨ chain = refChain (js "a") [] := by
    intro chain hc
    cases hc with
    | root => exact Or.inl rfl
    | child _ _ hs => exact Or.inr (hsib _ _ hs)
  have href : ∀ ref chain, Composed (packContext [refChain (js "a") []]) (refChain (js "p") [js "a"])
      chain → ref ∈ subChainRefsInNodes chain → ref = js "a" ∧ chain = refChain (js "p") [js "a"] := by
    intro ref chain hc hr
    rcases hcomposed chain hc with rfl | rfl
    · rw [hroot] at hr
      exact ⟨List.mem_singleton.mp hr, rfl⟩
    · cases hr
  constructor
  · rintro ref ref' ⟨chain, hc, hr⟩ ⟨chain', hc', hr'⟩ _
    rw [(href _ _ hc hr).1, (href _ _ hc' hr').1]
  · intro chain hc n hn v hv
    rcases hcomposed chain hc with rfl | rfl
    · obtain rfl := List.mem_singleton.mp hn
      cases hv
      exact ⟨js "a", js "a", rfl, by decide, rfl⟩
    · cases hn
  · intro chain hc ref hr sibling hs
    obtain ⟨rfl, rfl⟩ := href _ _ hc hr
    rw [hsib _ _ hs]
    exact ⟨rfl, .sibling (js "a"), List.mem_singleton_self _, rfl, trivial⟩

/-- Two chains whose ids have one slug share one registered child. -/
theorem slugs_collapse :
    ¬ ∀ (ctx : CoExpansionContext) (satisfies : JsString → JsString → Bool) (root : WorkflowChain)
      (tree : ChainTreeExpansion), expandChainTree ctx root = .ok tree →
        tree.Correct ctx satisfies root := by
  intro h
  have hreg : registeredChains (packContext [refChain (js "a.b") [], refChain (js "a_b") []])
      (refChain (js "p") [js "a.b", js "a_b"]) = some [js "a.b"] := by decide
  rcases hrun : expandChainTree (packContext [refChain (js "a.b") [], refChain (js "a_b") []])
      (refChain (js "p") [js "a.b", js "a_b"]) with error | tree
  · rw [registeredChains, hrun] at hreg
    cases hreg
  rw [registeredChains, hrun] at hreg
  have hids : tree.children.map CoRegisteredChild.chainId = [js "a.b"] := Option.some.inj hreg
  have href : js "a_b" ∈ subChainRefsInNodes (refChain (js "p") [js "a.b", js "a_b"]) := by decide
  obtain ⟨child, ⟨hm, hc⟩, _⟩ := (h _ (fun _ _ => true) _ tree hrun).once (js "a_b") ⟨_, .root, href⟩
  have hmem : js "a_b" ∈ [js "a.b"] := by
    rw [← hids, ← hc]
    exact List.mem_map_of_mem hm
  revert hmem
  decide

end Runs

end OpenWop.Chain
