import Mathlib.Data.List.Nodup
import Mathlib.Data.List.Perm.Basic
import Mathlib.Data.List.Infix

/-!
# Depth-first walks in a listed order

A walk expands a root and, depth first, the nodes its references name. A reference
whose id is finished is skipped, a key on the current branch or a branch that is too
long stops the walk. The walk is accepted in every order of the references exactly when
every route is bounded and ends at a fine node.
-/

namespace OpenWop.DepthFirst

variable {K I : Type}

section Nets

/-- Nodes with their references. `none` is the root, `some k` the node a reference `k` names. -/
@[ext] structure Net (K I : Type) where
  rootKey : K
  refs : Option K → List K
  nodup_refs : ∀ n, (refs n).Nodup
  known : K → Bool
  declared : Option K → K → Bool
  sound : Option K → Bool
  id : K → I

/-- The key of a node. -/
def Net.key (g : Net K I) (n : Option K) : K := n.getD g.rootKey

/-- The reference may be followed. -/
def Net.usable (g : Net K I) (n : Option K) (r : K) : Bool := g.declared n r && g.known r

/-- The references of a node may be followed, and the node is sound. -/
structure Net.Fine (g : Net K I) (n : Option K) : Prop where
  usable : ∀ r ∈ g.refs n, g.usable n r = true
  sound : g.sound n = true

/-- The net with its references listed in another order. -/
def Net.reorder (g : Net K I) (order : Option K → List K) (h : ∀ n, (order n).Perm (g.refs n)) :
    Net K I :=
  { g with refs := order, nodup_refs := fun n => (h n).nodup_iff.mpr (g.nodup_refs n) }

theorem Net.fine_reorder {g : Net K I} {order : Option K → List K}
    {h : ∀ n, (order n).Perm (g.refs n)} {n : Option K} :
    (g.reorder order h).Fine n ↔ g.Fine n := by
  constructor
  · exact fun hf => ⟨fun r hr => hf.usable r ((h n).mem_iff.mpr hr), hf.sound⟩
  · exact fun hf => ⟨fun r hr => hf.usable r ((h n).mem_iff.mp hr), hf.sound⟩

end Nets

section Walks

variable [DecidableEq I]

/-- The loop over the references of a node. -/
def Net.walkRefs (g : Net K I) (visit : List I → K → Option (List I)) (n : Option K) :
    List K → List I → Option (List I)
  | [], done => some done
  | r :: rs, done =>
    if g.usable n r then
      if g.id r ∈ done then g.walkRefs visit n rs done
      else (visit done r).bind fun done' => g.walkRefs visit n rs (g.id r :: done')
    else none

variable {g : Net K I} {visit : List I → K → Option (List I)} {n : Option K} {rs : List K}
  {done done' : List I} {levels : Nat} {above : List K}

theorem Net.walkRefs_eq_of_done (hu : ∀ r ∈ rs, g.usable n r = true)
    (hd : ∀ r ∈ rs, g.id r ∈ done) : g.walkRefs visit n rs done = some done := by
  induction rs with
  | nil => rfl
  | cons r rs ih =>
    rw [List.forall_mem_cons] at hu hd
    rw [Net.walkRefs, if_pos hu.1, if_pos hd.1, ih hu.2 hd.2]

theorem Net.usable_of_walkRefs (h : g.walkRefs visit n rs done = some done') :
    ∀ r ∈ rs, g.usable n r = true := by
  induction rs generalizing done with
  | nil => exact fun _ hr => nomatch hr
  | cons r rs ih =>
    rw [Net.walkRefs] at h
    split at h
    · next hu =>
      refine List.forall_mem_cons.mpr ⟨hu, ?_⟩
      split at h
      · exact ih h
      · obtain ⟨d, -, hrest⟩ := Option.bind_eq_some_iff.mp h
        exact ih hrest
    · cases h

theorem Net.walkRefs_isSome (hu : ∀ r ∈ rs, g.usable n r = true)
    (hv : ∀ r ∈ rs, ∀ done, (visit done r).isSome = true) (done : List I) :
    (g.walkRefs visit n rs done).isSome = true := by
  induction rs generalizing done with
  | nil => rfl
  | cons r rs ih =>
    rw [List.forall_mem_cons] at hu hv
    rw [Net.walkRefs, if_pos hu.1]
    split
    · exact ih hu.2 hv.2 done
    · obtain ⟨d, hd⟩ := Option.isSome_iff_exists.mp (hv.1 done)
      rw [hd, Option.bind_some]
      exact ih hu.2 hv.2 _

variable [DecidableEq K]

/-- The walk from a node: the ids that are finished after it. -/
def Net.walk (g : Net K I) : Nat → List K → List I → Option K → Option (List I)
  | 0, _, _, _ => none
  | levels + 1, above, done, n =>
    if g.key n ∈ above then none
    else (g.walkRefs (fun done r => g.walk levels (g.key n :: above) done (some r)) n
      (g.refs n) done).filter fun _ => g.sound n

/-- The walk from the root is accepted. -/
def Net.Accepts (g : Net K I) (maxDepth : Nat) : Prop :=
  (g.walk (maxDepth + 1) [] [] none).isSome = true

/-- What an accepted step went through. -/
theorem Net.walk_eq_some (h : g.walk (levels + 1) above done n = some done') :
    g.key n ∉ above ∧ g.Fine n ∧
      g.walkRefs (fun done r => g.walk levels (g.key n :: above) done (some r)) n (g.refs n) done =
        some done' := by
  rw [Net.walk] at h
  split at h
  · cases h
  · next hkey =>
    rw [Option.filter_eq_some_iff] at h
    exact ⟨hkey, ⟨Net.usable_of_walkRefs h.1, h.2⟩, h.1⟩

end Walks

section Routes

/-- The references followed from a node on. -/
inductive Net.Route (g : Net K I) : Option K → List K → Prop
  | nil (n : Option K) : g.Route n []
  | cons {n : Option K} {r : K} {rs : List K} (mem : r ∈ g.refs n) (known : g.known r = true)
      (rest : g.Route (some r) rs) : g.Route n (r :: rs)

/-- No route revisits a key, and none is longer than the bound. -/
def Net.Bounded (g : Net K I) (maxDepth : Nat) : Prop :=
  ∀ rs, g.Route none rs → (g.rootKey :: rs).Nodup ∧ rs.length ≤ maxDepth

/-- Every node at the end of a route is fine. -/
def Net.AllFine (g : Net K I) : Prop := ∀ rs, g.Route none rs → g.Fine rs.getLast?

variable {g : Net K I} {n : Option K} {rs : List K} {levels : Nat} {above : List K}

theorem Net.Route.of_append {ss : List K} (h : g.Route n (rs ++ ss)) : g.Route n rs := by
  induction rs generalizing n with
  | nil => exact .nil n
  | cons r rs ih =>
    cases h with
    | cons mem known rest => exact .cons mem known (ih rest)

theorem Net.route_reorder {order : Option K → List K} {h : ∀ n, (order n).Perm (g.refs n)} :
    (g.reorder order h).Route n rs ↔ g.Route n rs := by
  constructor
  · intro hr
    induction hr with
    | nil n => exact .nil n
    | cons mem known _ ih => exact .cons ((h _).mem_iff.mp mem) known ih
  · intro hr
    induction hr with
    | nil n => exact .nil n
    | cons mem known _ ih => exact .cons ((h _).mem_iff.mpr mem) known ih

theorem getLast?_cons_or (r : K) (rs : List K) (n : Option K) :
    (r :: rs).getLast?.or n = rs.getLast?.or (some r) := by
  cases rs with
  | nil => rfl
  | cons s rs =>
    rw [List.getLast?_cons_cons, List.getLast?_eq_some_getLast (List.cons_ne_nil s rs)]
    rfl

/-- What a route from a node has to satisfy for a walk with so many levels below so many keys. -/
structure Net.Safe (g : Net K I) (levels : Nat) (above : List K) (n : Option K) (rs : List K) :
    Prop where
  nodup : (g.key n :: rs).Nodup
  apart : ∀ k ∈ g.key n :: rs, k ∉ above
  short : rs.length < levels
  fine : g.Fine (rs.getLast?.or n)

variable [DecidableEq K] [DecidableEq I]

/-- Where every route is safe the walk is accepted, whatever is finished. -/
theorem Net.walk_isSome (h : ∀ rs, g.Route n rs → g.Safe levels above n rs) (done : List I) :
    (g.walk levels above done n).isSome = true := by
  induction levels generalizing n above done with
  | zero => exact absurd (h [] (.nil n)).short (Nat.not_lt_zero _)
  | succ levels ih =>
    have hself := h [] (.nil n)
    have hfine : g.Fine n := hself.fine
    have hloop : ∀ done, (g.walkRefs
        (fun done r => g.walk levels (g.key n :: above) done (some r)) n (g.refs n)
        done).isSome = true := by
      apply Net.walkRefs_isSome hfine.usable
      intro r hr done
      apply ih
      intro rs hroute
      have hknown : g.known r = true := (Bool.and_eq_true_iff.mp (hfine.usable r hr)).2
      have hsafe := h (r :: rs) (.cons hr hknown hroute)
      have hnodup := List.nodup_cons.mp hsafe.nodup
      refine ⟨hnodup.2, ?_, Nat.lt_of_succ_lt_succ hsafe.short, ?_⟩
      · intro k hk hmem
        obtain rfl | hmem := List.mem_cons.mp hmem
        · exact hnodup.1 hk
        · exact hsafe.apart k (List.mem_cons_of_mem _ hk) hmem
      · rw [← getLast?_cons_or r rs n]
        exact hsafe.fine
    obtain ⟨done', hdone⟩ := Option.isSome_iff_exists.mp (hloop done)
    rw [Net.walk, if_neg (hself.apart _ (List.mem_cons_self ..)), hdone]
    exact Option.isSome_iff_exists.mpr ⟨done', Option.filter_some_pos hfine.sound⟩

/-- Along the route, every reference is listed first. -/
def Net.Leads (g : Net K I) : Option K → List K → Prop
  | _, [] => True
  | n, r :: rs => [r] <+: g.refs n ∧ g.Leads (some r) rs

/-- A walk that starts with nothing finished follows the references listed first. -/
theorem Net.safe_of_leads {done : List I} (h : g.walk levels above [] n = some done)
    (hl : g.Leads n rs) : g.Safe levels above n rs := by
  induction rs generalizing n levels above done with
  | nil =>
    cases levels with
    | zero => cases h
    | succ levels =>
      obtain ⟨hkey, hfine, -⟩ := Net.walk_eq_some h
      exact ⟨List.nodup_singleton _, by simpa using hkey, Nat.succ_pos _, hfine⟩
  | cons r rs ih =>
    cases levels with
    | zero => cases h
    | succ levels =>
      obtain ⟨hkey, hfine, hwalk⟩ := Net.walk_eq_some h
      obtain ⟨⟨others, hrefs⟩, hrest⟩ := hl
      rw [← hrefs, List.singleton_append, Net.walkRefs,
        if_pos (hfine.usable r (hrefs ▸ List.mem_cons_self ..)), if_neg List.not_mem_nil] at hwalk
      obtain ⟨d, hd, -⟩ := Option.bind_eq_some_iff.mp hwalk
      have hsafe := ih hd hrest
      refine ⟨List.nodup_cons.mpr ⟨?_, hsafe.nodup⟩, ?_, Nat.succ_lt_succ hsafe.short, ?_⟩
      · intro hmem
        exact hsafe.apart _ hmem (List.mem_cons_self ..)
      · rw [List.forall_mem_cons]
        exact ⟨hkey, fun k hk hmem => hsafe.apart k hk (List.mem_cons_of_mem _ hmem)⟩
      · rw [getLast?_cons_or]
        exact hsafe.fine

end Routes

section Orders

variable {g : Net K I} [DecidableEq K]

/-- References with some of them brought to the front. -/
def arrange (front l : List K) : List K := front ++ l.filter (· ∉ front)

theorem perm_arrange {front l : List K} (hf : front.Nodup) (hsub : front ⊆ l) (hl : l.Nodup) :
    (arrange front l).Perm l := by
  rw [List.perm_ext_iff_of_nodup _ hl]
  · intro k
    simp only [arrange, List.mem_append, List.mem_filter, decide_eq_true_eq]
    constructor
    · rintro (hk | hk)
      · exact hsub hk
      · exact hk.1
    · intro hk
      by_cases hfront : k ∈ front
      · exact Or.inl hfront
      · exact Or.inr ⟨hk, hfront⟩
  · refine List.Nodup.append hf (hl.filter _) ?_
    intro k hk hk'
    simp only [List.mem_filter, decide_eq_true_eq] at hk'
    exact hk'.2 hk

/-- Some order lists given references of every node first. -/
theorem Net.exists_order {front : Option K → List K} (hf : ∀ n, (front n).Nodup)
    (hsub : ∀ n, front n ⊆ g.refs n) :
    ∃ order, ∃ h : ∀ n, (order n).Perm (g.refs n), ∀ n, front n <+: (g.reorder order h).refs n :=
  ⟨fun n => arrange (front n) (g.refs n),
    fun n => perm_arrange (hf n) (hsub n) (g.nodup_refs n), fun _ => List.prefix_append _ _⟩

/-- The reference a route follows at a node. -/
def follow : Option K → List K → Option K → List K
  | _, [], _ => []
  | n, r :: rs, m => if m = n then [r] else follow (some r) rs m

theorem follow_nodup (n : Option K) (rs : List K) (m : Option K) : (follow n rs m).Nodup := by
  fun_induction follow n rs m with
  | case1 => exact List.nodup_nil
  | case2 => exact List.nodup_singleton _
  | case3 _ _ _ _ _ ih => exact ih

theorem Net.follow_subset {n : Option K} {rs : List K} (h : g.Route n rs) (m : Option K) :
    follow n rs m ⊆ g.refs m := by
  induction h with
  | nil n => exact List.nil_subset _
  | cons mem known _ ih =>
    rw [follow]
    split
    · next hm =>
      rw [hm]
      exact List.cons_subset.mpr ⟨mem, List.nil_subset _⟩
    · exact ih

theorem follow_of_not_mem {n m : Option K} {rs : List K} (hn : m ≠ n)
    (h : ∀ k ∈ rs.dropLast, m ≠ some k) : follow n rs m = [] := by
  induction rs generalizing n with
  | nil => rfl
  | cons r rs ih =>
    rw [follow, if_neg hn]
    cases rs with
    | nil => rfl
    | cons s rs =>
      rw [List.dropLast_cons_cons, List.forall_mem_cons] at h
      exact ih h.1 h.2

/-- An order that lists the references of a route first leads along it. -/
theorem Net.leads_of_follow {n : Option K} {rs : List K} (hn : ∀ k ∈ rs.dropLast, n ≠ some k)
    (hrs : rs.dropLast.Nodup) (h : ∀ m, follow n rs m <+: g.refs m) : g.Leads n rs := by
  induction rs generalizing n with
  | nil => trivial
  | cons r rs ih =>
    have hfirst := h n
    rw [follow, if_pos rfl] at hfirst
    refine ⟨hfirst, ?_⟩
    cases rs with
    | nil => trivial
    | cons s rs =>
      rw [List.dropLast_cons_cons, List.nodup_cons] at hrs
      rw [List.dropLast_cons_cons, List.forall_mem_cons] at hn
      refine ih (fun k hk hrk => hrs.1 (Option.some.inj hrk ▸ hk)) hrs.2 fun m => ?_
      by_cases hm : m = n
      · rw [follow_of_not_mem (hm ▸ hn.1) (hm ▸ hn.2)]
        exact List.nil_prefix
      · have hrest := h m
        rwa [follow, if_neg hm] at hrest

variable [DecidableEq I]

/-- Where every order is accepted, every route is bounded and ends at a fine node. -/
theorem Net.safe_of_accepts {maxDepth : Nat}
    (h : ∀ order horder, (g.reorder order horder).Accepts maxDepth) {rs : List K}
    (hroute : g.Route none rs) : g.Safe (maxDepth + 1) [] none rs := by
  induction rs using List.reverseRecOn with
  | nil =>
    obtain ⟨done, hdone⟩ := Option.isSome_iff_exists.mp (h g.refs fun n => List.Perm.refl _)
    exact Net.safe_of_leads hdone trivial
  | append_singleton rs r ih =>
    have hnodup := (List.nodup_cons.mp (ih hroute.of_append).nodup).2
    obtain ⟨order, horder, hfront⟩ :=
      g.exists_order (follow_nodup none (rs ++ [r])) (Net.follow_subset hroute)
    have hleads : (g.reorder order horder).Leads none (rs ++ [r]) := by
      apply Net.leads_of_follow _ _ hfront
      · exact fun k _ hk => nomatch hk
      · rwa [List.dropLast_concat]
    obtain ⟨done, hdone⟩ := Option.isSome_iff_exists.mp (h order horder)
    have hsafe := Net.safe_of_leads hdone hleads
    exact ⟨hsafe.nodup, hsafe.apart, hsafe.short, Net.fine_reorder.mp hsafe.fine⟩

/-- The walk is accepted in every order exactly where every route is bounded and ends at a fine
node. -/
theorem Net.accepts_all_iff {maxDepth : Nat} :
    (∀ order horder, (g.reorder order horder).Accepts maxDepth) ↔
      g.Bounded maxDepth ∧ g.AllFine := by
  constructor
  · intro h
    refine ⟨fun rs hroute => ?_, fun rs hroute => ?_⟩
    · have hsafe := Net.safe_of_accepts h hroute
      exact ⟨hsafe.nodup, Nat.le_of_lt_succ hsafe.short⟩
    · simpa using (Net.safe_of_accepts h hroute).fine
  · rintro ⟨hbounded, hfine⟩ order horder
    apply Net.walk_isSome
    intro rs hroute
    have hr := Net.route_reorder.mp hroute
    have hb := hbounded rs hr
    refine ⟨hb.1, fun _ _ => List.not_mem_nil, Nat.lt_succ_of_le hb.2, Net.fine_reorder.mpr ?_⟩
    simpa using hfine rs hr

end Orders

end OpenWop.DepthFirst
