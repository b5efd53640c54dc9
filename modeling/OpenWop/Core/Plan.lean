import OpenWop.Core.DepthFirst

/-!
# Plans of a depth-first walk

Because finished ids are skipped, the outcome of a walk can depend on the order in which
references are listed. A plan places every reference under the node it is expanded for;
some order is accepted exactly when there is a plan.
-/

namespace OpenWop.DepthFirst

variable {K I : Type}

section Plans

/-- References placed under a node, each with those placed under it, in the order in which they are
finished. -/
inductive Forest (K : Type) where
  | nil
  | cons (ref : K) (below rest : Forest K)

/-- The references placed at the top. -/
def Forest.refs : Forest K → List K
  | .nil => []
  | .cons r _ rest => r :: rest.refs

/-- All references placed. -/
def Forest.keys : Forest K → List K
  | .nil => []
  | .cons r below rest => r :: (below.keys ++ rest.keys)

/-- What is placed under a reference. -/
def Forest.below? [DecidableEq K] : Forest K → K → Option (Forest K)
  | .nil, _ => none
  | .cons r below rest, k => if k = r then some below else (below.below? k).or (rest.below? k)

variable (g : Net K I)

/-- The ids finished after the forest. -/
def Net.after (g : Net K I) : Forest K → List I → List I
  | .nil, done => done
  | .cons r below rest, done => g.after rest (g.id r :: g.after below done)

/-- The node is fine and each of its references is placed under it or finished. -/
structure Net.Covers (g : Net K I) (n : Option K) (f : Forest K) (done : List I) : Prop where
  fine : g.Fine n
  placed : f.refs ⊆ g.refs n
  finished : ∀ r ∈ g.refs n, r ∉ f.refs → g.id r ∈ g.after f done

/-- The forest is no higher than the bound, repeats no key on a branch, places no reference whose
id is finished earlier, and covers the nodes it places. -/
def Net.Fits (g : Net K I) : Nat → List K → List I → Forest K → Prop
  | _, _, _, .nil => True
  | 0, _, _, .cons _ _ _ => False
  | levels + 1, above, done, .cons r below rest =>
    (r ∉ above ∧ g.id r ∉ done ∧ g.Covers (some r) below done) ∧
      g.Fits levels (r :: above) done below ∧
      g.Fits (levels + 1) above (g.id r :: g.after below done) rest

/-- The root has a plan. -/
def Net.Plannable (g : Net K I) (maxDepth : Nat) : Prop :=
  ∃ f, g.Covers none f [] ∧ g.Fits maxDepth [g.rootKey] [] f

variable {g} {n : Option K} {f : Forest K} {rs : List K} {done done' : List I} {levels : Nat}
  {above : List K}

theorem Net.mem_after {i : I} (h : i ∈ done) : i ∈ g.after f done := by
  induction f generalizing done with
  | nil => exact h
  | cons r below rest ihb ihr => exact ihr (List.mem_cons_of_mem _ (ihb h))

theorem Net.fits_nil : g.Fits levels above done .nil := by
  cases levels <;> trivial

variable [DecidableEq I]

/-- A loop whose visits have plans has one. -/
theorem Net.fits_of_walkRefs {visit : List I → K → Option (List I)}
    (hv : ∀ done r done', visit done r = some done' → r ∉ above ∧ ∃ f lower,
      levels = lower + 1 ∧ g.Covers (some r) f done ∧ g.Fits lower (r :: above) done f ∧
      done' = g.after f done)
    (h : g.walkRefs visit n rs done = some done') :
    ∃ f, f.refs ⊆ rs ∧ (∀ r ∈ rs, r ∉ f.refs → g.id r ∈ g.after f done) ∧
      g.Fits levels above done f ∧ done' = g.after f done := by
  induction rs generalizing done with
  | nil =>
    cases h
    exact ⟨.nil, List.Subset.refl _, fun _ hr => absurd hr List.not_mem_nil, Net.fits_nil, rfl⟩
  | cons r rs ih =>
    rw [Net.walkRefs] at h
    split at h
    · split at h
      · next hdone =>
        obtain ⟨f, hsub, hfin, hfits, hafter⟩ := ih h
        refine ⟨f, List.subset_cons_of_subset r hsub, ?_, hfits, hafter⟩
        rw [List.forall_mem_cons]
        exact ⟨fun _ => Net.mem_after hdone, hfin⟩
      · next hnew =>
        obtain ⟨d, hd, hrest⟩ := Option.bind_eq_some_iff.mp h
        obtain ⟨habove, below, lower, rfl, hcovers, hbelow, rfl⟩ := hv _ _ _ hd
        obtain ⟨rest, hsub, hfin, hfits, hafter⟩ := ih hrest
        refine ⟨.cons r below rest, List.cons_subset_cons r hsub, ?_,
          ⟨⟨habove, hnew, hcovers⟩, hbelow, hfits⟩, hafter⟩
        rw [List.forall_mem_cons]
        refine ⟨fun hr => absurd (List.mem_cons_self ..) hr, fun s hs hnot => ?_⟩
        exact hfin s hs fun hmem => hnot (List.mem_cons_of_mem _ hmem)
    · cases h

variable [DecidableEq K]

/-- An accepted walk has a plan. -/
theorem Net.plan_of_walk (h : g.walk (levels + 1) above done n = some done') :
    ∃ f, g.Covers n f done ∧ g.Fits levels (g.key n :: above) done f ∧
      done' = g.after f done := by
  induction levels generalizing n above done done' with
  | zero =>
    obtain ⟨-, hfine, hwalk⟩ := Net.walk_eq_some h
    obtain ⟨f, hsub, hfin, hfits, hafter⟩ :=
      Net.fits_of_walkRefs (fun done r done' hvisit => by cases hvisit) hwalk
    exact ⟨f, ⟨hfine, hsub, hfin⟩, hfits, hafter⟩
  | succ levels ih =>
    obtain ⟨-, hfine, hwalk⟩ := Net.walk_eq_some h
    obtain ⟨f, hsub, hfin, hfits, hafter⟩ := Net.fits_of_walkRefs (fun done r done' hvisit => by
      obtain ⟨f, hcovers, hfits, hafter⟩ := ih hvisit
      exact ⟨(Net.walk_eq_some hvisit).1, f, levels, rfl, hcovers, hfits, hafter⟩) hwalk
    exact ⟨f, ⟨hfine, hsub, hfin⟩, hfits, hafter⟩

theorem Net.plannable_of_accepts {maxDepth : Nat} (h : g.Accepts maxDepth) :
    g.Plannable maxDepth := by
  obtain ⟨done, hdone⟩ := Option.isSome_iff_exists.mp h
  obtain ⟨f, hcovers, hfits, -⟩ := Net.plan_of_walk hdone
  exact ⟨f, hcovers, hfits⟩

end Plans

section Scheduling

variable {g : Net K I} {n : Option K} {f : Forest K} {rs : List K} {done : List I} {levels : Nat}
  {above : List K}

/-- Every placed reference is new when it is placed, and on no branch to it. -/
theorem Net.Fits.apart (h : g.Fits levels above done f) :
    ∀ k ∈ f.keys, k ∉ above ∧ g.id k ∉ done := by
  induction f generalizing levels above done with
  | nil => exact fun _ hk => nomatch hk
  | cons r below rest ihb ihr =>
    cases levels with
    | zero => exact h.elim
    | succ levels =>
      obtain ⟨⟨habove, hnew, -⟩, hbelow, hrest⟩ := h
      rw [Forest.keys, List.forall_mem_cons]
      refine ⟨⟨habove, hnew⟩, fun k hk => ?_⟩
      obtain hk | hk := List.mem_append.mp hk
      · have hb := ihb hbelow k hk
        exact ⟨fun hmem => hb.1 (List.mem_cons_of_mem _ hmem), hb.2⟩
      · have hr := ihr hrest k hk
        exact ⟨hr.1, fun hmem => hr.2 (List.mem_cons_of_mem _ (Net.mem_after hmem))⟩

theorem Net.id_mem_after {k : K} (h : k ∈ f.keys) (done : List I) : g.id k ∈ g.after f done := by
  induction f generalizing done with
  | nil => cases h
  | cons r below rest ihb ihr =>
    rw [Forest.keys, List.mem_cons, List.mem_append] at h
    obtain rfl | h | h := h
    · exact Net.mem_after (f := rest) (List.mem_cons_self ..)
    · exact Net.mem_after (f := rest) (List.mem_cons_of_mem _ (ihb h done))
    · exact ihr h _

/-- No reference is placed twice. -/
theorem Net.Fits.nodup_keys (h : g.Fits levels above done f) : f.keys.Nodup := by
  induction f generalizing levels above done with
  | nil => exact List.nodup_nil
  | cons r below rest ihb ihr =>
    cases levels with
    | zero => exact h.elim
    | succ levels =>
      obtain ⟨-, hbelow, hrest⟩ := h
      have hnew := hrest.apart
      rw [Forest.keys, List.nodup_cons]
      refine ⟨fun hmem => ?_, List.Nodup.append (ihb hbelow) (ihr hrest) ?_⟩
      · obtain hmem | hmem := List.mem_append.mp hmem
        · exact (hbelow.apart r hmem).1 (List.mem_cons_self ..)
        · exact (hnew r hmem).2 (List.mem_cons_self ..)
      · intro k hk hk'
        exact (hnew k hk').2 (List.mem_cons_of_mem _ (Net.id_mem_after hk done))

theorem Forest.refs_sublist_keys (f : Forest K) : f.refs.Sublist f.keys := by
  induction f with
  | nil => exact List.Sublist.refl _
  | cons r below rest _ ihr =>
    exact (ihr.trans (List.sublist_append_right below.keys rest.keys)).cons_cons r

/-- Where a node lists the placed references first, the others are finished when their turn
comes. -/
theorem Net.walkRefs_others [DecidableEq I] {visit : List I → K → Option (List I)} {others : List K}
    (hcovers : g.Covers n f done) (hrefs : f.refs ++ others = g.refs n) :
    g.walkRefs visit n others (g.after f done) = some (g.after f done) := by
  have hnodup := hrefs ▸ g.nodup_refs n
  have hmem : ∀ r ∈ others, r ∈ g.refs n := fun r hr => hrefs ▸ List.mem_append_right _ hr
  apply Net.walkRefs_eq_of_done
  · exact fun r hr => hcovers.fine.usable r (hmem r hr)
  · intro r hr
    apply hcovers.finished r (hmem r hr)
    exact fun hplaced => (List.disjoint_of_nodup_append hnodup) hplaced hr

section Reordered

variable {order : Option K → List K} {h : ∀ n, (order n).Perm (g.refs n)}

theorem Net.after_reorder : (g.reorder order h).after f done = g.after f done := by
  induction f generalizing done with
  | nil => rfl
  | cons r below rest ihb ihr => rw [Net.after, Net.after, ihb, ihr]; rfl

theorem Net.covers_reorder : (g.reorder order h).Covers n f done ↔ g.Covers n f done := by
  constructor
  · rintro ⟨hfine, hplaced, hfin⟩
    refine ⟨Net.fine_reorder.mp hfine, fun r hr => (h n).mem_iff.mp (hplaced hr),
      fun r hr hnot => ?_⟩
    exact Net.after_reorder (h := h) ▸ hfin r ((h n).mem_iff.mpr hr) hnot
  · rintro ⟨hfine, hplaced, hfin⟩
    refine ⟨Net.fine_reorder.mpr hfine, fun r hr => (h n).mem_iff.mpr (hplaced hr),
      fun r hr hnot => ?_⟩
    exact Net.after_reorder (h := h) ▸ hfin r ((h n).mem_iff.mp hr) hnot

theorem Net.fits_reorder :
    (g.reorder order h).Fits levels above done f ↔ g.Fits levels above done f := by
  induction f generalizing levels above done with
  | nil => exact iff_of_true Net.fits_nil Net.fits_nil
  | cons r below rest ihb ihr =>
    cases levels with
    | zero => rfl
    | succ levels =>
      rw [Net.Fits, Net.Fits, Net.covers_reorder, ihb, ihr, Net.after_reorder]
      rfl

theorem Net.plannable_reorder {maxDepth : Nat} :
    (g.reorder order h).Plannable maxDepth ↔ g.Plannable maxDepth :=
  exists_congr fun _ => and_congr Net.covers_reorder Net.fits_reorder

end Reordered

variable [DecidableEq K]

theorem Forest.mem_keys_of_below? {k : K} {b : Forest K} (h : f.below? k = some b) :
    k ∈ f.keys := by
  induction f with
  | nil => cases h
  | cons r below rest ihb ihr =>
    rw [Forest.below?] at h
    rw [Forest.keys, List.mem_cons, List.mem_append]
    split at h
    · next hk => exact Or.inl hk
    · obtain h | ⟨-, h⟩ := Option.or_eq_some_iff.mp h
      · exact Or.inr (Or.inl (ihb h))
      · exact Or.inr (Or.inr (ihr h))

/-- The references of the placed nodes are listed in the order of the forest first. -/
def Net.Lists (g : Net K I) (f : Forest K) : Prop :=
  ∀ k b, f.below? k = some b → b.refs <+: g.refs (some k)

theorem Net.Lists.cons {r : K} {below rest : Forest K} (hn : (Forest.cons r below rest).keys.Nodup)
    (h : g.Lists (.cons r below rest)) :
    below.refs <+: g.refs (some r) ∧ g.Lists below ∧ g.Lists rest := by
  rw [Forest.keys, List.nodup_cons, List.mem_append, not_or] at hn
  refine ⟨h r below (by rw [Forest.below?, if_pos rfl]), fun k b hk => h k b ?_,
    fun k b hk => h k b ?_⟩
  · have hmem := Forest.mem_keys_of_below? hk
    have hne : k ≠ r := fun he => hn.1.1 (he ▸ hmem)
    rw [Forest.below?, if_neg hne, hk, Option.some_or]
  · have hmem := Forest.mem_keys_of_below? hk
    have hne : k ≠ r := fun he => hn.1.2 (he ▸ hmem)
    have hnone : below.below? k = none := by
      rw [Option.eq_none_iff_forall_ne_some]
      intro b' hb'
      exact (List.disjoint_of_nodup_append hn.2) (Forest.mem_keys_of_below? hb') hmem
    rw [Forest.below?, if_neg hne, hnone, Option.none_or, hk]

/-- A walk over listed references goes as the forest says. -/
theorem Net.walkRefs_of_fits [DecidableEq I] (hfits : g.Fits levels above done f)
    (hlists : g.Lists f) (hu : ∀ r ∈ f.refs, g.usable n r = true) (rs : List K) :
    g.walkRefs (fun done r => g.walk levels above done (some r)) n (f.refs ++ rs) done =
      g.walkRefs (fun done r => g.walk levels above done (some r)) n rs (g.after f done) := by
  induction f generalizing levels above done n rs with
  | nil => rfl
  | cons r below rest ihb ihr =>
    cases levels with
    | zero => exact hfits.elim
    | succ levels =>
      have hkeys := hfits.nodup_keys
      obtain ⟨⟨habove, hnew, hcovers⟩, hbelow, hrest⟩ := hfits
      obtain ⟨⟨others, hrefs⟩, hlb, hlr⟩ := hlists.cons hkeys
      rw [Forest.refs, List.forall_mem_cons] at hu
      have hvisit : g.walk (levels + 1) above done (some r) = some (g.after below done) := by
        have hub : ∀ s ∈ below.refs, g.usable (some r) s = true := fun s hs =>
          hcovers.fine.usable s (hcovers.placed hs)
        have hloop := ihb hbelow hlb hub others
        rw [hrefs, Net.walkRefs_others hcovers hrefs] at hloop
        rw [Net.walk, if_neg (show g.key (some r) ∉ above from habove)]
        exact Option.filter_eq_some_iff.mpr ⟨hloop, hcovers.fine.sound⟩
      rw [Forest.refs, List.cons_append, Net.walkRefs, if_pos hu.1, if_neg hnew, hvisit,
        Option.bind_some]
      exact ihr hrest hlr hu.2 rs

/-- What is placed under a reference covers it. -/
theorem Net.Fits.below (h : g.Fits levels above done f) {k : K} {b : Forest K}
    (hb : f.below? k = some b) : b.refs ⊆ g.refs (some k) ∧ b.keys.Nodup := by
  induction f generalizing levels above done with
  | nil => cases hb
  | cons r below rest ihb ihr =>
    cases levels with
    | zero => exact h.elim
    | succ levels =>
      obtain ⟨⟨-, -, hcovers⟩, hbelow, hrest⟩ := h
      rw [Forest.below?] at hb
      split at hb
      · next hk =>
        cases hb
        rw [hk]
        exact ⟨hcovers.placed, hbelow.nodup_keys⟩
      · obtain hb | ⟨-, hb⟩ := Option.or_eq_some_iff.mp hb
        · exact ihb hbelow hb
        · exact ihr hrest hb

/-- The references placed under a node. -/
def Forest.front (f : Forest K) : Option K → List K
  | none => f.refs
  | some k => ((f.below? k).map Forest.refs).getD []

/-- A plan is carried out by some order. -/
theorem Net.accepts_of_plannable [DecidableEq I] {maxDepth : Nat} (h : g.Plannable maxDepth) :
    ∃ order horder, (g.reorder order horder).Accepts maxDepth := by
  obtain ⟨f, hcovers, hfits⟩ := h
  have hnodup : ∀ n, (f.front n).Nodup := by
    intro n
    cases n with
    | none => exact hfits.nodup_keys.sublist f.refs_sublist_keys
    | some k =>
      cases hb : f.below? k with
      | none => simp [Forest.front, hb]
      | some b =>
        simpa [Forest.front, hb] using (hfits.below hb).2.sublist b.refs_sublist_keys
  have hsub : ∀ n, f.front n ⊆ g.refs n := by
    intro n
    cases n with
    | none => exact hcovers.placed
    | some k =>
      cases hb : f.below? k with
      | none => simp [Forest.front, hb]
      | some b => simpa [Forest.front, hb] using (hfits.below hb).1
  obtain ⟨order, horder, hfront⟩ := g.exists_order hnodup hsub
  refine ⟨order, horder, ?_⟩
  have hlists : (g.reorder order horder).Lists f := by
    intro k b hb
    have hk := hfront (some k)
    rwa [Forest.front, hb] at hk
  have hcovers' : (g.reorder order horder).Covers none f [] := Net.covers_reorder.mpr hcovers
  obtain ⟨others, hrefs⟩ := hfront none
  have hloop := Net.walkRefs_of_fits (Net.fits_reorder.mpr hfits) hlists
    (fun r hr => hcovers'.fine.usable r (hcovers'.placed hr)) others
  rw [show f.refs ++ others = (g.reorder order horder).refs none from hrefs,
    Net.walkRefs_others hcovers' hrefs] at hloop
  rw [Net.Accepts, Net.walk, if_neg List.not_mem_nil]
  exact Option.isSome_iff_exists.mpr
    ⟨_, Option.filter_eq_some_iff.mpr ⟨hloop, hcovers'.fine.sound⟩⟩

end Scheduling

section Main

variable {g : Net K I} [DecidableEq K] [DecidableEq I]

/-- An accepted walk means bounded routes, and every order is accepted alike, exactly where every
route is bounded and ends at a fine node, or no plan exists. -/
theorem Net.orderly_iff (g : Net K I) (maxDepth : Nat) :
    ((g.Accepts maxDepth → g.Bounded maxDepth) ∧
      ∀ order horder, (g.reorder order horder).Accepts maxDepth ↔ g.Accepts maxDepth) ↔
    (g.Bounded maxDepth ∧ g.AllFine) ∨ ¬ g.Plannable maxDepth := by
  have hself : g.reorder g.refs (fun _ => List.Perm.refl _) = g := rfl
  constructor
  · rintro ⟨hbounded, horders⟩
    by_cases ha : g.Accepts maxDepth
    · exact Or.inl (Net.accepts_all_iff.mp fun order horder => (horders order horder).mpr ha)
    · refine Or.inr fun hplan => ?_
      obtain ⟨order, horder, haccepts⟩ := Net.accepts_of_plannable hplan
      exact ha ((horders order horder).mp haccepts)
  · rintro (hgood | hplan)
    · have hall := Net.accepts_all_iff.mpr hgood
      have ha : g.Accepts maxDepth := hall g.refs fun _ => List.Perm.refl _
      exact ⟨fun _ => hgood.1, fun order horder => iff_of_true (hall order horder) ha⟩
    · have hnone : ∀ order horder, ¬ (g.reorder order horder).Accepts maxDepth := by
        intro order horder ha
        exact hplan (Net.plannable_reorder.mp (Net.plannable_of_accepts ha))
      have ha : ¬ g.Accepts maxDepth := hnone g.refs fun _ => List.Perm.refl _
      exact ⟨fun h => absurd h ha, fun order horder => iff_of_false (hnone order horder) ha⟩

end Main

end OpenWop.DepthFirst
