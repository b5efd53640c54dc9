import OpenWop.Schema.Inline

/-!
# Definitions of their own

A subschema that is moved into `$defs` and referred to is the converse of a copy: the copy
gives back the schema with one definition more, which no reference leads to.
-/

namespace OpenWop.Schema

open OpenWop.Js OpenWop.Core

section Pointers

theorem segments_ne_nil (ref : JsString) : segments ref ≠ [] := by
  rw [segments, Ne, List.map_eq_nil_iff]
  exact splitOn_ne_nil _ _

/-- The pointer to a definition has the definition's name for its last segment. -/
theorem segments_definitionRef (name : JsString) :
    segments (definitionRef name) = [js "$defs", name] := by
  have hdrop : (definitionRef name).drop 2 = js "$defs" ++ unit '/' :: esc name := rfl
  have hname : unit '/' ∉ esc name := fun h => (mem_esc h).1 rfl
  rw [segments, hdrop, splitOn_append (by decide), splitOn_of_not_mem hname, List.map_cons,
    List.map_singleton, unescape_esc]
  rfl

theorem resolvePointer_definitionRef (schema : Json) (name : JsString) :
    resolvePointer schema (definitionRef name) = nodeAt [js "$defs", name] schema := by
  have hlocal : startsWith (definitionRef name) (js "#/") = true := rfl
  rw [resolvePointer_eq, segments_definitionRef, if_pos hlocal]

end Pointers

section Defined

variable {schema defined node : Json} {name ref : JsString} {loc : List JsString}
  {job job' : Job} {depth : Nat}

/-- The pointer leads neither to `$defs` itself nor to a definition of that name. -/
def Undisturbed (name ref : JsString) : Prop :=
  segments ref ≠ [js "$defs"] ∧ ¬ [js "$defs", name] <+: segments ref

theorem define_eq_some_iff : define schema name node = some defined ↔ ∃ members defs,
    schema = .obj members ∧ (keyword members (js "$defs")).getD (.obj []) = .obj defs ∧
    name ∉ Record.keys defs ∧
    defined = .obj (Record.set members (js "$defs") (.obj (defs ++ [(name, node)]))) := by
  unfold define
  cases schema with
  | obj members =>
    cases hdefs : (keyword members (js "$defs")).getD (.obj []) with
    | obj defs =>
      by_cases hname : name ∈ Record.keys defs
      · simp [hdefs, hname]
      · simp [hdefs, hname, eq_comm]
    | null | bool _ | num _ | str _ | arr _ => simp [hdefs]
  | null | bool _ | num _ | str _ | arr _ => simp

/-- The definition is where its pointer leads. -/
theorem nodeAt_definition (h : define schema name node = some defined) :
    nodeAt [js "$defs", name] defined = some node := by
  obtain ⟨members, defs, rfl, -, hname, rfl⟩ := define_eq_some_iff.mp h
  rw [nodeAt, child?, Record.get?_set, if_pos rfl, Option.bind_some, nodeAt, child?,
    Record.get?_append, Record.get?_eq_none_iff.mpr hname, Option.none_or, Record.get?_cons,
    if_pos rfl]
  rfl

/-- Every other location leads where it led. -/
theorem nodeAt_define (h : define schema name node = some defined) (hne : loc ≠ [])
    (hdefs : loc ≠ [js "$defs"]) (hname : ¬ [js "$defs", name] <+: loc) :
    nodeAt loc defined = nodeAt loc schema := by
  obtain ⟨members, defs, rfl, hget, -, rfl⟩ := define_eq_some_iff.mp h
  cases loc with
  | nil => exact absurd rfl hne
  | cons k loc =>
    rw [nodeAt, nodeAt, child?, child?, Record.get?_set]
    split
    · next hk =>
      subst hk
      cases loc with
      | nil => exact absurd rfl hdefs
      | cons l loc =>
        have hl : l ≠ name := by
          rintro rfl
          exact hname (List.cons_prefix_cons.mpr ⟨rfl, List.cons_prefix_cons.mpr
            ⟨rfl, List.nil_prefix⟩⟩)
        have hlast : Record.get? [(name, node)] l = none := by
          rw [Record.get?_cons, if_neg (Ne.symm hl), Record.get?_nil]
        rw [Option.bind_some, nodeAt, child?, Record.get?_append, hlast, Option.or_none]
        cases hk : Record.get? members (js "$defs") with
        | none =>
          rw [keyword, hk, Option.getD_none] at hget
          cases hget
          rfl
        | some v =>
          rw [keyword, hk, Option.getD_some] at hget
          subst hget
          rfl
    · rfl

theorem resolvePointer_define (h : define schema name node = some defined)
    (href : Undisturbed name ref) : resolvePointer defined ref = resolvePointer schema ref := by
  rw [resolvePointer_eq, resolvePointer_eq,
    nodeAt_define h (segments_ne_nil ref) href.1 href.2]

/-- The same job in both walks. -/
def TwinJob (schema defined : Json) (job job' : Job) : Prop :=
  job' = job ∨ job = rootJob schema ∧ job' = rootJob defined

/-- The definition is not read at the root. -/
theorem TwinJob.read (h : define schema name node = some defined)
    (hjob : TwinJob schema defined job job') : job' = job ∨ ∃ members members',
      job = ⟨.obj members, [], js "root", false⟩ ∧ job' = ⟨.obj members', [], js "root", false⟩ ∧
      refOf members' = refOf members ∧
      steps members' [] (js "root") = steps members [] (js "root") := by
  obtain rfl | ⟨rfl, rfl⟩ := hjob
  · exact Or.inl rfl
  · obtain ⟨members, defs, rfl, -, -, rfl⟩ := define_eq_some_iff.mp h
    have hsame : ∀ k, k ≠ js "$defs" → keyword (Record.set members (js "$defs")
        (.obj (defs ++ [(name, node)]))) k = keyword members k :=
      fun k hk => Record.get?_set_of_ne members _ hk
    have hother : ∀ k ∈ stepKeywords, keyword (Record.set members (js "$defs")
        (.obj (defs ++ [(name, node)]))) k = keyword members k := by
      intro k hk
      apply hsame
      rintro rfl
      exact absurd hk (by decide)
    refine Or.inr ⟨_, _, rfl, rfl, ?_, ?_⟩
    · rw [refOf, refOf, hsame (js "$ref") (by decide)]
    · obtain ⟨before, after, hsteps, hsteps'⟩ := steps_split hother [] (js "root")
      rw [hsteps, hsteps', combinatorSteps, combinatorSteps, hsame (js "allOf") (by decide)]

theorem TwinJob.isNode_iff (h : define schema name node = some defined)
    (hjob : TwinJob schema defined job job') : job'.IsNode ↔ job.IsNode := by
  obtain rfl | ⟨members, members', rfl, rfl, -⟩ := hjob.read h
  · rfl
  · exact ⟨fun _ => ⟨members, rfl⟩, fun _ => ⟨members', rfl⟩⟩

theorem TwinJob.site (h : define schema name node = some defined)
    (hjob : TwinJob schema defined job job') :
    job'.path = job.path ∧ job'.branchKey = job.branchKey ∧ job'.ref? = job.ref? := by
  obtain rfl | ⟨members, members', rfl, rfl, href, -⟩ := hjob.read h
  · exact ⟨rfl, rfl, rfl⟩
  · exact ⟨rfl, rfl, href⟩

theorem TwinJob.adds_iff (h : define schema name node = some defined)
    (hjob : TwinJob schema defined job job') {e : Surface × JsString} :
    job'.Adds e ↔ job.Adds e := by
  obtain rfl | ⟨members, members', rfl, rfl, -, hsteps⟩ := hjob.read h
  · rfl
  · simp only [Job.Adds, Json.obj.injEq, exists_eq_left', hsteps]

theorem TwinJob.reaches_iff (h : define schema name node = some defined)
    (hjob : TwinJob schema defined job job') {e : JsString × JsString} :
    job'.Reaches e ↔ job.Reaches e := by
  obtain rfl | ⟨members, members', rfl, rfl, -⟩ := hjob.read h
  · rfl
  · simp [Job.Reaches]

/-- Twins lead to the same jobs. -/
theorem TwinJob.nexts (h : define schema name node = some defined)
    (hjob : TwinJob schema defined job job') (href : ∀ ref, job.ref? = some ref →
      Undisturbed name ref) : job'.nexts defined = job.nexts schema := by
  have hbind : ∀ members, (∀ ref, refOf members = some ref → Undisturbed name ref) →
      (refOf members).bind (resolvePointer defined) =
        (refOf members).bind (resolvePointer schema) := by
    intro members hundisturbed
    cases hr : refOf members with
    | none => rfl
    | some ref => exact resolvePointer_define h (hundisturbed ref hr)
  obtain rfl | ⟨members, members', rfl, rfl, hrefs, hsteps⟩ := hjob.read h
  · unfold Job.nexts
    cases hnode : job'.node with
    | obj members =>
      have hundisturbed := fun ref hr => href ref (ref?_eq_some_iff.mpr ⟨members, hnode, hr⟩)
      simp only [hbind members hundisturbed]
    | null | bool _ | num _ | str _ | arr _ => rfl
  · have hundisturbed := fun ref hr => href ref (ref?_eq_some_iff.mpr ⟨members, rfl, hr⟩)
    simp only [Job.nexts, hsteps, hrefs, hbind members hundisturbed]

end Defined

section Simulations

variable {schema defined node : Json} {name : JsString}

theorem simulates_define (h : define schema name node = some defined)
    (href : ∀ ref, Refers schema ref → Undisturbed name ref) :
    Simulates (unfolding schema) (unfolding defined)
      fun s t => t.1 = s.1 ∧ TwinJob schema defined s.2 t.2 where
  initial s hs := by
    obtain ⟨rfl, hnode⟩ := hs
    have hroot : TwinJob schema defined (rootJob schema) (rootJob defined) := Or.inr ⟨rfl, rfl⟩
    exact ⟨_, .initial ⟨rfl, (hroot.isNode_iff h).mpr hnode⟩, rfl, hroot⟩
  step s s' t hs ht hr hstep := by
    obtain ⟨hdepth, hchild, hnode⟩ := hstep
    have hocc := (reached_unfolding.mp hs).1
    rw [← hr.2.nexts h fun ref hr => href ref ⟨s.1, s.2, hocc, hr⟩] at hchild
    exact ⟨(t.1 + 1, s'.2), .step ht ⟨rfl, hchild, hnode⟩, by rw [hdepth, hr.1], Or.inl rfl⟩

theorem simulated_define (h : define schema name node = some defined)
    (href : ∀ ref, Refers schema ref → Undisturbed name ref) :
    Simulates (unfolding defined) (unfolding schema)
      fun t s => t.1 = s.1 ∧ TwinJob schema defined s.2 t.2 where
  initial t ht := by
    obtain ⟨rfl, hnode⟩ := ht
    have hroot : TwinJob schema defined (rootJob schema) (rootJob defined) := Or.inr ⟨rfl, rfl⟩
    exact ⟨_, .initial ⟨rfl, (hroot.isNode_iff h).mp hnode⟩, rfl, hroot⟩
  step t t' s ht hs hr hstep := by
    obtain ⟨hdepth, hchild, hnode⟩ := hstep
    have hocc := (reached_unfolding.mp hs).1
    rw [hr.2.nexts h fun ref hr => href ref ⟨s.1, s.2, hocc, hr⟩] at hchild
    exact ⟨(s.1 + 1, t'.2), .step hs ⟨rfl, hchild, hnode⟩, by rw [hdepth, hr.1], Or.inl rfl⟩

/-- A definition that no reference leads to lists nothing. -/
theorem sameSurfaces_define (h : define schema name node = some defined)
    (href : ∀ ref, Refers schema ref → Undisturbed name ref) (hunshared : Unshared defined) :
    SameSurfaces schema defined := by
  have hto := simulates_define h href
  have hfrom := simulated_define h href
  have hschema : Unshared schema := by
    constructor
    · intro depth job hocc hnode
      obtain ⟨⟨_, job'⟩, hreached, rfl, -⟩ := hto.reached (reached_unfolding.mpr ⟨hocc, hnode⟩)
      obtain ⟨hocc', hnode'⟩ := reached_unfolding.mp hreached
      exact hunshared.shallow _ job' hocc' hnode'
    · intro depth depth' job job' ref ref' hocc hocc' hr hr' hleads hkey
      obtain ⟨⟨d, j⟩, hreached, -, htwin⟩ :=
        hto.reached (reached_unfolding.mpr ⟨hocc, isNode_of_ref? hr⟩)
      obtain ⟨⟨d', j'⟩, hreached', -, htwin'⟩ :=
        hto.reached (reached_unfolding.mpr ⟨hocc', isNode_of_ref? hr'⟩)
      obtain ⟨hpath, hbranch, hrefs⟩ := htwin.site h
      obtain ⟨hpath', hbranch', hrefs'⟩ := htwin'.site h
      have hleads' : LeadsToNode defined ref := by
        rw [LeadsToNode, resolvePointer_define h (href ref ⟨depth, job, hocc, hr⟩)]
        exact hleads
      have hkey' : seenKey ref j.path = seenKey ref' j'.path := by
        rw [hpath, hpath']
        exact hkey
      obtain ⟨he, hp, hb⟩ := hunshared.once d d' j j' ref ref' (reached_unfolding.mp hreached).1
        (reached_unfolding.mp hreached').1 (hrefs.trans hr) (hrefs'.trans hr') hleads' hkey'
      exact ⟨he, hpath.symm.trans (hp.trans hpath'), hbranch.symm.trans (hb.trans hbranch')⟩
  apply hschema.sameSurfaces hunshared
  · intro s b
    rw [imposing_iff_reached, imposing_iff_reached]
    constructor
    · exact hto.observed fun _ _ hr => (hr.2.adds_iff h).mpr
    · exact hfrom.observed fun _ _ hr => (hr.2.adds_iff h).mp
  · intro path b
    rw [reaching_iff_reached, reaching_iff_reached]
    constructor
    · exact hto.observed fun _ _ hr => (hr.2.reaches_iff h).mpr
    · exact hfrom.observed fun _ _ hr => (hr.2.reaches_iff h).mp

end Simulations

section Edits

/-- An edit is not noticed: no reference is shared by branches where a copy stands for one, and
no other reference leads to a new definition. -/
def Edit.Unnoticed (schema : Json) : Edit → Prop
  | .inline loc => ∀ members target copy, Inlining schema loc members target copy →
      Inlinable schema loc members target copy
  | .extract loc name => ∀ node defined, nodeAt loc schema = some node →
      define schema name node = some defined →
      Inlinable (replaceAt (.obj (refTo name)) loc defined) loc (refTo name) node node ∧
        ∀ ref, Refers schema ref → Undisturbed name ref

variable {schema schema' node defined : Json} {loc : List JsString} {name : JsString} {edit : Edit}

theorem apply_inline_iff : (Edit.inline loc).apply schema = some schema' ↔
    ∃ members target copy, Inlining schema loc members target copy ∧
      schema' = replaceAt copy loc schema := by
  rw [Edit.apply]
  constructor
  · intro h
    split at h
    · next members hat =>
      simp only [Option.bind_eq_bind, Option.bind_eq_some_iff, Option.pure_def,
        Option.some.injEq] at h
      obtain ⟨ref, href, target, hres, copy, hcopy, rfl⟩ := h
      exact ⟨members, target, copy, ⟨hat, ⟨ref, href, hres⟩, hcopy⟩, rfl⟩
    · cases h
  · rintro ⟨members, target, copy, ⟨hat, ⟨ref, href, hres⟩, hcopy⟩, rfl⟩
    simp [hat, href, hres, hcopy]

theorem inlined_refTo : inlined (refTo name) node = some node := by
  have hlone : besideRef (refTo name) = [] := by simp [besideRef, refTo, Record.erase]
  rw [inlined, if_pos hlone]

/-- The copy of a definition of its own gives back the subschema. -/
theorem inlining_extract (hne : loc ≠ []) (hdefs : loc ≠ [js "$defs"])
    (hat : nodeAt loc schema = some node) (hdef : define schema name node = some defined) :
    Inlining (replaceAt (.obj (refTo name)) loc defined) loc (refTo name) node node ∧
      replaceAt node loc (replaceAt (.obj (refTo name)) loc defined) = defined := by
  have hfresh : ¬ [js "$defs", name] <+: loc := by
    rintro ⟨more, rfl⟩
    obtain ⟨members, defs, rfl, hget, hname, -⟩ := define_eq_some_iff.mp hdef
    obtain ⟨v, hv, hat⟩ := Option.bind_eq_some_iff.mp hat
    have hv : keyword members (js "$defs") = some v := hv
    rw [hv, Option.getD_some] at hget
    subst hget
    obtain ⟨w, hw, -⟩ := Option.bind_eq_some_iff.mp hat
    have hw : Record.get? defs name = some w := hw
    rw [Record.get?_eq_none_iff.mpr hname] at hw
    cases hw
  have hat' : nodeAt loc defined = some node := (nodeAt_define hdef hne hdefs hfresh).trans hat
  have habove : ¬ loc <+: [js "$defs", name] := by
    intro hprefix
    cases loc with
    | nil => exact hne rfl
    | cons k loc =>
      obtain ⟨rfl, hloc⟩ := List.cons_prefix_cons.mp hprefix
      cases loc with
      | nil => exact hdefs rfl
      | cons l loc =>
        obtain ⟨rfl, -⟩ := List.cons_prefix_cons.mp hloc
        exact hfresh (List.cons_prefix_cons.mpr ⟨rfl, List.cons_prefix_cons.mpr
          ⟨rfl, List.nil_prefix⟩⟩)
  refine ⟨⟨?_, ⟨definitionRef name, rfl, ?_⟩, inlined_refTo⟩, ?_⟩
  · have hself : nodeAt (loc ++ []) _ = _ := nodeAt_append_replaceAt (.obj (refTo name)) hat'
    rwa [List.append_nil] at hself
  · rw [resolvePointer_definitionRef, nodeAt_replaceAt_beside _ _ hfresh habove]
    exact nodeAt_definition hdef
  · rw [replaceAt_replaceAt, replaceAt_self hat']

/-- An edit that is not noticed lists the same surfaces. -/
theorem sameSurfaces_of_unnoticed (happly : edit.apply schema = some schema')
    (h : edit.Unnoticed schema) : SameSurfaces schema schema' := by
  cases edit with
  | inline loc =>
    obtain ⟨members, target, copy, hin, rfl⟩ := apply_inline_iff.mp happly
    exact (h members target copy hin).sameSurfaces hin
  | extract loc name =>
    rw [Edit.apply] at happly
    split at happly
    · cases happly
    · next hloc =>
      rw [not_or] at hloc
      simp only [Option.bind_eq_bind, Option.bind_eq_some_iff, Option.pure_def,
        Option.some.injEq] at happly
      obtain ⟨node, hat, defined, hdef, rfl⟩ := happly
      obtain ⟨hin, hback⟩ := inlining_extract hloc.1 hloc.2 hat hdef
      obtain ⟨hinlinable, href⟩ := h node defined hat hdef
      -- the copy gives back the schema with the definition, which nothing leads to
      have hcopy := hinlinable.sameSurfaces hin
      have hunshared := hinlinable.unshared_copy hin
      rw [hback] at hcopy hunshared
      exact fun s => (sameSurfaces_define hdef href hunshared s).trans (hcopy s).symm

end Edits

section Samples

variable {schema : Json} {jobs : List (Nat × Job)} {ref : JsString}

theorem Closed.exists_of_refers (h : Closed schema jobs) (href : Refers schema ref) :
    ∃ v ∈ jobs, v.2.ref? = some ref := by
  obtain ⟨depth, job, hocc, hr⟩ := href
  exact ⟨(depth, job), h.mem hocc, hr⟩

theorem Closed.unshared (h : Closed schema jobs) (hdepth : ∀ v ∈ jobs, v.1 ≤ maxWalkDepth)
    (honce : ∀ v ∈ jobs, ∀ w ∈ jobs, ∀ ref ∈ v.2.ref?, ∀ ref' ∈ w.2.ref?,
      seenKey ref v.2.path = seenKey ref' w.2.path →
      ref = ref' ∧ v.2.path = w.2.path ∧ v.2.branchKey = w.2.branchKey) : Unshared schema where
  shallow _ _ hocc _ := hdepth _ (h.mem hocc)
  once _ _ _ _ ref ref' hocc hocc' hr hr' _ hkey :=
    honce _ (h.mem hocc) _ (h.mem hocc') ref hr ref' hr' hkey

/-- A node that requires a member. -/
def requiring : Json := .obj [(js "required", .arr [.str (js "x")])]

/-- The node at a property. -/
def inPlace : Json := .obj [(js "properties", .obj [(js "a", requiring)])]

/-- The node as a definition of its own. -/
def asDefinition : Json :=
  .obj [(js "properties", .obj [(js "a", .obj (refTo (js "A")))]),
    (js "$defs", .obj [(js "A", requiring)])]

/-- The copy of the definition in its place. -/
def asCopy : Json :=
  .obj [(js "properties", .obj [(js "a", requiring)]), (js "$defs", .obj [(js "A", requiring)])]

/-- The jobs of `inPlace`. -/
def inPlaceJobs : List (Nat × Job) :=
  [(0, rootJob inPlace), (1, ⟨requiring, js "/a", js "root", false⟩)]

/-- The jobs of `asDefinition`. -/
def asDefinitionJobs : List (Nat × Job) :=
  [(0, rootJob asDefinition), (1, ⟨.obj (refTo (js "A")), js "/a", js "root", false⟩),
    (2, ⟨requiring, js "/a", js "root", false⟩)]

theorem closed_inPlace : Closed inPlace inPlaceJobs where
  root := by decide
  nexts := by decide

theorem closed_asDefinition : Closed asDefinition asDefinitionJobs where
  root := by decide
  nexts := by decide

theorem inlinable_asDefinition : Inlinable asDefinition [js "properties", js "a"]
    (refTo (js "A")) requiring requiring := by
  have href : ∀ ref, Refers asDefinition ref → ref = definitionRef (js "A") := by
    intro ref hr
    obtain ⟨v, hv, hr⟩ := closed_asDefinition.exists_of_refers hr
    have hall : ∀ v ∈ asDefinitionJobs, ∀ ref ∈ v.2.ref?, ref = definitionRef (js "A") := by
      decide
    exact hall v hv ref hr
  constructor
  · exact closed_asDefinition.unshared (by decide) (by decide)
  · rfl
  · intro ref rest hr hloc
    rw [href ref hr, segments_definitionRef] at hloc
    exact absurd (List.cons.inj hloc).1 (by decide)
  · intro ref hr _
    rw [href ref hr, LeadsToNode, resolvePointer_definitionRef]
    exact ⟨_, rfl⟩
  · exact fun _ => ⟨_, rfl⟩

/-- A subschema moved to a definition of its own, and a copy of the definition. -/
theorem sameSurfaces_asDefinition :
    SameSurfaces inPlace asDefinition ∧ SameSurfaces asDefinition asCopy := by
  have hextract : (Edit.extract [js "properties", js "a"] (js "A")).apply inPlace =
      some asDefinition := rfl
  have hinline : (Edit.inline [js "properties", js "a"]).apply asDefinition = some asCopy := rfl
  refine ⟨sameSurfaces_of_unnoticed hextract ?_, sameSurfaces_of_unnoticed hinline ?_⟩
  · intro node defined hat hdef
    have hnode : nodeAt [js "properties", js "a"] inPlace = some requiring := rfl
    have hdefined : define inPlace (js "A") requiring = some asCopy := rfl
    obtain rfl := Option.some.inj (hnode.symm.trans hat)
    obtain rfl := Option.some.inj (hdefined.symm.trans hdef)
    have hback : replaceAt (.obj (refTo (js "A"))) [js "properties", js "a"] asCopy =
        asDefinition := rfl
    rw [hback]
    refine ⟨inlinable_asDefinition, fun ref hr => ?_⟩
    obtain ⟨v, hv, hr⟩ := closed_inPlace.exists_of_refers hr
    have hnone : ∀ v ∈ inPlaceJobs, v.2.ref? = none := by decide
    cases (hnone v hv).symm.trans hr
  · intro members target copy hin
    have hnode : nodeAt [js "properties", js "a"] asDefinition = some (.obj (refTo (js "A"))) := rfl
    obtain rfl := Json.obj.inj (Option.some.inj (hnode.symm.trans hin.at_loc))
    obtain ⟨ref, href, hres⟩ := hin.refers
    obtain rfl := Option.some.inj (href.symm.trans rfl)
    have htarget : resolvePointer asDefinition (definitionRef (js "A")) = some requiring :=
      rfl
    obtain rfl := Option.some.inj (htarget.symm.trans hres)
    obtain rfl := Option.some.inj (inlined_refTo.symm.trans hin.copied)
    exact inlinable_asDefinition

/-- Two alternatives that reach one member through one definition. -/
def sharing : Json :=
  .obj [(js "anyOf", .arr [viaDefinition, viaDefinition]), (js "$defs", .obj [(js "A", requiring)])]
where
  viaDefinition : Json :=
    .obj [(js "properties", .obj [(js "a", .obj (refTo (js "A")))])]

/-- A copy of the definition in the second alternative. -/
def copied : Json :=
  .obj [(js "anyOf", .arr [sharing.viaDefinition, inPlace]),
    (js "$defs", .obj [(js "A", requiring)])]

/-- The jobs of `sharing`. -/
def sharingJobs : List (Nat × Job) :=
  [(0, rootJob sharing), (1, ⟨sharing.viaDefinition, [], js "root>anyOf0@", false⟩),
    (2, ⟨.obj (refTo (js "A")), js "/a", js "root>anyOf0@", false⟩),
    (3, ⟨requiring, js "/a", js "root>anyOf0@", false⟩),
    (1, ⟨sharing.viaDefinition, [], js "root>anyOf1@", false⟩),
    (2, ⟨.obj (refTo (js "A")), js "/a", js "root>anyOf1@", false⟩),
    (3, ⟨requiring, js "/a", js "root>anyOf1@", false⟩)]

theorem closed_sharing : Closed sharing sharingJobs where
  root := by decide
  nexts := by decide

/-- A definition that two alternatives reach at one path is walked for the first one only. -/
theorem not_hidesDefinitions : ¬ HidesDefinitions := by
  intro h
  have hacyclic : AcyclicRefs sharing := by
    refine ⟨3, fun depth job hocc => ?_⟩
    have hdepths : ∀ v ∈ sharingJobs, v.1 ≤ 3 := by decide
    exact hdepths _ (closed_sharing.mem hocc)
  have happly : (Edit.inline [js "anyOf", js "1", js "properties", js "a"]).apply sharing =
      some copied := rfl
  have hsame := h sharing hacyclic _ copied happly ⟨js "/a", .required, js "x"⟩
  have hlisted : ⟨js "/a", .required, js "x"⟩ ∈ enumerateSchema copied := by decide
  have hunlisted : ⟨js "/a", .required, js "x"⟩ ∉ enumerateSchema sharing := by decide
  exact hunlisted (hsame.mpr hlisted)

end Samples

end OpenWop.Schema
