import OpenWop.Codemods.DiscoveryStages

/-!
# What the discovery codemod keeps

What becomes of every member of a document that is not refused, with the members v2 drops set
apart, and that a second run changes nothing.
-/

namespace OpenWop.Codemods.DiscoveryDocument

open OpenWop.Js OpenWop.Eval OpenWop.Content OpenWop.Codemods

section Property

variable (toLowerCase : JsString → JsString)

/-- The second value is the first, if that is no object, and else keeps its members but these. -/
def KeptBut (names : List JsString) (v w : Json) : Prop :=
  match v with
  | .obj ms => ∃ ns, w = .obj ns ∧
      ∀ n x, n ∉ names → Record.get? ms n = some x → Record.get? ns n = some x
  | v => w = v

/-- The same profiles in their order, the alias under the name it stands for. -/
def ProfilesKept (v w : Json) : Prop :=
  match v with
  | .arr items => ∃ outs, w = .arr outs ∧ List.Forall₂ (fun p q =>
      p = .str (js "openwop-core") ∧ q = .str (js "openwop-discovery-core") ∨
        p ≠ .str (js "openwop-core") ∧ q = p) items outs
  | v => w = v

/-- The legacy profile is listed. -/
def listsLegacy (l : Legacy) (v : Json) : Bool :=
  ((Json.items? (v.member? (js "profiles"))).getD []).contains (.str l.id)

/-- An embedded protocol keeps its members, but that a Boolean `supported` is implied, and the
legacy profile and its version are not listed. -/
structure FamilyKept (l : Legacy) (v w : Json) : Prop where
  members : KeptBut [js "supported", js "profiles", js "protocolVersions"] v w
  supported : ∀ x, v.member? (js "supported") = some x → (∀ b, x ≠ .bool b) →
    w.member? (js "supported") = some x
  profiles : ∀ x, v.member? (js "profiles") = some x →
    w.member? (js "profiles") = some (without l.id x)
  versions : ∀ x, v.member? (js "protocolVersions") = some x →
    w.member? (js "protocolVersions") = some (if listsLegacy l v then without l.version x else x)

/-- The replay block keeps its members but `fork`, and where that was true it has modes. -/
structure ReplayKept (v w : Json) : Prop where
  members : KeptBut [js "fork"] v w
  modes : v.member? (js "fork") = some (.bool true) → (w.member? (js "modes")).isSome

/-- The vendor of the document. -/
def vendorOf (doc : Record JsString Json) : JsString :=
  organization toLowerCase (rootOf doc (js "implementation"))

/-- The root members whose v2 form differs. -/
def special : List JsString :=
  [js "profiles", js "contractProvenance", js "auth", js "a2a", js "mcp", js "replay",
    js "supportedTransports", js "grpc", js "extensions"]

/-- What becomes of the members. A root member is one that has its plain name, or a mirror only. -/
structure Lossless (doc out : Record JsString Json) : Prop where
  mirrors : ∀ x v w, Record.get? doc (dotted x) = some v → Record.get? doc x = some w → eq w v = true
  others : ∀ k v, startsWith k (js "host.") = false → k ∉ special → rootOf doc k = some v →
    Record.get? out k = some v
  profiles : ∀ v, rootOf doc (js "profiles") = some v →
    ∃ w, Record.get? out (js "profiles") = some w ∧ ProfilesKept v w
  auth : ∀ v, rootOf doc (js "auth") = some v →
    ∃ w, Record.get? out (js "auth") = some w ∧ KeptBut [js "subjectLinking"] v w
  families : ∀ l ∈ [a2aLegacy, mcpLegacy], ∀ v, rootOf doc l.fam = some v →
    v.member? (js "supported") ≠ some (.bool false) →
      ∃ w, Record.get? out l.fam = some w ∧ FamilyKept l v w
  replay : ∀ v, rootOf doc (js "replay") = some v →
    ∃ w, Record.get? out (js "replay") = some w ∧ ReplayKept v w
  extensions : ∀ v, rootOf doc (js "extensions") = some v →
    ∃ w, Record.get? out (js "extensions") = some w ∧ KeptBut [] v w
  moved : ∀ x ∈ extensionFamilies, Record.get? doc x = none →
    ∀ v, Record.get? doc (dotted x) = some v → ∃ ext,
      Record.get? out (js "extensions") = some (.obj ext) ∧
        Record.get? ext (vendorOf toLowerCase doc ++ js "." ++ x) = some v

/-- What the codemod makes of a document it does not refuse. -/
def Migrates (doc : Record JsString Json) : Prop :=
  ∀ out, transform toLowerCase (.obj doc) = .ok out →
    ∃ members, out = .obj members ∧ Lossless toLowerCase doc members ∧
      transform toLowerCase out = .ok out

/-- Each name is there once, no mirror is mirrored, the embedded protocols are no arrays, the modes
are one, and where a family moves, the extensions are an object that has no other under its name. -/
structure Regular (doc : Record JsString Json) : Prop where
  nodup : (Record.keys doc).Nodup
  dotted : OnceDotted doc
  families : ∀ l ∈ [a2aLegacy, mcpLegacy], ∀ items, rootOf doc l.fam ≠ some (.arr items)
  modes : ∀ v m, rootOf doc (js "replay") = some v → v.member? (js "fork") = some (.bool true) →
    v.member? (js "modes") = some m → ∃ items, m = .arr items
  extensions : ∀ x ∈ extensionFamilies, Record.get? doc x = none →
    ∀ v, Record.get? doc (DiscoveryDocument.dotted x) = some v →
      ∀ e, rootOf doc (js "extensions") = some e → ∃ ms, e = .obj ms ∧
        ∀ w, Record.get? ms (vendorOf toLowerCase doc ++ js "." ++ x) = some w → w = v

end Property

section Values

theorem keptBut_refl (names : List JsString) (v : Json) : KeptBut names v v := by
  cases v with
  | obj ms => exact ⟨ms, rfl, fun _ _ _ h => h⟩
  | null | bool _ | num _ | str _ | arr _ => rfl

theorem profilesKept_aliased (v : Json) : ProfilesKept v (aliased v) := by
  cases v with
  | arr items =>
    refine ⟨_, rfl, List.forall₂_map_right_iff.mpr (List.forall₂_same.mpr fun p _ => ?_)⟩
    split
    · next h => exact Or.inl ⟨h, rfl⟩
    · next h => exact Or.inr ⟨h, rfl⟩
  | null | bool _ | num _ | str _ | obj _ => rfl

theorem aliased_aliased (v : Json) : aliased (aliased v) = aliased v := by
  cases v with
  | arr items =>
    rw [aliased, aliased, List.map_map, Json.arr.injEq]
    refine List.map_congr_left fun p _ => ?_
    have hne : js "openwop-discovery-core" ≠ js "openwop-core" := by decide
    rw [Function.comp_apply]
    split
    · rw [if_neg (fun h => hne (Json.str.inj h))]
    · rfl
  | null | bool _ | num _ | str _ | obj _ => rfl

theorem erase_erase (r : Record JsString Json) (k : JsString) :
    Record.erase (Record.erase r k) k = Record.erase r k := by
  rw [Record.erase, Record.erase, List.filter_filter]
  simp only [Bool.and_self]

theorem keptBut_erase (ms : Record JsString Json) (k : JsString) :
    KeptBut [k] (.obj ms) (.obj (Record.erase ms k)) := by
  refine ⟨_, rfl, fun n x hn hx => ?_⟩
  rw [Record.get?_erase, if_neg (fun h : n = k => hn (List.mem_singleton.mpr h)), hx]

theorem keptBut_withoutSubjectLinking (v : Json) :
    KeptBut [js "subjectLinking"] v (withoutSubjectLinking v) := by
  cases v with
  | obj ms => exact keptBut_erase ms _
  | null | bool _ | num _ | str _ | arr _ => rfl

theorem withoutSubjectLinking_again (v : Json) :
    withoutSubjectLinking (withoutSubjectLinking v) = withoutSubjectLinking v := by
  cases v with
  | obj ms => exact congrArg Json.obj (erase_erase ms _)
  | null | bool _ | num _ | str _ | arr _ => rfl

end Values

section Family

variable {fam : JsString} {l : Legacy} {v u w : Json} {o : Option Json}

/-- Without a Boolean `supported` a family stays. -/
theorem withoutSupported_eq (h : ∀ b, v.member? (js "supported") ≠ some (.bool b)) :
    withoutSupported fam v = .ok (some v) := by
  rw [withoutSupported]
  split
  · next hv => exact absurd hv (h false)
  · next hv => exact absurd hv (h true)
  · rfl

/-- What is left of a family, where it is not dropped, has no Boolean `supported`. -/
theorem withoutSupported_ok (h : withoutSupported fam v = .ok o) :
    o = none ∧ v.member? (js "supported") = some (.bool false) ∨
      ∃ u, o = some u ∧ (∀ b, u.member? (js "supported") ≠ some (.bool b)) ∧
        (u = v ∨ ∃ ms, v = .obj ms ∧ u = .obj (Record.erase ms (js "supported")) ∧
          v.member? (js "supported") = some (.bool true)) := by
  rw [withoutSupported] at h
  split at h
  · next hv => exact Or.inl ⟨(Except.ok.inj h).symm, hv⟩
  · next hv =>
    split at h
    · obtain rfl := Except.ok.inj h
      cases v with
      | obj ms =>
        refine Or.inr ⟨_, rfl, fun b hb => ?_, Or.inr ⟨ms, rfl, rfl, hv⟩⟩
        have hnone := Record.get?_erase_self ms (js "supported")
        exact nomatch hnone.symm.trans hb
      | null | bool _ | num _ | str _ | arr _ => cases hv
    · cases h
  · next hfalse htrue =>
    refine Or.inr ⟨v, (Except.ok.inj h).symm, fun b hb => ?_, Or.inl rfl⟩
    cases b with
    | false => exact hfalse hb
    | true => exact htrue hb

theorem without_of_not_mem {s : JsString} {x : Json}
    (h : ((Json.items? (some x)).getD []).contains (.str s) = false) : without s x = x := by
  cases x with
  | arr items =>
    rw [without, Json.arr.injEq, List.filter_eq_self]
    intro p hp
    rw [decide_eq_true_iff]
    rintro rfl
    have hin : items.contains (.str s) = true := List.contains_iff_mem.mpr hp
    exact Bool.false_ne_true (h.symm.trans hin)
  | null | bool _ | num _ | str _ | obj _ => rfl

theorem get?_stripped (g : Record JsString Json) (k s n : JsString) :
    Record.get? (stripped g k s) n =
      if n = k then (Record.get? g k).map (without s) else Record.get? g n := by
  have hkeep : (Record.get? g k).map (without s) = Record.get? g k →
      Record.get? g n = if n = k then (Record.get? g k).map (without s) else Record.get? g n := by
    intro h
    split
    · next heq => rw [heq, h]
    · rfl
  rw [stripped]
  cases hk : Record.get? g k with
  | none =>
    rw [hk] at hkeep
    exact hkeep rfl
  | some x =>
    rw [hk] at hkeep
    cases x with
    | arr items => exact Record.get?_set g k n _
    | null | bool _ | num _ | str _ | obj _ => exact hkeep rfl

/-- The legacy stage leaves what is no object. -/
theorem withoutLegacy_scalar (h : Json.isObject (some v) = false) :
    withoutLegacy l v = .ok (some v) := by
  rw [withoutLegacy, if_neg (by rw [h]; exact Bool.false_ne_true)]

/-- The members after the legacy stage. -/
theorem withoutLegacy_ok {ms : Record JsString Json} (h : withoutLegacy l (.obj ms) = .ok o) :
    ∃ ns, o = some (.obj ns) ∧ ∀ n, Record.get? ns n =
      if n = js "profiles" then (Record.get? ms (js "profiles")).map (without l.id)
      else if n = js "protocolVersions" then
        (Record.get? ms (js "protocolVersions")).map
          (if listsLegacy l (.obj ms) then without l.version else id)
      else Record.get? ms n := by
  have hspread : spread (.json (.obj ms)) = ms := rfl
  have hlists : ((Json.items? (Record.get? ms (js "profiles"))).getD []).contains (.str l.id) =
      listsLegacy l (.obj ms) := rfl
  simp only [withoutLegacy, Json.isObject, if_true, hspread, hlists] at h
  by_cases hlist : listsLegacy l (.obj ms) = true
  · rw [if_pos hlist] at h
    split_ifs at h
    · cases h
    refine ⟨_, (Except.ok.inj h).symm, fun n => ?_⟩
    have hne : js "protocolVersions" ≠ js "profiles" := by decide
    rw [get?_stripped, get?_stripped, get?_stripped, if_neg hne, if_pos hlist]
    by_cases hn : n = js "profiles"
    · rw [if_pos hn, if_pos hn, if_neg (by rw [hn]; exact hne.symm)]
    · rw [if_neg hn, if_neg hn]
  · rw [if_neg hlist] at h
    refine ⟨ms, (Except.ok.inj h).symm, fun n => ?_⟩
    rw [if_neg hlist, Option.map_id, id]
    split
    · next hn =>
      rw [hn]
      cases hx : Record.get? ms (js "profiles") with
      | none => rfl
      | some x =>
        have hno := (Bool.not_eq_true _).mp hlist
        rw [← hlists, hx] at hno
        rw [Option.map_some, without_of_not_mem hno]
    · split
      · next hn => rw [hn]
      · rfl

/-- Once the legacy profile is gone, the stage leaves the family. -/
theorem withoutLegacy_again {ns : Record JsString Json} {x : Option Json}
    (h : Record.get? ns (js "profiles") = x.map (without l.id)) :
    withoutLegacy l (.obj ns) = .ok (some (.obj ns)) := by
  have hspread : spread (.json (.obj ns)) = ns := rfl
  have hno : ((Json.items? (Record.get? ns (js "profiles"))).getD []).contains (.str l.id) = false := by
    rw [h]
    rcases x with _ | x
    · rfl
    · cases x with
      | arr items =>
        rw [← Bool.not_eq_true, List.contains_iff_mem]
        intro hin
        exact of_decide_eq_true (List.mem_filter.mp hin).2 rfl
      | null | bool _ | num _ | str _ | obj _ => rfl
  simp only [withoutLegacy, Json.isObject, if_true, hspread, hno, Bool.false_eq_true, if_false]

/-- What a family becomes, and that it stays so. -/
theorem family_ok (harray : ∀ items, v ≠ .arr items)
    (h : (withoutSupported fam v >>= fun o => o.elim (.ok none) (withoutLegacy l)) = .ok o) :
    o = none ∧ v.member? (js "supported") = some (.bool false) ∨
      ∃ w, o = some w ∧ FamilyKept l v w ∧ withoutSupported fam w = .ok (some w) ∧
        withoutLegacy l w = .ok (some w) := by
  obtain ⟨o', hsupported, hlegacy⟩ := bind_ok.mp h
  rcases withoutSupported_ok hsupported with ⟨rfl, hfalse⟩ | ⟨u, rfl, hbool, hu⟩
  · exact Or.inl ⟨(Except.ok.inj hlegacy).symm, hfalse⟩
  refine Or.inr ?_
  change withoutLegacy l u = .ok o at hlegacy
  -- a family that is no object is left by both stages
  by_cases hobject : Json.isObject (some v) = true
  swap
  · have hscalar := (Bool.not_eq_true _).mp hobject
    obtain rfl : u = v := hu.resolve_right fun ⟨ms, hms, _⟩ => by
      rw [hms] at hscalar
      cases hscalar
    rw [withoutLegacy_scalar hscalar] at hlegacy
    have hnone : ∀ n, u.member? n = none := fun n => by
      cases u with
      | obj ms => cases hscalar
      | null | bool _ | num _ | str _ | arr _ => rfl
    refine ⟨u, (Except.ok.inj hlegacy).symm, ⟨keptBut_refl _ u, fun x hx => ?_, fun x hx => ?_,
      fun x hx => ?_⟩, withoutSupported_eq hbool, withoutLegacy_scalar hscalar⟩
    all_goals
      rw [hnone] at hx
      cases hx
  obtain ⟨ms, rfl⟩ : ∃ ms, v = .obj ms := by
    cases v with
    | obj ms => exact ⟨ms, rfl⟩
    | arr items => exact absurd rfl (harray items)
    | null | bool _ | num _ | str _ => cases hobject
  obtain ⟨us, rfl, hread⟩ : ∃ us, u = .obj us ∧
      ∀ n, n ≠ js "supported" → Record.get? us n = Record.get? ms n := by
    rcases hu with rfl | ⟨ms', hms, rfl, -⟩
    · exact ⟨ms, rfl, fun _ _ => rfl⟩
    · obtain rfl := Json.obj.inj hms
      exact ⟨_, rfl, fun n hn => (Record.get?_erase _ _ _).trans (if_neg hn)⟩
  obtain ⟨ns, rfl, hns⟩ := withoutLegacy_ok hlegacy
  have hlists : listsLegacy l (.obj us) = listsLegacy l (.obj ms) := by
    have hsame : (Json.obj us).member? (js "profiles") = (Json.obj ms).member? (js "profiles") :=
      hread _ (by decide)
    rw [listsLegacy, hsame, ← listsLegacy]
  have hsupport : Record.get? ns (js "supported") = Record.get? us (js "supported") := by
    rw [hns, if_neg (by decide), if_neg (by decide)]
  have hstays : withoutSupported fam (.obj ns) = .ok (some (.obj ns)) :=
    withoutSupported_eq fun b hb => hbool b (hsupport.symm.trans hb)
  have hagain : withoutLegacy l (.obj ns) = .ok (some (.obj ns)) :=
    withoutLegacy_again ((hns _).trans (if_pos rfl))
  refine ⟨_, rfl, ⟨⟨ns, rfl, fun n x hn hx => ?_⟩, fun x hx hnot => ?_, fun x hx => ?_,
    fun x hx => ?_⟩, hstays, hagain⟩
  · simp only [List.mem_cons, List.not_mem_nil, or_false, not_or] at hn
    rw [hns, if_neg hn.2.1, if_neg hn.2.2, hread n hn.1, hx]
  · refine hsupport.trans ?_
    rcases hu with heq | ⟨ms', hms, -, htrue⟩
    · obtain rfl := Json.obj.inj heq
      exact hx
    · exact absurd (Option.some.inj (hx.symm.trans htrue)) (hnot true)
  · refine (hns _).trans ?_
    have hx' : Record.get? us (js "profiles") = some x := (hread _ (by decide)).trans hx
    rw [if_pos rfl, hx', Option.map_some]
  · refine (hns _).trans ?_
    have hx' : Record.get? us (js "protocolVersions") = some x := (hread _ (by decide)).trans hx
    rw [if_neg (by decide), if_pos rfl, hx', hlists, Option.map_some]
    split <;> rfl

end Family

section Replay

variable {v : Json} {o : Option Json}

/-- Without `fork` the replay block stays. -/
theorem withModes_eq (h : v.member? (js "fork") = none) : withModes v = .ok (some v) := by
  rw [withModes, h]

/-- What the replay block becomes, and that it stays so. -/
theorem replay_ok (hmodes : ∀ m, v.member? (js "fork") = some (.bool true) →
      v.member? (js "modes") = some m → ∃ items, m = .arr items) (h : withModes v = .ok o) :
    ∃ w, o = some w ∧ ReplayKept v w ∧ withModes w = .ok (some w) := by
  cases hfork : v.member? (js "fork") with
  | none =>
    rw [withModes_eq hfork] at h
    refine ⟨v, (Except.ok.inj h).symm, ⟨keptBut_refl _ v, fun htrue => ?_⟩, withModes_eq hfork⟩
    rw [hfork] at htrue
    cases htrue
  | some fork =>
    cases v with
    | null | bool _ | num _ | str _ | arr _ => cases hfork
    | obj ms =>
      have hspread : spread (.json (.obj ms)) = ms := rfl
      simp only [withModes, hfork, hspread] at h
      split_ifs at h with hempty hnone
      · cases h
      · obtain rfl := Except.ok.inj h
        have hget : ∀ n, Record.get? (Record.erase (Record.set ms (js "modes")
            (.arr [.str (js "branch"), .str (js "replay")])) (js "fork")) n =
            if n = js "fork" then none
            else if n = js "modes" then some (.arr [.str (js "branch"), .str (js "replay")])
            else Record.get? ms n := fun n => by
          rw [Record.get?_erase, Record.get?_set]
        refine ⟨_, rfl, ⟨⟨_, rfl, fun n x hn hx => ?_⟩, fun _ => ?_⟩,
          withModes_eq ((hget _).trans (if_pos rfl))⟩
        · rw [hget, if_neg (fun h : n = _ => hn (List.mem_singleton.mpr h))]
          split
          · next heq =>
            -- modes that are there are an array
            subst heq
            obtain ⟨items, rfl⟩ := hmodes x (hnone.1 ▸ hfork) hx
            have hitems := hnone.2
            rw [hx] at hitems
            cases hitems
          · exact hx
        · change (Record.get? _ (js "modes")).isSome
          rw [hget, if_neg (by decide), if_pos rfl]
          rfl
      · obtain rfl := Except.ok.inj h
        have hget : ∀ n, Record.get? (Record.erase ms (js "fork")) n =
            if n = js "fork" then none else Record.get? ms n := fun n => Record.get?_erase ms _ n
        refine ⟨_, rfl, ⟨keptBut_erase ms _, fun htrue => ?_⟩,
          withModes_eq ((hget _).trans (if_pos rfl))⟩
        change (Record.get? _ (js "modes")).isSome
        rw [hget, if_neg (by decide)]
        have htrue' : fork = .bool true := Option.some.inj (hfork.symm.trans htrue)
        cases hm : Record.get? ms (js "modes") with
        | none =>
          rw [hm] at hnone
          exact absurd ⟨htrue', rfl⟩ hnone
        | some m => rfl

end Replay

section Correct

variable {toLowerCase : JsString → JsString} {doc mirrored written r : Record JsString Json}

/-- The stages of a run. -/
structure Ran (toLowerCase : JsString → JsString) (doc mirrored written r : Record JsString Json) :
    Prop where
  root : ∀ k, startsWith k (js "host.") = false → Record.get? mirrored k = rootOf doc k
  left : ∀ x, Record.get? mirrored (dotted x) =
    if x ∈ extensionFamilies ∧ Record.get? doc x = none then Record.get? doc (dotted x) else none
  agree : ∀ x v w, Record.get? doc (dotted x) = some v → Record.get? doc x = some w → eq w v = true
  chained : ∀ k, chain rewrites k (Record.get? mirrored k) = .ok (Record.get? written k)
  extended : Extended toLowerCase written r

theorem ran_of_ok (hdoc : Regular toLowerCase doc) {out : Json}
    (h : transform toLowerCase (.obj doc) = .ok out) :
    ∃ mirrored written r, out = .obj r ∧ Ran toLowerCase doc mirrored written r := by
  rw [transform] at h
  simp only [bind_ok, pure, Except.pure, Except.ok.injEq] at h
  obtain ⟨mirrored, hmirrors, written, hwritten, r, hmoved, rfl⟩ := h
  have hrun := (mirrored_nil hdoc.nodup).run hdoc.dotted hdoc.nodup (fun _ h => h) hmirrors
  rw [List.nil_append] at hrun
  have habsent : ∀ x, dotted x ∉ Record.keys doc → Record.get? doc (dotted x) = none := fun x hx =>
    Record.get?_eq_none_iff.mpr hx
  obtain ⟨hnodup, hchain⟩ := rewriteMembers_ok hrun.nodup hwritten
  refine ⟨mirrored, written, r, rfl, fun k hk => ?_, fun x => ?_, fun x v w hv hw => ?_, hchain,
    extended_of_ok hnodup hmoved⟩
  · rw [hrun.root k hk]
    split
    · rfl
    · next hno => rw [rootOf, habsent k hno, ite_self, Option.or_none]
  · rw [hrun.left x]
    by_cases hx : dotted x ∈ Record.keys doc
    · by_cases hext : x ∈ extensionFamilies ∧ Record.get? doc x = none
      · rw [if_pos hext, if_neg (fun h => h.2 hext)]
      · rw [if_neg hext, if_pos ⟨hx, hext⟩]
    · rw [if_neg (fun h => hx h.1), habsent x hx, ite_self]
  · exact hrun.agree x v w (Record.get?_isSome_iff.mp (Option.isSome_of_eq_some hv)) hv hw

theorem rewrites_facts : ∀ k ∈ rewrites.map Prod.fst, isMoving k = false ∧
    k ≠ js "extensions" ∧ startsWith k (js "host.") = false ∧ k ∈ special := by
  decide +kernel

/-- The names of the rewritten members. -/
theorem rewrites_names : rewrites.map Prod.fst = [js "profiles", js "contractProvenance", js "auth",
    js "a2a", js "mcp", js "replay", js "a2a", js "mcp", js "supportedTransports", js "grpc"] := by
  rfl

theorem extensions_not_rewritten : js "extensions" ∉ rewrites.map Prod.fst := fun h =>
  (rewrites_facts _ h).2.1 rfl

theorem Ran.written_eq (h : Ran toLowerCase doc mirrored written r) {k : JsString}
    (hk : k ∉ rewrites.map Prod.fst) : Record.get? written k = Record.get? mirrored k := by
  have hchain := h.chained k
  rw [chain_of_not_mem hk] at hchain
  exact (Except.ok.inj hchain).symm

/-- A rewritten member reads as its rewrites make it. -/
theorem Ran.rewritten (h : Ran toLowerCase doc mirrored written r) {k : JsString}
    (hk : k ∈ rewrites.map Prod.fst) : chain rewrites k (rootOf doc k) = .ok (Record.get? r k) := by
  obtain ⟨hmoving, hne, hhost, -⟩ := rewrites_facts k hk
  rw [h.extended.others k hmoving hne, ← h.root k hhost]
  exact h.chained k

/-- A rewritten member that is there was there. -/
theorem Ran.source (h : Ran toLowerCase doc mirrored written r) {k : JsString} {w : Json}
    (hk : k ∈ rewrites.map Prod.fst) (hw : Record.get? r k = some w) :
    ∃ v, rootOf doc k = some v ∧ chain rewrites k (some v) = .ok (some w) := by
  have hchain := h.rewritten hk
  rw [hw] at hchain
  cases hv : rootOf doc k with
  | none =>
    rw [hv, chain_none] at hchain
    cases hchain
  | some v => exact ⟨v, rfl, hv ▸ hchain⟩

/-- The rewrites of an embedded protocol. -/
theorem chain_family {l : Legacy} (hl : l ∈ [a2aLegacy, mcpLegacy]) :
    l.fam ∈ rewrites.map Prod.fst ∧ ∀ v, chain rewrites l.fam (some v) =
      (withoutSupported l.fam v >>= fun o => o.elim (.ok none) (withoutLegacy l)) >>= .ok := by
  simp only [List.mem_cons, List.not_mem_nil, or_false] at hl
  have hassoc : ∀ v, (withoutSupported l.fam v >>= fun o => o.elim (.ok none) (withoutLegacy l)) >>=
      Except.ok = withoutSupported l.fam v >>= fun o =>
        o.elim (.ok none) (withoutLegacy l) >>= Except.ok := fun v => bind_assoc _ _ _
  simp only [hassoc]
  rcases hl with rfl | rfl
  all_goals exact ⟨by simp [rewrites_names, a2aLegacy, mcpLegacy], fun v => rfl⟩

/-- A mirror that names an extension family is left to the last stage, no other mirror is. -/
theorem Ran.written_dotted (h : Ran toLowerCase doc mirrored written r) (x : JsString) :
    Record.get? written (dotted x) =
      if x ∈ extensionFamilies ∧ Record.get? doc x = none then Record.get? doc (dotted x) else none := by
  have hno : dotted x ∉ rewrites.map Prod.fst := fun hin => by
    have hhost := (rewrites_facts _ hin).2.2.1
    rw [startsWith_dotted] at hhost
    cases hhost
  rw [h.written_eq hno, h.left x]

theorem Ran.organization_eq (h : Ran toLowerCase doc mirrored written r) :
    organizationOf toLowerCase written = vendorOf toLowerCase doc := by
  rw [organizationOf, vendorOf, h.written_eq (by decide +kernel), h.root _ (by decide)]

/-- A family that moves. -/
theorem Ran.moving (h : Ran toLowerCase doc mirrored written r) {k : JsString} {v : Json}
    (hk : isMoving k = true) (hv : Record.get? written k = some v) :
    ∃ x ∈ extensionFamilies, k = dotted x ∧ Record.get? doc x = none ∧
      Record.get? doc (dotted x) = some v := by
  obtain ⟨x, hx, rfl⟩ := isMoving_iff.mp hk
  rw [h.written_dotted x] at hv
  split at hv
  · next hext => exact ⟨x, hx, rfl, hext.2, hv⟩
  · cases hv

theorem lossless_of_ran (hdoc : Regular toLowerCase doc)
    (h : Ran toLowerCase doc mirrored written r) : Lossless toLowerCase doc r := by
  have hname : ∀ x, extensionName (organizationOf toLowerCase written) (dotted x) =
      vendorOf toLowerCase doc ++ js "." ++ x := fun x => by
    rw [extensionName, h.organization_eq, drop_dotted]
  have hroot : Record.get? written (js "extensions") = rootOf doc (js "extensions") := by
    rw [h.written_eq extensions_not_rewritten, h.root _ (by decide)]
  refine ⟨h.agree, fun k v hhost hk hv => ?_, fun v hv => ?_, fun v hv => ?_,
    fun l hl v hv hsupported => ?_, fun v hv => ?_, fun v hv => ?_, fun x hx hnone v hv => ?_⟩
  · have hno : k ∉ rewrites.map Prod.fst := fun hin => hk (rewrites_facts k hin).2.2.2
    have hmoving : isMoving k = false := by
      rw [← Bool.not_eq_true, isMoving_iff]
      rintro ⟨x, -, rfl⟩
      rw [startsWith_dotted] at hhost
      cases hhost
    have hne : k ≠ js "extensions" := by
      rintro rfl
      exact hk (by decide)
    rw [h.extended.others k hmoving hne, h.written_eq hno, h.root k hhost, hv]
  · have hchain := h.rewritten (k := js "profiles") (by simp [rewrites_names])
    rw [hv] at hchain
    exact ⟨_, (Except.ok.inj hchain).symm, profilesKept_aliased v⟩
  · have hchain := h.rewritten (k := js "auth") (by simp [rewrites_names])
    rw [hv] at hchain
    exact ⟨_, (Except.ok.inj hchain).symm, keptBut_withoutSubjectLinking v⟩
  · obtain ⟨hin, hrewrites⟩ := chain_family hl
    have hchain := h.rewritten hin
    rw [hv, hrewrites] at hchain
    obtain ⟨o, ho, heq⟩ := bind_ok.mp hchain
    obtain rfl := Except.ok.inj heq
    have harray : ∀ items, v ≠ .arr items := fun items heq =>
      hdoc.families l hl items (heq ▸ hv)
    rcases family_ok harray ho with ⟨-, hfalse⟩ | ⟨w, hw, hkept, -⟩
    · exact absurd hfalse hsupported
    · exact ⟨w, hw, hkept⟩
  · have hchain := h.rewritten (k := js "replay") (by simp [rewrites_names])
    rw [hv] at hchain
    obtain ⟨o, ho, heq⟩ := bind_ok.mp hchain
    obtain ⟨w, rfl, hkept, -⟩ := replay_ok (fun m => hdoc.modes v m hv) ho
    exact ⟨w, (Except.ok.inj heq).symm, hkept⟩
  · by_cases hall : ∀ k, isMoving k = true → Record.get? written k = none
    · exact ⟨v, by rw [h.extended.still hall, hroot, hv], keptBut_refl _ v⟩
    push Not at hall
    obtain ⟨k, hk, hsome⟩ := hall
    obtain ⟨u, hu⟩ := Option.ne_none_iff_exists'.mp hsome
    obtain ⟨x, hx, rfl, hnone, hux⟩ := h.moving hk hu
    obtain ⟨ext, hext, -, hold⟩ := h.extended.extensions _ u hk hu
    obtain ⟨ms, rfl, -⟩ := hdoc.extensions x hx hnone u hux v hv
    refine ⟨_, hext, ext, rfl, fun n y _ hy => ?_⟩
    have hms : extensionsOf written = ms := by
      rw [extensionsOf, hroot, hv]
      rfl
    rcases hold n y (hms.symm ▸ hy) with heq | ⟨l, z, hl, hz, rfl, heq⟩
    · exact heq
    · -- what is written there anew is what was there
      obtain ⟨x', hx', rfl, hnone', hz'⟩ := h.moving hl hz
      obtain ⟨ms', hms', hsame⟩ := hdoc.extensions x' hx' hnone' z hz' _ hv
      obtain rfl := Json.obj.inj hms'
      rw [hname] at hy
      rw [heq, hsame y hy]
  · have hmoving : isMoving (dotted x) = true := isMoving_iff.mpr ⟨x, hx, rfl⟩
    have hread : Record.get? written (dotted x) = some v := by
      rw [h.written_dotted x, if_pos ⟨hx, hnone⟩, hv]
    obtain ⟨ext, hext, hvalue, -⟩ := h.extended.extensions _ v hmoving hread
    exact ⟨ext, hext, hname x ▸ hvalue⟩

/-- A document whose members are written already, and that has no mirror, stays. -/
theorem transform_eq_self {doc : Record JsString Json}
    (hmirrors : ∀ k ∈ Record.keys doc, startsWith k (js "host.") = false)
    (hwritten : ∀ e ∈ rewrites, ∀ v, Record.get? doc e.1 = some v → e.2 v = .ok (some v)) :
    transform toLowerCase (.obj doc) = .ok (.obj doc) := by
  have hmoving : (doc.filter fun m => isMoving m.1) = [] := by
    refine List.filter_eq_nil_iff.mpr fun m hm hmoving => ?_
    rw [isMoving, hmirrors m.1 (List.mem_map_of_mem hm)] at hmoving
    cases hmoving
  have hmoved : moveExtensions toLowerCase doc = .ok doc := by
    rw [moveExtensions]
    exact if_pos hmoving
  rw [transform]
  simp only [bind_ok, pure, Except.pure]
  exact ⟨doc, mirrors_eq_self hmirrors, doc, rewriteMembers_eq_self hwritten, doc, hmoved, rfl⟩

/-- A second run changes nothing. -/
theorem again_of_ran (hdoc : Regular toLowerCase doc)
    (h : Ran toLowerCase doc mirrored written r) :
    transform toLowerCase (.obj r) = .ok (.obj r) := by
  have hdropped : ∀ k v, chain rewrites k (rootOf doc k) = .ok none → k ∈ rewrites.map Prod.fst →
      Record.get? r k ≠ some v := fun k v hchain hin hv =>
    nomatch (Except.ok.inj (hchain.symm.trans (h.rewritten hin))).trans hv
  have hfamily : ∀ l ∈ [a2aLegacy, mcpLegacy], ∀ v, Record.get? r l.fam = some v →
      withoutSupported l.fam v = .ok (some v) ∧ withoutLegacy l v = .ok (some v) := by
    intro l hl w hw
    obtain ⟨hin, hrewrites⟩ := chain_family hl
    obtain ⟨v, hv, hchain⟩ := h.source hin hw
    rw [hrewrites] at hchain
    obtain ⟨o, ho, heq⟩ := bind_ok.mp hchain
    obtain rfl := Except.ok.inj heq
    have harray : ∀ items, v ≠ .arr items := fun items heq =>
      hdoc.families l hl items (heq ▸ hv)
    rcases family_ok harray ho with ⟨hno, -⟩ | ⟨u, hu, -, hagain⟩
    · cases hno
    · obtain rfl := Option.some.inj hu
      exact hagain
  refine transform_eq_self (fun k hk => ?_) ?_
  · rw [← Bool.not_eq_true]
    intro hhost
    obtain ⟨x, rfl⟩ := exists_dotted hhost
    have hsome := Record.get?_isSome_iff.mpr hk
    cases hmoving : isMoving (dotted x) with
    | true =>
      rw [h.extended.moved _ hmoving] at hsome
      cases hsome
    | false =>
      have hne : dotted x ≠ js "extensions" := (ne_dotted (by decide) x).symm
      rw [h.extended.others _ hmoving hne, h.written_dotted x] at hsome
      split at hsome
      · next hext =>
        rw [isMoving_iff.mpr ⟨x, hext.1, rfl⟩] at hmoving
        cases hmoving
      · cases hsome
  · have hgone : ∀ k ∈ [js "contractProvenance", js "supportedTransports", js "grpc"], ∀ v,
        Record.get? r k = some v → dropped v = .ok (some v) := by
      intro k hk v hv
      have hin : k ∈ rewrites.map Prod.fst ∧ ∀ o, chain rewrites k o = .ok none := by
        simp only [List.mem_cons, List.not_mem_nil, or_false] at hk
        rcases hk with rfl | rfl | rfl
        all_goals exact ⟨by simp [rewrites_names], fun o => by cases o <;> rfl⟩
      exact absurd hv (hdropped k v (hin.2 _) hin.1)
    rw [List.forall_mem_cons, List.forall_mem_cons] at hgone
    obtain ⟨hprovenance, htransports, hgrpc⟩ := hgone
    have ha2a := hfamily a2aLegacy (List.mem_cons_self ..)
    have hmcp := hfamily mcpLegacy (List.mem_cons_of_mem _ (List.mem_singleton_self _))
    simp only [rewrites, List.forall_mem_cons, List.not_mem_nil, false_imp_iff, implies_true,
      and_true]
    refine ⟨fun w hw => ?_, hprovenance, fun w hw => ?_, fun w hw => (ha2a w hw).1,
      fun w hw => (hmcp w hw).1, fun w hw => ?_, fun w hw => (ha2a w hw).2,
      fun w hw => (hmcp w hw).2, htransports, hgrpc _ (List.mem_singleton_self _)⟩
    · obtain ⟨v, -, hchain⟩ := h.source (by simp [rewrites_names]) hw
      obtain rfl : aliased v = w := Option.some.inj (Except.ok.inj hchain)
      rw [aliased_aliased]
    · obtain ⟨v, -, hchain⟩ := h.source (by simp [rewrites_names]) hw
      obtain rfl : withoutSubjectLinking v = w := Option.some.inj (Except.ok.inj hchain)
      rw [withoutSubjectLinking_again]
    · obtain ⟨v, hv, hchain⟩ := h.source (by simp [rewrites_names]) hw
      obtain ⟨o, ho, heq⟩ := bind_ok.mp hchain
      obtain rfl := Except.ok.inj heq
      obtain ⟨u, hu, -, hagain⟩ := replay_ok (fun m => hdoc.modes v m hv) ho
      obtain rfl := Option.some.inj hu
      exact hagain

/-- A regular document that is not refused keeps every member, but for what v2 drops, and a second
run changes nothing. -/
theorem migrates (toLowerCase : JsString → JsString) (doc : Record JsString Json)
    (hdoc : Regular toLowerCase doc) : Migrates toLowerCase doc := by
  intro out hout
  obtain ⟨mirrored, written, r, rfl, hran⟩ := ran_of_ok hdoc hout
  exact ⟨r, rfl, lossless_of_ran hdoc hran, again_of_ran hdoc hran⟩

/-- A document with one extension family. -/
theorem migrates_kanban : Migrates id [(js "host.kanban", .obj []),
    (js "implementation", .obj [(js "vendor", .str (js "acme"))])] := by
  refine migrates id _ ⟨by decide, ⟨fun x hx => ?_, by decide⟩, fun l hl items hv => ?_,
    fun v m hv => ?_, fun x _ _ v _ e he => ?_⟩
  · rcases List.mem_cons.mp hx with hx | hx
    · obtain rfl : x = js "kanban" := dotted_inj hx
      decide
    · exact absurd (List.mem_singleton.mp hx).symm (ne_dotted (by decide) x)
  · simp only [List.mem_cons, List.not_mem_nil, or_false] at hl
    rcases hl with rfl | rfl
    all_goals exact nomatch hv
  · exact nomatch hv
  · exact nomatch he

/-- Every value of the document appears in the output, at the root or in the extensions, and a
second run changes nothing. -/
def AllAppear (toLowerCase : JsString → JsString) (doc : Record JsString Json) : Prop :=
  ∀ out, transform toLowerCase (.obj doc) = .ok out → transform toLowerCase out = .ok out ∧
    ∃ members, out = .obj members ∧ ∀ k v, Record.get? doc k = some v →
      v ∈ Record.values members ∨ ∃ ext, Record.get? members (js "extensions") = some (.obj ext) ∧
        v ∈ Record.values ext

/-- The provenance of the contract is dropped. -/
theorem not_allAppear_provenance : ¬ AllAppear id [(js "protocolVersion", .str (js "1.1")),
    (js "supportedEnvelopes", .arr [.str (js "error")]),
    (js "schemaVersions", .obj [(js "error", .num (.ofNat 1))]), (js "limits", .obj []),
    (js "contractProvenance", .obj [(js "suiteVersion", .str (js "1.159.0"))])] := by
  intro h
  have hout : transform id (.obj [(js "protocolVersion", .str (js "1.1")),
      (js "supportedEnvelopes", .arr [.str (js "error")]),
      (js "schemaVersions", .obj [(js "error", .num (.ofNat 1))]), (js "limits", .obj []),
      (js "contractProvenance", .obj [(js "suiteVersion", .str (js "1.159.0"))])]) =
      .ok (.obj [(js "protocolVersion", .str (js "1.1")),
        (js "supportedEnvelopes", .arr [.str (js "error")]),
        (js "schemaVersions", .obj [(js "error", .num (.ofNat 1))]), (js "limits", .obj [])]) := by
    decide +kernel
  obtain ⟨-, members, heq, hall⟩ := h _ hout
  obtain rfl := Json.obj.inj heq
  rcases hall (js "contractProvenance") _ rfl with hin | ⟨ext, hext, -⟩
  · revert hin
    decide +kernel
  · exact nomatch hext

end Correct

end OpenWop.Codemods.DiscoveryDocument
