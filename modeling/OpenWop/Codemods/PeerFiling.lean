import OpenWop.Codemods.PackManifest
import OpenWop.Js.Writes

/-!
# What filing does to the peers and their entries

Every peer is filed under one key, and what is held there is a range declared for it. The entry of
a family reads as its own members do, then as those of its aliases in their order.
-/

namespace OpenWop.Codemods.PackManifest

open OpenWop.Js OpenWop.Eval OpenWop.Content OpenWop.Codemods

section Reading

/-- The members of an object. -/
def membersOf : Option Json → Record JsString Json
  | some (.obj members) => members
  | _ => []

/-- The facets an entry lists. -/
def facetsOf (entry : Option Json) : List JsString :=
  match Json.read? entry (js "facets") with
  | some (.arr items) => items.filterMap fun
    | .str s => some s
    | _ => none
  | _ => []

/-- An entry of `peerDependenciesMeta`: an object whose facets, if any, are names. -/
def IsEntry (e : Json) : Prop :=
  ∃ ms, e = .obj ms ∧ (Record.keys ms).Nodup ∧
    ∀ v, Record.get? ms (js "facets") = some v → ∃ facets : List JsString, v = .arr (facets.map .str)

/-- All entries of this map are. -/
def Entries (entries : Record JsString Json) : Prop :=
  ∀ k e, Record.get? entries k = some e → IsEntry e

theorem filterMap_str (facets : List JsString) : (facets.map Json.str).filterMap (fun
    | .str s => some s
    | _ => none) = facets := by
  induction facets with
  | nil => rfl
  | cons f fs ih => rw [List.map_cons, List.filterMap_cons, ih]

theorem facetsOf_eq {entry : Option Json} {facets : List JsString}
    (h : Json.read? entry (js "facets") = some (.arr (facets.map .str))) :
    facetsOf entry = facets := by
  rw [facetsOf, h]
  exact filterMap_str facets

theorem facetsOf_none {entry : Option Json} (h : Json.read? entry (js "facets") = none) :
    facetsOf entry = [] := by
  rw [facetsOf, h]

theorem read?_membersOf (v : Option Json) (name : JsString) :
    Json.read? v name = Record.get? (membersOf v) name := by
  rcases v with _ | v
  · rfl
  · cases v <;> rfl

theorem spread_accessed {entries : Record JsString Json} (h : Entries entries) (k : JsString) :
    spread (accessed (Record.get? entries k)) = membersOf (Record.get? entries k) := by
  cases hk : Record.get? entries k with
  | none => rfl
  | some e =>
    obtain ⟨ms, rfl, -⟩ := h k e hk
    rfl

theorem Entries.nodup {entries : Record JsString Json} (h : Entries entries) (k : JsString) :
    (Record.keys (membersOf (Record.get? entries k))).Nodup := by
  cases hk : Record.get? entries k with
  | none => exact List.nodup_nil
  | some e =>
    obtain ⟨ms, rfl, hms, -⟩ := h k e hk
    exact hms

theorem Entries.facets {entries : Record JsString Json} (h : Entries entries) {k : JsString}
    {v : Json} (hv : Json.read? (Record.get? entries k) (js "facets") = some v) :
    v = .arr ((facetsOf (Record.get? entries k)).map .str) := by
  cases hk : Record.get? entries k with
  | none =>
    rw [hk] at hv
    cases hv
  | some e =>
    rw [hk] at hv
    obtain ⟨ms, rfl, -, hms⟩ := h k e hk
    obtain ⟨facets, rfl⟩ := hms v hv
    rw [facetsOf_eq hv]

theorem Entries.set {entries : Record JsString Json} (h : Entries entries) (k : JsString) {e : Json}
    (he : IsEntry e) : Entries (Record.set entries k e) := by
  intro l e' hl
  rw [Record.get?_set] at hl
  split at hl
  · obtain rfl := Option.some.inj hl
    exact he
  · exact h l e' hl

theorem Entries.erase {entries : Record JsString Json} (h : Entries entries) (k : JsString) :
    Entries (Record.erase entries k) := by
  intro l e' hl
  rw [Record.get?_erase] at hl
  split at hl
  · cases hl
  · exact h l e' hl

end Reading

section Aliases

variable {k : JsString} {a : Alias}

/-- The key a peer is filed under. -/
def target (k : JsString) : JsString := ((aliasOf? k).map Alias.family).getD k

/-- The key the alias table gives. -/
def home (k : JsString) : JsString := ((Record.get? aliases k).map Alias.family).getD k

/-- The facets the alias table names. -/
def facetsNamed (k : JsString) : List JsString := ((Record.get? aliases k).bind Alias.facets).getD []

theorem row_facts : ∀ r ∈ aliases, isInherited r.1 = false ∧ aliasOf? r.2.family = none ∧
    isKey r.2.family = true ∧
    ∀ r' ∈ aliases, r'.2.family = r.2.family → r'.2.facets.isSome = r.2.facets.isSome := by
  decide +kernel

theorem aliasOf?_row (h : Record.get? aliases k = some a) : aliasOf? k = some a := by
  rw [aliasOf?, h, Option.some_or]

theorem aliasOf?_none (h : aliasOf? k = none) :
    Record.get? aliases k = none ∧ isInherited k = false := by
  rw [aliasOf?, Option.or_eq_none_iff, ite_eq_right_iff] at h
  refine ⟨h.1, ?_⟩
  rw [← Bool.not_eq_true]
  exact fun hk => nomatch h.2 hk

/-- A family is no alias. -/
theorem get?_family (h : Record.get? aliases k = some a) :
    Record.get? aliases a.family = none :=
  (aliasOf?_none (row_facts _ (Record.mem_of_get? h)).2.1).1

theorem isInherited_row (h : Record.get? aliases k = some a) : isInherited k = false :=
  (row_facts _ (Record.mem_of_get? h)).1

theorem ne_family (h : Record.get? aliases k = some a) : k ≠ a.family := by
  rintro heq
  have hnone := get?_family h
  rw [← heq, h] at hnone
  cases hnone

theorem target_of_not_inherited (h : isInherited k = false) : target k = home k := by
  rw [target, home, aliasOf?, h, if_neg Bool.false_ne_true, Option.or_none]

/-- What a peer is filed under is a declaration-file key. -/
theorem isKey_target (h : (aliasOf? k).isSome ∨ isKey k = true) :
    aliasOf? (target k) = none ∧ isKey (target k) = true := by
  rcases hrow : Record.get? aliases k with _ | a
  · by_cases hinherited : isInherited k = true
    · have htarget : target k = js "undefined" := by
        rw [target, aliasOf?, hrow, hinherited]
        rfl
      rw [htarget]
      decide +kernel
    · have hnone : aliasOf? k = none := by
        rw [aliasOf?, hrow, if_neg hinherited]
        rfl
      have htarget : target k = k := by rw [target, hnone]; rfl
      rw [htarget]
      rw [hnone] at h
      exact ⟨hnone, h.resolve_left Bool.false_ne_true⟩
  · have htarget : target k = a.family := by rw [target, aliasOf?_row hrow]; rfl
    rw [htarget]
    obtain ⟨-, hnone, hkey, -⟩ := row_facts _ (Record.mem_of_get? hrow)
    exact ⟨hnone, hkey⟩

theorem isInherited_target (h : (aliasOf? k).isSome ∨ isKey k = true) :
    isInherited (target k) = false := (aliasOf?_none (isKey_target h).1).2

end Aliases

section Ranges

variable {st st' : Filed} {m : JsString × Json} {ms done : List (JsString × Json)}

/-- One range is filed: the one given, or the one already held there. -/
theorem filePeer_peers (h : filePeer st m = .ok st') :
    ((aliasOf? m.1).isSome ∨ isKey m.1 = true) ∧ ∃ v,
      st'.peers = Record.set st.peers (target m.1) v ∧
        (v = m.2 ∨ Record.get? st.peers (target m.1) = some v) := by
  rw [filePeer] at h
  rcases hrow : aliasOf? m.1 with _ | a
  · rw [hrow] at h
    have htarget : target m.1 = m.1 := by rw [target, hrow]; rfl
    by_cases hkey : isKey m.1 = true
    · simp only [hkey, if_true, Except.ok.injEq] at h
      exact ⟨Or.inr hkey, m.2, by rw [← h, htarget], Or.inl rfl⟩
    · simp [hkey, refuse] at h
  · rw [hrow] at h
    have htarget : target m.1 = a.family := by rw [target, hrow]; rfl
    obtain ⟨entries, -, rfl⟩ := map_ok.mp h
    refine ⟨Or.inl rfl, _, by rw [htarget], ?_⟩
    rw [htarget]
    cases hhad : Record.get? st.peers a.family with
    | none => exact Or.inl rfl
    | some w => cases w <;> simp [Json.isNullish]

/-- The filed peers hold under each key a range declared for it, and one for each peer. -/
structure HoldsRanges (done : List (JsString × Json)) (peers : Record JsString Json) : Prop where
  nodup : (Record.keys peers).Nodup
  declared : ∀ k v, Record.get? peers k = some v → ∃ m ∈ done, target m.1 = k ∧ m.2 = v
  filed : ∀ m ∈ done, (Record.get? peers (target m.1)).isSome
  known : ∀ m ∈ done, (aliasOf? m.1).isSome ∨ isKey m.1 = true

theorem HoldsRanges.step (h : HoldsRanges done st.peers) (hok : filePeer st m = .ok st') :
    HoldsRanges (done ++ [m]) st'.peers := by
  obtain ⟨hknown, v, hpeers, hv⟩ := filePeer_peers hok
  rw [hpeers]
  refine ⟨Record.nodup_keys_set h.nodup _ _, fun k w hk => ?_, fun n hn => ?_, fun n hn => ?_⟩
  · rw [Record.get?_set] at hk
    split at hk
    · next heq =>
      obtain rfl := Option.some.inj hk
      rcases hv with rfl | hv
      · exact ⟨m, List.mem_append_right _ (List.mem_singleton_self _), heq.symm, rfl⟩
      · obtain ⟨n, hn, htarget, hval⟩ := h.declared _ _ hv
        exact ⟨n, List.mem_append_left _ hn, htarget.trans heq.symm, hval⟩
    · obtain ⟨n, hn, hk⟩ := h.declared k w hk
      exact ⟨n, List.mem_append_left _ hn, hk⟩
  · rw [Record.get?_set]
    split
    · rfl
    · next hne =>
      rcases List.mem_append.mp hn with hn | hn
      · exact h.filed n hn
      · exact absurd (congrArg (fun m => target m.1) (List.mem_singleton.mp hn)) hne
  · rcases List.mem_append.mp hn with hn | hn
    · exact h.known n hn
    · rw [List.mem_singleton.mp hn]
      exact hknown

theorem HoldsRanges.run (h : HoldsRanges done st.peers) (hok : filePeers st ms = .ok st') :
    HoldsRanges (done ++ ms) st'.peers := by
  induction ms generalizing st done with
  | nil =>
    obtain rfl := Except.ok.inj hok
    rwa [List.append_nil]
  | cons m ms ih =>
    obtain ⟨next, hnext, hok⟩ := bind_ok.mp hok
    have hrun := ih (h.step hnext) hok
    rwa [List.append_assoc, List.singleton_append] at hrun

/-- What all peers hold once they are filed. -/
theorem holdsRanges_of_ok {entries : Record JsString Json}
    (hok : filePeers ⟨[], entries⟩ ms = .ok st') : HoldsRanges ms st'.peers := by
  have hnil : HoldsRanges [] (Filed.mk [] entries).peers := ⟨List.nodup_nil, nofun, nofun, nofun⟩
  exact hnil.run hok

/-- The keys that are filed are declaration-file keys. -/
theorem HoldsRanges.isKey {peers : Record JsString Json} (h : HoldsRanges done peers)
    {k : JsString} (hk : k ∈ Record.keys peers) : aliasOf? k = none ∧ isKey k = true := by
  obtain ⟨v, hv⟩ := Option.isSome_iff_exists.mp (Record.get?_isSome_iff.mpr hk)
  obtain ⟨m, hm, rfl, -⟩ := h.declared k v hv
  exact isKey_target (h.known m hm)

/-- Peers under declaration-file keys are filed as they are. -/
theorem filePeers_keys (hms : ∀ m ∈ ms, aliasOf? m.1 = none ∧ isKey m.1 = true) :
    filePeers st ms =
      .ok { st with peers := ms.foldl (fun r m => Record.set r m.1 m.2) st.peers } := by
  induction ms generalizing st with
  | nil => rfl
  | cons m ms ih =>
    rw [List.forall_mem_cons] at hms
    have hm : filePeer st m = .ok { st with peers := Record.set st.peers m.1 m.2 } := by
      rw [filePeer, hms.1.1, hms.1.2]
      rfl
    rw [filePeers, hm]
    exact ih hms.2

end Ranges

section Moving

variable {entries out : Record JsString Json} {k : JsString} {a : Alias}

theorem distinct_strings (facets : List JsString) :
    distinct (facets.map .str) = (uniq facets).map .str := by
  induction facets using List.reverseRecOn with
  | nil => rfl
  | append_singleton fs f ih =>
    have hmem : Json.str f ∈ (uniq fs).map .str ↔ f ∈ uniq fs := by simp
    rw [List.map_append, distinct, List.map_singleton, List.foldl_concat, ← distinct, ih]
    simp only [addItem, Json.isObject, hmem, Bool.false_eq_true, not_false_eq_true, and_true]
    by_cases hf : f ∈ uniq fs
    · have huniq : uniq (fs ++ [f]) = uniq fs := by
        rw [uniq, List.foldl_concat]
        exact if_pos hf
      rw [if_pos hf, huniq]
    · have huniq : uniq (fs ++ [f]) = uniq fs ++ [f] := by
        rw [uniq, List.foldl_concat]
        exact if_neg hf
      rw [if_neg hf, huniq, List.map_append, List.map_singleton]

theorem isEntry_facets {ms : Record JsString Json} (hms : (Record.keys ms).Nodup)
    (facets : List JsString) :
    IsEntry (.obj (Record.set ms (js "facets") (.arr (facets.map .str)))) := by
  refine ⟨_, rfl, Record.nodup_keys_set hms _ _, fun v hv => ⟨facets, ?_⟩⟩
  rw [Record.get?_set_self] at hv
  exact (Option.some.inj hv).symm

/-- The family lists its own facets and those the alias names. -/
theorem withFacets_ok (h : Entries entries) (family : JsString) (facets : List JsString) :
    withFacets entries family facets = .ok (Record.set entries family
      (.obj (Record.set (membersOf (Record.get? entries family)) (js "facets")
        (.arr ((uniq (facetsOf (Record.get? entries family) ++ facets)).map .str))))) := by
  have hhad : Otlp.iterateOrEmpty (Json.read? (Record.get? entries family) (js "facets")) =
      some ((facetsOf (Record.get? entries family)).map .str) := by
    cases hv : Json.read? (Record.get? entries family) (js "facets") with
    | none =>
      rw [facetsOf_none hv]
      rfl
    | some v =>
      rw [h.facets hv]
      rfl
  simp only [withFacets, hhad, spread_accessed h, ← List.map_append, distinct_strings]

theorem Entries.moveEntry (h : Entries entries) (family k : JsString) :
    Entries (moveEntry entries family k) := by
  rw [PackManifest.moveEntry]
  split
  · exact h
  · next old hold =>
    -- an inherited member has nothing to spread
    have hspread : (Record.keys (spread old)).Nodup ∧
        ∀ v, Record.get? (spread old) (js "facets") = some v →
          ∃ facets : List JsString, v = .arr (facets.map .str) := by
      cases old with
      | json v =>
        rw [Accessed.access] at hold
        split at hold
        · next w hw =>
          obtain ⟨ms, rfl, hms⟩ := h k w hw
          cases hold
          exact hms
        · split_ifs at hold <;> cases hold
      | undefined | function | objectPrototype =>
        refine ⟨List.nodup_nil, ?_⟩
        rintro v ⟨⟩
    refine (h.set family ⟨_, rfl, Record.nodup_foldl_set _ hspread.1, fun v hv => ?_⟩).erase k
    rw [spread_accessed h, Record.get?_foldl_set (h.nodup family), Option.or_eq_some_iff] at hv
    rcases hv with hv | ⟨-, hv⟩
    · exact ⟨_, h.facets ((read?_membersOf _ _).trans hv)⟩
    · exact hspread.2 v hv

/-- The entry of an alias reads behind that of the family. -/
theorem get?_moveEntry (h : Entries entries) {family : JsString}
    (hinherited : isInherited k = false) (l : JsString) :
    Record.get? (moveEntry entries family k) l =
      if l = k then none
      else if l = family then (Record.get? entries k).elim (Record.get? entries family) fun old =>
        some (.obj ((membersOf (Record.get? entries family)).foldl
          (fun r m => Record.set r m.1 m.2) (membersOf (some old))))
      else Record.get? entries l := by
  simp only [isInherited, Bool.or_eq_false_iff, decide_eq_false_iff_not, List.contains_eq_mem]
    at hinherited
  rw [moveEntry, Accessed.access]
  cases hk : Record.get? entries k with
  | none =>
    simp only [hinherited.1, hinherited.2, if_false, Option.elim_none]
    split
    · next heq => rw [heq, hk]
    · split
      · next heq => rw [heq]
      · rfl
  | some old =>
    have hold : spread (.json old) = membersOf (some old) := by
      obtain ⟨ms, rfl, -⟩ := h k old hk
      rfl
    simp only [Option.elim_some, merged, spread_accessed h, hold, Record.get?_erase,
      Record.get?_set]

/-- What becomes of the entries when an alias is filed. -/
structure Moved (entries : Record JsString Json) (k : JsString) (a : Alias)
    (out : Record JsString Json) : Prop where
  typed : Entries out
  gone : Record.get? out k = none
  others : ∀ l, l ≠ k → l ≠ a.family → Record.get? out l = Record.get? entries l
  member : ∀ n, n ≠ js "facets" ∨ a.facets = none →
    Json.read? (Record.get? out a.family) n =
      (Json.read? (Record.get? entries a.family) n).or (Json.read? (Record.get? entries k) n)
  facets : ∀ facets, a.facets = some facets → ∀ f, f ∈ facetsOf (Record.get? out a.family) ↔
    f ∈ facetsOf (Record.get? entries a.family) ∨ f ∈ facets
  present : (Record.get? entries a.family).isSome ∨ (Record.get? entries k).isSome →
    (Record.get? out a.family).isSome

theorem moved_moveEntry (h : Entries entries) {family : JsString} (hne : k ≠ family)
    (hinherited : isInherited k = false) : Moved entries k ⟨family, none⟩
      (moveEntry entries family k) where
  typed := h.moveEntry family k
  gone := by rw [get?_moveEntry h hinherited, if_pos rfl]
  others l hl hl' := by rw [get?_moveEntry h hinherited, if_neg hl, if_neg hl']
  member n _ := by
    rw [get?_moveEntry h hinherited, if_neg (Ne.symm hne), if_pos rfl]
    cases hk : Record.get? entries k with
    | none => rw [Option.elim_none, show Json.read? none n = none from rfl, Option.or_none]
    | some old =>
      rw [Option.elim_some, read?_membersOf, read?_membersOf (Record.get? entries family),
        read?_membersOf (some old)]
      exact Record.get?_foldl_set (h.nodup family) _ n
  facets := nofun
  present hsome := by
    rw [get?_moveEntry h hinherited, if_neg (Ne.symm hne), if_pos rfl]
    cases hk : Record.get? entries k with
    | none => exact hsome.resolve_right (by rw [hk]; exact Bool.false_ne_true)
    | some old => rfl

/-- Filing an alias moves its entry, and adds the facets it names. -/
theorem fileEntry_ok (h : Entries entries) (hrow : Record.get? aliases k = some a) :
    ∃ out, fileEntry entries k a = .ok out ∧ Moved entries k a out := by
  obtain ⟨family, facets⟩ := a
  have hne := ne_family hrow
  have hinherited := isInherited_row hrow
  cases facets with
  | none => exact ⟨_, rfl, moved_moveEntry h hne hinherited⟩
  | some facets =>
    refine ⟨_, map_ok.mpr ⟨_, withFacets_ok h family facets, rfl⟩, ?_⟩
    set entry := Record.set (membersOf (Record.get? entries family)) (js "facets")
      (.arr ((uniq (facetsOf (Record.get? entries family) ++ facets)).map .str)) with hentry
    have hentries := h.set family (isEntry_facets (h.nodup family)
      (uniq (facetsOf (Record.get? entries family) ++ facets)))
    have hmoved := moved_moveEntry hentries hne hinherited
    have hfamily : Record.get? (Record.set entries family (.obj entry)) family =
        some (.obj entry) := Record.get?_set_self _ _ _
    have hother : ∀ l, l ≠ family →
        Record.get? (Record.set entries family (.obj entry)) l = Record.get? entries l :=
      fun l hl => Record.get?_set_of_ne _ _ hl
    refine ⟨hmoved.typed, hmoved.gone, fun l hl hl' => (hmoved.others l hl hl').trans (hother l hl'),
      fun n hn => ?_, fun facets' hfacets f => ?_, fun _ => hmoved.present (Or.inl ?_)⟩
    · have hn' := hn.resolve_right nofun
      have hread : Json.read? (some (.obj entry)) n =
          Json.read? (Record.get? entries family) n := by
        rw [read?_membersOf (Record.get? entries family)]
        exact Record.get?_set_of_ne _ _ hn'
      rw [hmoved.member n (Or.inl hn'), hfamily, hother k hne, hread]
    · obtain rfl := Option.some.inj hfacets
      have hlisted : Json.read? (Record.get? (moveEntry (Record.set entries family (.obj entry))
          family k) family) (js "facets") =
          some (.arr ((uniq (facetsOf (Record.get? entries family) ++ facets)).map .str)) := by
        have hread : Json.read? (some (.obj entry)) (js "facets") =
            some (.arr ((uniq (facetsOf (Record.get? entries family) ++ facets)).map .str)) :=
          Record.get?_set_self _ _ _
        rw [hmoved.member _ (Or.inr rfl), hfamily, hread]
        rfl
      rw [facetsOf_eq hlisted, mem_uniq, List.mem_append]
    · rw [hfamily]
      rfl

end Moving

section Run

variable {given : Record JsString Json} {st st' : Filed} {m : JsString × Json}
  {ms done : List (JsString × Json)} {k family : JsString} {a : Alias}

/-- The aliases of a family among the peers. -/
def sources (done : List (JsString × Json)) (family : JsString) : List JsString :=
  (Record.keys done).filter fun k => (Record.get? aliases k).map Alias.family = some family

/-- The facets they name. -/
def named (done : List (JsString × Json)) (family : JsString) : List JsString :=
  (sources done family).flatMap facetsNamed

theorem mem_sources : k ∈ sources done family ↔
    k ∈ Record.keys done ∧ (Record.get? aliases k).map Alias.family = some family := by
  rw [sources, List.mem_filter, decide_eq_true_iff]

theorem sources_concat (h : (Record.get? aliases m.1).map Alias.family = some family) :
    sources (done ++ [m]) family = sources done family ++ [m.1] := by
  rw [sources, Record.keys, List.map_append, List.filter_append, ← Record.keys, ← sources]
  exact congrArg _ (List.filter_eq_self.mpr (by simpa using h))

theorem sources_concat_of_ne (h : (Record.get? aliases m.1).map Alias.family ≠ some family) :
    sources (done ++ [m]) family = sources done family := by
  have hnil : [m.1].filter (fun k => (Record.get? aliases k).map Alias.family = some family) = [] :=
    List.filter_eq_nil_iff.mpr (by simpa using h)
  rw [sources, Record.keys, List.map_append, List.filter_append, ← Record.keys, ← sources,
    List.map_singleton, hnil, List.append_nil]

theorem facets_ne_nil : ∀ r ∈ aliases, r.2.facets ≠ some [] := by decide +kernel

/-- Either every alias of a family names facets or none does. -/
theorem named_eq_nil_iff (hrow : Record.get? aliases k = some a) (hk : k ∈ sources done a.family) :
    named done a.family = [] ↔ a.facets = none := by
  constructor
  · intro hnil
    have hfacets : facetsNamed k = [] := List.flatMap_eq_nil_iff.mp hnil k hk
    rw [facetsNamed, hrow, Option.bind_some] at hfacets
    cases hsome : a.facets with
    | none => rfl
    | some facets =>
      rw [hsome, Option.getD_some] at hfacets
      exact absurd (hfacets ▸ hsome) (facets_ne_nil _ (Record.mem_of_get? hrow))
  · intro hnone
    refine List.flatMap_eq_nil_iff.mpr fun l hl => ?_
    obtain ⟨b, hb, hfamily⟩ := Option.map_eq_some_iff.mp (mem_sources.mp hl).2
    have hsame := (row_facts _ (Record.mem_of_get? hrow)).2.2.2 _ (Record.mem_of_get? hb) hfamily
    rw [hnone] at hsame
    rw [facetsNamed, hb, Option.bind_some, Option.isNone_iff_eq_none.mp
      (Option.isSome_eq_false_iff.mp hsame), Option.getD_none]

/-- How the entries read once these peers are filed. -/
structure HoldsEntries (given : Record JsString Json) (done : List (JsString × Json))
    (entries : Record JsString Json) : Prop where
  typed : Entries entries
  spelled : ∀ k, (Record.get? aliases k).isSome →
    Record.get? entries k = if k ∈ Record.keys done then none else Record.get? given k
  member : ∀ family n, Record.get? aliases family = none →
    n ≠ js "facets" ∨ named done family = [] →
      Json.read? (Record.get? entries family) n = (Json.read? (Record.get? given family) n).or
        ((sources done family).findSome? fun k => Json.read? (Record.get? given k) n)
  facets : ∀ family, Record.get? aliases family = none → named done family ≠ [] →
    ∀ f, f ∈ facetsOf (Record.get? entries family) ↔
      f ∈ facetsOf (Record.get? given family) ∨ f ∈ named done family
  present : ∀ family, Record.get? aliases family = none →
    (Record.get? given family).isSome ∨
      (∃ k ∈ sources done family, (Record.get? given k).isSome) →
      (Record.get? entries family).isSome

theorem holdsEntries_nil (h : Entries given) : HoldsEntries given [] given where
  typed := h
  spelled _ _ := rfl
  member _ _ _ _ := (Option.or_none).symm
  facets _ _ hne := absurd rfl hne
  present _ _ h := h.resolve_right nofun

/-- The family of the alias that is filed. -/
theorem HoldsEntries.stepAlias (h : HoldsEntries given done st.entries)
    (hrow : Record.get? aliases m.1 = some a) (hnew : m.1 ∉ Record.keys done)
    {out : Record JsString Json} (hmoved : Moved st.entries m.1 a out) :
    HoldsEntries given (done ++ [m]) out := by
  have hkeys : Record.keys (done ++ [m]) = Record.keys done ++ [m.1] := List.map_append
  have hfamily : (Record.get? aliases m.1).map Alias.family = some a.family := by rw [hrow]; rfl
  have hconcat : sources (done ++ [m]) a.family = sources done a.family ++ [m.1] :=
    sources_concat hfamily
  have hnamed : named (done ++ [m]) a.family = named done a.family ++ facetsNamed m.1 := by
    rw [named, hconcat, List.flatMap_append, List.flatMap_singleton, ← named]
  have halias : Record.get? st.entries m.1 = Record.get? given m.1 := by
    rw [h.spelled m.1 (by rw [hrow]; rfl), if_neg hnew]
  have hin : m.1 ∈ sources (done ++ [m]) a.family := by
    rw [hconcat]
    exact List.mem_append_right _ (List.mem_singleton_self _)
  have hother : ∀ family, family ≠ a.family →
      (Record.get? aliases m.1).map Alias.family ≠ some family := fun family hne heq =>
    hne (Option.some.inj (heq.symm.trans hfamily))
  have hne : ∀ family, Record.get? aliases family = none → family ≠ m.1 := by
    rintro family hnone rfl
    rw [hrow] at hnone
    cases hnone
  refine ⟨hmoved.typed, fun k hk => ?_, fun family n hnone hn => ?_, fun family hnone hn f => ?_,
    fun family hnone hsome => ?_⟩
  · by_cases hkm : k = m.1
    · rw [hkm, hmoved.gone, if_pos (hkeys ▸ List.mem_append_right _ (List.mem_singleton_self _))]
    · have hka : k ≠ a.family := by
        rintro rfl
        rw [get?_family hrow] at hk
        cases hk
      rw [hmoved.others k hkm hka, h.spelled k hk, hkeys]
      exact if_congr (by simp [hkm]) rfl rfl
  · by_cases heq : family = a.family
    · subst heq
      have hmember := h.member a.family n hnone (hn.imp_right fun hnil => by
        rw [hnamed] at hnil
        exact (List.append_eq_nil_iff.mp hnil).1)
      rw [hmoved.member n (hn.imp_right (named_eq_nil_iff hrow hin).mp), hmember, hconcat,
        List.findSome?_append, List.findSome?_singleton, halias, Option.or_assoc]
    · have hsame : sources (done ++ [m]) family = sources done family :=
        sources_concat_of_ne (hother family heq)
      rw [hmoved.others family (hne family hnone) heq, hsame]
      refine h.member family n hnone (hn.imp_right fun hnil => ?_)
      rwa [named, hsame] at hnil
  · by_cases heq : family = a.family
    · subst heq
      obtain ⟨facets, hfacets⟩ := Option.ne_none_iff_exists'.mp
        (mt (named_eq_nil_iff hrow hin).mpr hn)
      have hrowFacets : facetsNamed m.1 = facets := by
        rw [facetsNamed, hrow, Option.bind_some, hfacets, Option.getD_some]
      rw [hmoved.facets facets hfacets f, hnamed, hrowFacets, List.mem_append, ← or_assoc]
      refine or_congr_left ?_
      by_cases hnil : named done a.family = []
      · -- no alias of the family was filed before
        have hnone' : sources done a.family = [] := by
          rw [List.eq_nil_iff_forall_not_mem]
          intro l hl
          obtain ⟨b, hb, hbfamily⟩ := Option.map_eq_some_iff.mp (mem_sources.mp hl).2
          rw [← hbfamily] at hl hnil
          have hplain := (named_eq_nil_iff hb hl).mp hnil
          have hsame := (row_facts _ (Record.mem_of_get? hrow)).2.2.2 _ (Record.mem_of_get? hb)
            hbfamily
          rw [hplain, hfacets] at hsame
          cases hsame
        have hread := h.member a.family (js "facets") hnone (Or.inr hnil)
        rw [hnone', List.findSome?_nil, Option.or_none] at hread
        rw [facetsOf, hread, ← facetsOf, hnil]
        simp
      · exact h.facets a.family hnone hnil f
    · have hsame : sources (done ++ [m]) family = sources done family :=
        sources_concat_of_ne (hother family heq)
      rw [named, hsame] at hn ⊢
      rw [hmoved.others family (hne family hnone) heq]
      exact h.facets family hnone hn f
  · by_cases heq : family = a.family
    · subst heq
      refine hmoved.present ?_
      rw [hconcat] at hsome
      rcases hsome with hsome | ⟨k, hk, hsome⟩
      · exact Or.inl (h.present a.family hnone (Or.inl hsome))
      · rcases List.mem_append.mp hk with hk | hk
        · exact Or.inl (h.present a.family hnone (Or.inr ⟨k, hk, hsome⟩))
        · rw [List.mem_singleton.mp hk] at hsome
          exact Or.inr (halias ▸ hsome)
    · have hsame : sources (done ++ [m]) family = sources done family :=
        sources_concat_of_ne (hother family heq)
      rw [hsame] at hsome
      rw [hmoved.others family (hne family hnone) heq]
      exact h.present family hnone hsome

theorem HoldsEntries.step (h : HoldsEntries given done st.entries)
    (hown : isInherited m.1 = false) (hnew : m.1 ∉ Record.keys done)
    (hok : filePeer st m = .ok st') : HoldsEntries given (done ++ [m]) st'.entries := by
  rw [filePeer] at hok
  rcases hrow : Record.get? aliases m.1 with _ | a
  · have hnone : aliasOf? m.1 = none := by
      rw [aliasOf?, hrow, hown]
      rfl
    have hentries : st'.entries = st.entries := by
      rw [hnone] at hok
      by_cases hkey : isKey m.1 = true
      · simp only [hkey, if_true, Except.ok.injEq] at hok
        rw [← hok]
      · simp [hkey, refuse] at hok
    have hsources : ∀ family, sources (done ++ [m]) family = sources done family := fun family =>
      sources_concat_of_ne (by rw [hrow]; exact nofun)
    have hnamed : ∀ family, named (done ++ [m]) family = named done family := fun family => by
      rw [named, hsources, ← named]
    have hkeys : Record.keys (done ++ [m]) = Record.keys done ++ [m.1] := List.map_append
    rw [hentries]
    refine ⟨h.typed, fun k hk => ?_, fun family n hnone hn => ?_, fun family hnone hn f => ?_,
      fun family hnone hsome => ?_⟩
    · have hkm : k ≠ m.1 := by
        rintro rfl
        rw [hrow] at hk
        cases hk
      rw [h.spelled k hk, hkeys]
      exact if_congr (by simp [hkm]) rfl rfl
    · rw [hsources]
      exact h.member family n hnone (hnamed family ▸ hn)
    · rw [hnamed] at hn ⊢
      exact h.facets family hnone hn f
    · rw [hsources] at hsome
      exact h.present family hnone hsome
  · rw [aliasOf?_row hrow] at hok
    obtain ⟨entries, hfile, rfl⟩ := map_ok.mp hok
    obtain ⟨out, hout, hmoved⟩ := fileEntry_ok h.typed hrow
    obtain rfl := Except.ok.inj (hout.symm.trans hfile)
    exact h.stepAlias hrow hnew hmoved

theorem HoldsEntries.run (h : HoldsEntries given done st.entries)
    (hown : ∀ m ∈ ms, isInherited m.1 = false) (hnodup : (Record.keys (done ++ ms)).Nodup)
    (hok : filePeers st ms = .ok st') : HoldsEntries given (done ++ ms) st'.entries := by
  induction ms generalizing st done with
  | nil =>
    obtain rfl := Except.ok.inj hok
    rwa [List.append_nil]
  | cons m ms ih =>
    obtain ⟨next, hnext, hok⟩ := bind_ok.mp hok
    rw [List.forall_mem_cons] at hown
    have hsplit : done ++ m :: ms = done ++ [m] ++ ms := by simp
    have hnew : m.1 ∉ Record.keys done := by
      rw [Record.keys, List.map_append, List.nodup_append] at hnodup
      exact fun hm => hnodup.2.2 _ hm _ (List.mem_cons_self ..) rfl
    rw [hsplit] at hnodup ⊢
    exact ih (h.step hown.1 hnew hnext) hown.2 hnodup hok

/-- How the entries read once all peers are filed. -/
theorem holdsEntries_of_ok (h : Entries given) (hown : ∀ m ∈ ms, isInherited m.1 = false)
    (hnodup : (Record.keys ms).Nodup) (hok : filePeers ⟨[], given⟩ ms = .ok st') :
    HoldsEntries given ms st'.entries := by
  have hnil : HoldsEntries given [] (Filed.mk [] given).entries := holdsEntries_nil h
  exact hnil.run hown hnodup hok

/-- An entry is still somewhere. -/
theorem HoldsEntries.ne_nil {entries : Record JsString Json} (h : HoldsEntries given done entries)
    (hk : (Record.get? given k).isSome) : entries ≠ [] := by
  have hne : ∀ l, (Record.get? entries l).isSome → entries ≠ [] := by
    rintro l hl rfl
    cases hl
  rcases hrow : Record.get? aliases k with _ | a
  · exact hne k (h.present k hrow (Or.inl hk))
  · by_cases hdone : k ∈ Record.keys done
    · have hin : k ∈ sources done a.family := mem_sources.mpr ⟨hdone, by rw [hrow]; rfl⟩
      exact hne a.family (h.present a.family (get?_family hrow) (Or.inr ⟨k, hin, hk⟩))
    · refine hne k ?_
      rwa [h.spelled k (by rw [hrow]; rfl), if_neg hdone]

/-- Only an unknown peer is refused. -/
theorem filePeer_total (h : Entries st.entries) (hm : (aliasOf? m.1).isSome ∨ isKey m.1 = true) :
    ∃ st', filePeer st m = .ok st' ∧ Entries st'.entries := by
  rw [filePeer]
  rcases hrow : aliasOf? m.1 with _ | a
  · rw [hrow] at hm
    have hkey := hm.resolve_left Bool.false_ne_true
    exact ⟨_, if_pos hkey, h⟩
  · have hfile : ∃ out, fileEntry st.entries m.1 a = .ok out ∧ Entries out := by
      obtain ⟨family, facets⟩ := a
      cases facets with
      | none => exact ⟨_, rfl, h.moveEntry family m.1⟩
      | some facets =>
        have hset := h.set family (isEntry_facets (h.nodup family)
          (uniq (facetsOf (Record.get? st.entries family) ++ facets)))
        exact ⟨_, map_ok.mpr ⟨_, withFacets_ok h family facets, rfl⟩, hset.moveEntry family m.1⟩
    obtain ⟨out, hout, hentries⟩ := hfile
    exact ⟨_, map_ok.mpr ⟨out, hout, rfl⟩, hentries⟩

theorem filePeers_total (h : Entries st.entries)
    (hms : ∀ m ∈ ms, (aliasOf? m.1).isSome ∨ isKey m.1 = true) :
    ∃ st', filePeers st ms = .ok st' ∧ Entries st'.entries := by
  induction ms generalizing st with
  | nil => exact ⟨st, rfl, h⟩
  | cons m ms ih =>
    rw [List.forall_mem_cons] at hms
    obtain ⟨next, hnext, hentries⟩ := filePeer_total h hms.1
    obtain ⟨st', hst', hentries'⟩ := ih hentries hms.2
    exact ⟨st', bind_ok.mpr ⟨next, hnext, hst'⟩, hentries'⟩

end Run

end OpenWop.Codemods.PackManifest
