import OpenWop.Eval.JsonMatch

/-!
# Containment of JSON values

Comparing values goes wrong in one place: where the first value has a member `__proto__` that the
second one lacks. Where that does not decide, equality is equality of the canonical texts, and
containment holds path by path.
-/

namespace OpenWop.Eval

open OpenWop.Js

section Equality

theorem length_eq_of_keys {ms ns : Record JsString Json} (hms : (Record.keys ms).Nodup)
    (hns : (Record.keys ns).Nodup) (h : ∀ k, k ∈ Record.keys ms ↔ k ∈ Record.keys ns) :
    ms.length = ns.length := by
  have hperm : (Record.keys ms).Perm (Record.keys ns) := (List.perm_ext_iff_of_nodup hms hns).mpr h
  simpa [Record.keys] using hperm.length_eq

/-- With as many members, names that are all found are all the names. -/
theorem keys_subset_of_length {ms ns : Record JsString Json} (hms : (Record.keys ms).Nodup)
    (hlength : ms.length = ns.length) (h : ∀ k ∈ Record.keys ms, k ∈ Record.keys ns) :
    ∀ k ∈ Record.keys ns, k ∈ Record.keys ms := by
  have hsub : (Record.keys ms).Subperm (Record.keys ns) := List.subperm_of_subset hms h
  have hperm := hsub.perm_of_length_le (by simp [Record.keys, hlength])
  exact fun k hk => hperm.mem_iff.mpr hk

/-- The names of equal objects. -/
theorem mem_keys_of_equal {ms ns : Record JsString Json} (h : Json.Equal (.obj ms) (.obj ns))
    (k : JsString) : k ∈ Record.keys ms ↔ k ∈ Record.keys ns := by
  rw [Json.Equal, Json.equalMembers_iff] at h
  constructor
  · intro hk
    obtain ⟨m, hm, rfl⟩ := List.mem_map.mp hk
    obtain ⟨w, hw, _⟩ := h.1 m hm
    exact Record.get?_isSome_iff.mp (by rw [hw, Option.isSome_some])
  · exact h.2 k

theorem equal_obj_nil {v : Json} (h : Json.Equal v (.obj [])) : v = .obj [] := by
  cases v with
  | obj ms =>
    cases ms with
    | nil => rfl
    | cons m ms =>
      have hk := (mem_keys_of_equal h m.1).mp List.mem_cons_self
      simp at hk
  | _ => simp [Json.Equal] at h

theorem equal_refl {v : Json} (h : Json.isIJson v = true) : Json.Equal v v :=
  (Json.equal_iff_normalize h h).mpr rfl

theorem equalItemsButProto_trans {us : List Json}
    (h : ∀ u ∈ us, ∀ v w, Json.isIJson v = true → Json.isIJson w = true → Json.Equal u v →
      EqualButProto v w → EqualButProto u w) : ∀ vs ws, (∀ v ∈ vs, Json.isIJson v = true) →
      (∀ w ∈ ws, Json.isIJson w = true) → Json.EqualItems us vs → EqualItemsButProto vs ws →
      EqualItemsButProto us ws := by
  induction us with
  | nil => intro vs ws _ _ huv hvw; cases vs <;> simp_all [Json.EqualItems]
  | cons u us ih =>
    intro vs ws hvs hws huv hvw
    rw [List.forall_mem_cons] at h
    cases vs with
    | nil => exact huv.elim
    | cons v vs =>
      cases ws with
      | nil => exact hvw.elim
      | cons w ws =>
        rw [List.forall_mem_cons] at hvs hws
        exact ⟨h.1 v w hvs.1 hws.1 huv.1 hvw.1, ih h.2 vs ws hvs.2 hws.2 huv.2 hvw.2⟩

/-- A value equal to the first one compares alike. -/
theorem EqualButProto.of_equal {u v w : Json} (hu : Json.isIJson u = true)
    (hv : Json.isIJson v = true) (hw : Json.isIJson w = true) (huv : Json.Equal u v)
    (hvw : EqualButProto v w) : EqualButProto u w := by
  induction u generalizing v w with
  | arr us ih =>
    cases v with
    | arr vs =>
      cases w with
      | arr ws =>
        exact equalItemsButProto_trans
          (fun u hm v w hv hw => ih u hm (isIJson_arr hu u hm) hv hw) vs ws (isIJson_arr hv)
          (isIJson_arr hw) huv hvw
      | _ => exact hvw.elim
    | _ => exact huv.elim
  | obj ms ih =>
    cases v with
    | obj ns =>
      cases w with
      | obj os =>
        have hlength := length_eq_of_keys (isIJson_obj hu).1 (isIJson_obj hv).1
          (mem_keys_of_equal huv)
        rw [Json.Equal, Json.equalMembers_iff] at huv
        rw [EqualButProto, equalMembersButProto_iff] at hvw ⊢
        refine ⟨hlength.trans hvw.1, fun m hm => ?_⟩
        obtain ⟨x, hx, hequal⟩ := huv.1 m hm
        rcases hvw.2 _ (Record.mem_of_get? hx) with ⟨y, hy, hyx⟩ | ⟨hnone, hproto, rfl⟩
        · exact .inl ⟨y, hy, ih m hm ((isIJson_obj hu).2 m hm) (isIJson_of_get? hv hx)
            (isIJson_of_get? hw hy) hequal hyx⟩
        · exact .inr ⟨hnone, hproto, equal_obj_nil hequal⟩
      | _ => exact hvw.elim
    | _ => exact huv.elim
  | null => cases v <;> simp_all [Json.Equal]
  | bool b => cases v <;> simp_all [Json.Equal]
  | str s => cases v <;> simp_all [Json.Equal]
  | num n =>
    cases v with
    | num m => cases w <;> simp_all [EqualButProto, Json.Equal]
    | _ => exact huv.elim

theorem equalItemsButProto_of_equal {vs : List Json}
    (h : ∀ v ∈ vs, ∀ w, Json.isIJson w = true → Json.Equal v w → EqualButProto v w) :
    ∀ ws, (∀ w ∈ ws, Json.isIJson w = true) → Json.EqualItems vs ws → EqualItemsButProto vs ws := by
  induction vs with
  | nil => intro ws _ hvw; cases ws <;> simp_all [Json.EqualItems, EqualItemsButProto]
  | cons v vs ih =>
    intro ws hws hvw
    rw [List.forall_mem_cons] at h
    cases ws with
    | nil => exact hvw.elim
    | cons w ws =>
      rw [List.forall_mem_cons] at hws
      exact ⟨h.1 w hws.1 hvw.1, ih h.2 ws hws.2 hvw.2⟩

/-- Equal values are equal but for nothing. -/
theorem equalButProto_of_equal {v w : Json} (hv : Json.isIJson v = true)
    (hw : Json.isIJson w = true) (h : Json.Equal v w) : EqualButProto v w := by
  induction v generalizing w with
  | arr vs ih =>
    cases w with
    | arr ws =>
      exact equalItemsButProto_of_equal (fun v hm w hw => ih v hm (isIJson_arr hv v hm) hw) ws
        (isIJson_arr hw) h
    | _ => exact h.elim
  | obj ms ih =>
    cases w with
    | obj ns =>
      have hlength := length_eq_of_keys (isIJson_obj hv).1 (isIJson_obj hw).1 (mem_keys_of_equal h)
      rw [Json.Equal, Json.equalMembers_iff] at h
      rw [EqualButProto, equalMembersButProto_iff]
      refine ⟨hlength, fun m hm => ?_⟩
      obtain ⟨x, hx, hequal⟩ := h.1 m hm
      exact .inl ⟨x, hx, ih m hm ((isIJson_obj hv).2 m hm) (isIJson_of_get? hw hx) hequal⟩
    | _ => exact h.elim
  | _ => cases w <;> simp_all [EqualButProto, Json.Equal]

end Equality

section Containing

/-- Equal values are contained in each other. -/
theorem contained_of_equal {v w : Json} (h : Json.Equal v w) : Contained v w := by
  induction v generalizing w with
  | obj ms ih =>
    cases w with
    | obj ns =>
      rw [Json.Equal, Json.equalMembers_iff] at h
      rw [Contained, containedMembers_iff]
      intro m hm
      obtain ⟨x, hx, hequal⟩ := h.1 m hm
      exact ⟨x, hx, ih m hm hequal⟩
    | _ => exact h.elim
  | _ => exact h

theorem containedButProto_of_contained {v w : Json} (hv : Json.isIJson v = true)
    (hw : Json.isIJson w = true) (h : Contained v w) : ContainedButProto v w := by
  induction v generalizing w with
  | obj ms ih =>
    cases w with
    | obj ns =>
      rw [Contained, containedMembers_iff] at h
      rw [ContainedButProto, containedMembersButProto_iff]
      intro m hm
      obtain ⟨x, hx, hcontained⟩ := h m hm
      exact .inl ⟨x, hx, ih m hm ((isIJson_obj hv).2 m hm) (isIJson_of_get? hw hx) hcontained⟩
    | _ => exact h.elim
  | _ => exact equalButProto_of_equal hv hw h

theorem containedButProto_of_equalButProto {v w : Json} (h : EqualButProto v w) :
    ContainedButProto v w := by
  induction v generalizing w with
  | obj ms ih =>
    cases w with
    | obj ns =>
      rw [EqualButProto, equalMembersButProto_iff] at h
      rw [ContainedButProto, containedMembersButProto_iff]
      intro m hm
      rcases h.2 m hm with ⟨x, hx, hequal⟩ | ⟨hnone, hproto, hempty⟩
      · exact .inl ⟨x, hx, ih m hm hequal⟩
      · exact .inr ⟨hnone, hproto, .inl hempty⟩
    | _ => exact h.elim
  | _ => exact h

/-- What is equal but for some members, and contained, is equal. -/
theorem equal_of_contained {v w : Json} (hv : Json.isIJson v = true) (hw : Json.isIJson w = true)
    (hequal : EqualButProto v w) (hcontained : Contained v w) : Json.Equal v w := by
  induction v generalizing w with
  | obj ms ih =>
    cases w with
    | obj ns =>
      rw [EqualButProto, equalMembersButProto_iff] at hequal
      rw [Contained, containedMembers_iff] at hcontained
      rw [Json.Equal, Json.equalMembers_iff]
      refine ⟨fun m hm => ?_, ?_⟩
      · obtain ⟨x, hx, hmember⟩ := hcontained m hm
        rcases hequal.2 m hm with ⟨y, hy, hyequal⟩ | ⟨hnone, _⟩
        · obtain rfl : x = y := Option.some.inj (hx.symm.trans hy)
          exact ⟨x, hx, ih m hm ((isIJson_obj hv).2 m hm) (isIJson_of_get? hw hx) hyequal hmember⟩
        · rw [hx] at hnone
          cases hnone
      · refine keys_subset_of_length (isIJson_obj hv).1 hequal.1 fun k hk => ?_
        obtain ⟨m, hm, rfl⟩ := List.mem_map.mp hk
        obtain ⟨x, hx, _⟩ := hcontained m hm
        exact Record.get?_isSome_iff.mp (by rw [hx, Option.isSome_some])
    | _ => exact hcontained.elim
  | _ => exact hcontained

theorem contained_isInherited {v w : Json} (hv : Json.isIJson v = true) (h : Contained v w)
    (hw : IsInherited w) : IsInherited v := by
  rcases hw with rfl | rfl
  · cases v with
    | obj ms =>
      cases ms with
      | nil => exact .inl rfl
      | cons m ms =>
        rw [Contained, containedMembers_iff] at h
        obtain ⟨x, hx, _⟩ := h m List.mem_cons_self
        cases hx
    | _ => exact h.elim
  · cases v with
    | obj ms =>
      rw [Contained, containedMembers_iff] at h
      have hmember : ∀ m ∈ ms, m = (proto, .null) := by
        rintro ⟨k, v⟩ hm
        obtain ⟨x, hx, hcontained⟩ := h _ hm
        rw [Record.get?_cons] at hx
        split at hx
        · next hk =>
          cases hx
          cases v with
          | null => exact congrArg (·, Json.null) hk.symm
          | _ => exact hcontained.elim
        · cases hx
      cases ms with
      | nil => exact .inl rfl
      | cons m ms =>
        cases ms with
        | nil => exact .inr (by rw [hmember m List.mem_cons_self])
        | cons m' ms =>
          have hnodup := (isIJson_obj hv).1
          rw [hmember m List.mem_cons_self,
            hmember m' (List.mem_cons_of_mem _ List.mem_cons_self)] at hnodup
          simp at hnodup
    | _ => exact h.elim

/-- Containment in a value that is contained but for some members. -/
theorem ContainedButProto.trans {u v w : Json} (hu : Json.isIJson u = true)
    (hv : Json.isIJson v = true) (hw : Json.isIJson w = true) (huv : Contained u v)
    (hvw : ContainedButProto v w) : ContainedButProto u w := by
  induction u generalizing v w with
  | obj ms ih =>
    cases v with
    | obj ns =>
      cases w with
      | obj os =>
        rw [Contained, containedMembers_iff] at huv
        rw [ContainedButProto, containedMembersButProto_iff] at hvw ⊢
        intro m hm
        obtain ⟨x, hx, hcontained⟩ := huv m hm
        have hvalue := (isIJson_obj hu).2 m hm
        rcases hvw _ (Record.mem_of_get? hx) with ⟨y, hy, hyx⟩ | ⟨hnone, hproto, hinherited⟩
        · exact .inl ⟨y, hy, ih m hm hvalue (isIJson_of_get? hv hx) (isIJson_of_get? hw hy)
            hcontained hyx⟩
        · exact .inr ⟨hnone, hproto, contained_isInherited hvalue hcontained hinherited⟩
      | _ => exact hvw.elim
    | _ => exact huv.elim
  | arr us =>
    cases v with
    | arr vs => exact EqualButProto.of_equal hu hv hw huv hvw
    | _ => exact huv.elim
  | null => cases v <;> simp_all [Contained, Json.Equal]
  | bool b => cases v <;> simp_all [Contained, Json.Equal]
  | str s => cases v <;> simp_all [Contained, Json.Equal]
  | num n =>
    cases v with
    | num m => exact EqualButProto.of_equal hu hv hw huv hvw
    | _ => exact huv.elim

/-- Containment is containment path by path. -/
theorem ownPaths_iff {v w : Json} (hv : Json.isIJson v = true) :
    OwnPaths v w ↔ Contained v w := by
  constructor
  · intro h
    induction v generalizing w with
    | obj ms ih =>
      obtain ⟨w', hw', ns, rfl⟩ := h [] _ rfl
      obtain rfl : w = .obj ns := Option.some.inj hw'
      rw [Contained, containedMembers_iff]
      intro m hm
      have hread : Record.get? ms m.1 = some m.2 := Record.get?_of_mem (isIJson_obj hv).1 hm
      have hpath : ∀ path, memberAt? (.obj ms) (m.1 :: path) = memberAt? m.2 path := fun path => by
        rw [memberAt?, Json.member?, hread, Option.bind_some]
      obtain ⟨x, hx, _⟩ := h [m.1] m.2 (hpath [])
      rw [memberAt?, Option.bind_eq_some_iff] at hx
      obtain ⟨y, hy, _⟩ := hx
      refine ⟨y, hy, ih m hm ((isIJson_obj hv).2 m hm) fun path v' hv' => ?_⟩
      obtain ⟨z, hz, hmatch⟩ := h (m.1 :: path) v' ((hpath path).trans hv')
      rw [memberAt?, hy, Option.bind_some] at hz
      exact ⟨z, hz, hmatch⟩
    | _ =>
      obtain ⟨w', hw', hequal⟩ := h [] _ rfl
      obtain rfl : w = w' := Option.some.inj hw'
      exact hequal
  · intro h path
    induction path generalizing v w with
    | nil =>
      rintro v' ⟨⟩
      refine ⟨w, rfl, ?_⟩
      cases v with
      | obj ms =>
        cases w with
        | obj ns => exact ⟨ns, rfl⟩
        | _ => exact h.elim
      | _ => exact h
    | cons k path ih =>
      intro v' hv'
      rw [memberAt?, Option.bind_eq_some_iff] at hv'
      obtain ⟨x, hx, hpath⟩ := hv'
      cases v with
      | obj ms =>
        cases w with
        | obj ns =>
          rw [Contained, containedMembers_iff] at h
          obtain ⟨y, hy, hcontained⟩ := h _ (Record.mem_of_get? hx)
          obtain ⟨z, hz, hmatch⟩ := ih (isIJson_of_get? hv hx) hcontained v' hpath
          exact ⟨z, by rw [memberAt?, Option.bind_eq_some_iff]; exact ⟨y, hy, hz⟩, hmatch⟩
        | _ => exact h.elim
      | _ => cases hx

end Containing

section Claims

/-- The comparisons are what they say, for every further value, exactly when what `a` has beyond `b`
is not just such `__proto__` members. -/
theorem comparing_iff (a b c : Json) (ha : Json.isIJson a = true) (hb : Json.isIJson b = true)
    (hc : Json.isIJson c = true) :
    ((jsonEqual a (.json b) = true ↔ Json.canonicalJSON a = Json.canonicalJSON b) ∧
      jsonSubset a (.json a) = true ∧
      (jsonSubset a (.json b) = true → jsonSubset b (.json c) = true →
        jsonSubset a (.json c) = true) ∧
      (jsonEqual a (.json b) = true → jsonSubset a (.json b) = true) ∧
      (jsonSubset a (.json b) = true → OwnPaths a b)) ↔
      (ContainedButProto a b → Contained a b) := by
  rw [jsonEqual_iff ha hb, jsonSubset_iff ha ha, jsonSubset_iff ha hb, jsonSubset_iff hb hc,
    jsonSubset_iff ha hc, ownPaths_iff ha, (Json.canonicalJSON_eq_iff a b ha hb).2.2]
  constructor
  · rintro ⟨_, _, _, _, hown⟩
    exact hown
  · intro hown
    refine ⟨⟨fun hequal => ?_, equalButProto_of_equal ha hb⟩, ?_, fun hab hbc => ?_,
      containedButProto_of_equalButProto, hown⟩
    · exact equal_of_contained ha hb hequal (hown (containedButProto_of_equalButProto hequal))
    · exact containedButProto_of_contained ha ha (contained_of_equal (equal_refl ha))
    · exact hbc.trans ha hb hc (hown hab)

/-- Values without inherited names in them. -/
theorem comparing_nested :
    let a : Json := .obj [(js "x", .obj [(js "y", .null)])]
    let b : Json := .obj [(js "w", .bool true), (js "x", .obj [(js "y", .null)])]
    (jsonEqual a (.json b) = true ↔ Json.canonicalJSON a = Json.canonicalJSON b) ∧
      jsonSubset a (.json a) = true ∧
      (jsonSubset a (.json b) = true → jsonSubset b (.json b) = true →
        jsonSubset a (.json b) = true) ∧
      (jsonEqual a (.json b) = true → jsonSubset a (.json b) = true) ∧
      (jsonSubset a (.json b) = true → OwnPaths a b) :=
  (comparing_iff _ _ _ (by decide) (by decide) (by decide)).mpr fun _ =>
    ⟨⟨_, rfl, ⟨_, rfl, trivial⟩, trivial⟩, trivial⟩

/-- An empty member `__proto__` is found in an object that has another member. -/
theorem emptyProto_found :
    let a : Json := .obj [(proto, .obj [])]
    let b : Json := .obj [(js "x", .null)]
    jsonEqual a (.json b) = true ∧ Json.canonicalJSON a ≠ Json.canonicalJSON b ∧
      jsonSubset a (.json b) = true ∧ ¬ OwnPaths a b := by
  have ha : Json.isIJson (.obj [(proto, .obj [])]) = true := by decide
  have hb : Json.isIJson (.obj [(js "x", .null)]) = true := by decide
  refine ⟨by decide, fun h => ?_, by decide, fun h => ?_⟩
  · obtain ⟨⟨⟨w, hw, _⟩, _⟩, _⟩ := (Json.canonicalJSON_eq_iff _ _ ha hb).2.2.mp h
    cases hw
  · obtain ⟨⟨w, hw, _⟩, _⟩ := (ownPaths_iff ha).mp h
    cases hw

end Claims

end OpenWop.Eval
