import OpenWop.Js.OwnMembers

/-!
# Runs of writes

Writing the entries of one record into another, as a spread after a spread does.
-/

namespace OpenWop.Js

namespace Record

variable {K V : Type} [DecidableEq K]

/-- What was written last is read, and where nothing was written, what was there. -/
theorem get?_foldl_set {writes : Record K V} (hnodup : (keys writes).Nodup) (r : Record K V)
    (key : K) : get? (writes.foldl (fun r m => set r m.1 m.2) r) key =
      (get? writes key).or (get? r key) := by
  induction writes generalizing r with
  | nil => rfl
  | cons m ms ih =>
    obtain ⟨hm, hms⟩ := List.nodup_cons.mp hnodup
    rw [List.foldl_cons, ih hms, get?_set, get?_cons]
    by_cases hk : key = m.1
    · have hnone : get? ms key = none := get?_eq_none_iff.mpr (hk ▸ hm)
      rw [if_pos hk, if_pos hk.symm, hnone]
      rfl
    · rw [if_neg hk, if_neg (Ne.symm hk)]

theorem nodup_foldl_set (writes : Record K V) {r : Record K V} (h : (keys r).Nodup) :
    (keys (writes.foldl (fun r m => set r m.1 m.2) r)).Nodup := by
  induction writes generalizing r with
  | nil => exact h
  | cons m ms ih => exact ih (nodup_keys_set h m.1 m.2)

/-- The entries written one by one are the record again. -/
theorem foldl_set_nil {r : Record K V} (h : (keys r).Nodup) :
    r.foldl (fun r m => set r m.1 m.2) [] = r := by
  induction r using List.reverseRecOn with
  | nil => rfl
  | append_singleton r m ih =>
    have hkeys : keys (r ++ [m]) = keys r ++ [m.1] := List.map_append
    rw [hkeys, List.nodup_append] at h
    have hnew : m.1 ∉ keys r := fun hm => h.2.2 m.1 hm m.1 (List.mem_singleton_self _) rfl
    rw [List.foldl_concat, ih h.1, set_of_not_mem m.2 hnew]

theorem nodup_keys_erase {r : Record K V} (h : (keys r).Nodup) (key : K) :
    (keys (erase r key)).Nodup := h.sublist (List.filter_sublist.map Prod.fst)

/-- A write to a name that is there replaces its value in place. -/
theorem set_split {r : Record K V} {key : K} {v : V} (h : get? r key = some v) (w : V) :
    ∃ before after, r = before ++ (key, v) :: after ∧ set r key w = before ++ (key, w) :: after := by
  induction r with
  | nil => cases h
  | cons m ms ih =>
    rw [get?_cons] at h
    rw [set_cons]
    split at h
    · next hk =>
      subst hk
      obtain rfl := Option.some.inj h
      exact ⟨[], ms, rfl, if_pos rfl⟩
    · next hk =>
      obtain ⟨before, after, rfl, hset⟩ := ih h
      exact ⟨m :: before, after, rfl, by rw [if_neg hk, hset, List.cons_append]⟩

end Record

section Assign

variable {V : Type} {out : Record JsString V} {name : JsString}

/-- Reading after an assignment to a name other than `__proto__`. -/
theorem get?_assign (hproto : name ≠ js "__proto__") (value : V) (k : JsString) :
    Record.get? (assign out name value) k = if k = name then some value else Record.get? out k := by
  rw [assign, if_neg hproto]
  by_cases hold : name ∈ Record.keys out
  · rw [if_pos hold, Record.get?_set]
  · rw [if_neg hold, Record.get?_append, Record.get?_cons]
    have hsplit : (Record.get? (out.takeWhile fun m => listedBefore name m.1) k).or
        (Record.get? (out.dropWhile fun m => listedBefore name m.1) k) = Record.get? out k := by
      rw [← Record.get?_append, List.takeWhile_append_dropWhile]
    by_cases hk : k = name
    · have hnone : Record.get? (out.takeWhile fun m => listedBefore name m.1) k = none :=
        Record.get?_eq_none_iff.mpr fun hin =>
          hold (hk ▸ ((List.takeWhile_sublist _).map Prod.fst).subset hin)
      rw [if_pos hk, if_pos hk.symm, hnone, Option.none_or]
    · rw [if_neg hk, if_neg (Ne.symm hk), hsplit]

end Assign

end OpenWop.Js
