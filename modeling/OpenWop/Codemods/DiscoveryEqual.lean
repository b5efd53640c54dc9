import OpenWop.Codemods.DiscoveryDocument
import OpenWop.Js.JsonEqual

/-!
# The comparison of mirrors

The texts the discovery codemod compares list the members of every object in one order. On I-JSON
values they are equal exactly where the values are.
-/

namespace OpenWop.Codemods.DiscoveryDocument

open OpenWop.Js OpenWop.Js.Json

section Entries

variable {V W : Type}

theorem define_map (f : V → W) (out : Record JsString V) (name : JsString) (value : V) :
    define (Record.mapValues f out) name (f value) =
      Record.mapValues f (define out name value) := by
  have hlisted : (fun m : JsString × W => listedBefore name m.1) ∘ (fun m : JsString × V =>
      (m.1, f m.2)) = fun m => listedBefore name m.1 := rfl
  rw [define, define, Record.keys_mapValues]
  split
  · exact (Record.mapValues_set f out name value).symm
  · simp only [Record.mapValues, List.takeWhile_map, List.dropWhile_map, hlisted, List.map_append,
      List.map_cons]

/-- Rewriting the values commutes with making an object of the entries. -/
theorem fromEntries_map (f : V → W) (entries : List (JsString × V)) :
    fromEntries (entries.map fun m => (m.1, f m.2)) = Record.mapValues f (fromEntries entries) := by
  induction entries using List.reverseRecOn with
  | nil => rfl
  | append_singleton entries m ih =>
    rw [List.map_append, List.map_singleton, fromEntries, List.foldl_concat, ← fromEntries, ih,
      define_map, fromEntries, fromEntries, List.foldl_concat]

theorem define_perm {out : Record JsString V} {name : JsString} (value : V)
    (hnew : name ∉ Record.keys out) : (define out name value).Perm ((name, value) :: out) := by
  rw [define, if_neg hnew]
  refine List.perm_middle.trans (List.Perm.cons _ ?_)
  rw [List.takeWhile_append_dropWhile]

theorem mem_of_mem_fromEntries {entries : List (JsString × V)} {m : JsString × V}
    (h : m ∈ fromEntries entries) : m ∈ entries := by
  induction entries using List.reverseRecOn with
  | nil => exact h
  | append_singleton entries n ih =>
    rw [fromEntries, List.foldl_concat, ← fromEntries] at h
    by_cases hold : n.1 ∈ Record.keys (fromEntries entries)
    · rw [define, if_pos hold] at h
      rcases mem_of_mem_set h with rfl | h
      · exact List.mem_append_right _ (List.mem_singleton_self _)
      · exact List.mem_append_left _ (ih h)
    · rcases List.mem_cons.mp ((define_perm n.2 hold).mem_iff.mp h) with rfl | h
      · exact List.mem_append_right _ (List.mem_singleton_self _)
      · exact List.mem_append_left _ (ih h)

/-- Entries under distinct names are all members. -/
theorem fromEntries_perm {entries : List (JsString × V)} (h : (Record.keys entries).Nodup) :
    (fromEntries entries).Perm entries := by
  induction entries using List.reverseRecOn with
  | nil => exact List.Perm.nil
  | append_singleton entries n ih =>
    have hkeys : Record.keys (entries ++ [n]) = Record.keys entries ++ [n.1] := List.map_append
    rw [hkeys, List.nodup_append] at h
    have hnew : n.1 ∉ Record.keys (fromEntries entries) := fun hin => by
      obtain ⟨m, hm, heq⟩ := List.mem_map.mp hin
      exact h.2.2 m.1 (List.mem_map_of_mem (mem_of_mem_fromEntries hm)) n.1
        (List.mem_singleton_self _) heq
    rw [fromEntries, List.foldl_concat, ← fromEntries]
    refine (define_perm n.2 hnew).trans ?_
    exact ((ih h.1).cons n).trans (List.perm_append_singleton n entries).symm

end Entries

section Sorted

variable {v w : Json}

theorem sortItems_eq (items : List Json) : sortItems items = items.map sort := by
  induction items with
  | nil => rfl
  | cons v vs ih => rw [sortItems, ih, List.map_cons]

theorem sortMembers_eq (members : List (JsString × Json)) :
    sortMembers members = members.map fun m => (m.1, sort m.2) := by
  induction members with
  | nil => rfl
  | cons m ms ih => rw [sortMembers, ih, List.map_cons]

/-- The text of a sorted object, from the texts of its values. -/
theorem stringify_sort_obj (members : List (JsString × Json)) :
    (sort (.obj members)).stringify = unit '\x7b' :: (join [unit ',']
      ((fromEntries (sortBy (codeUnitOrder.on Prod.fst)
        (members.map fun m => (m.1, (sort m.2).stringify)))).map fun m =>
          quote m.1 ++ unit ':' :: m.2) ++ [unit '\x7d']) := by
  have htexts : members.map (fun m => (m.1, (sort m.2).stringify)) =
      (members.map fun m => (m.1, sort m.2)).map fun m => (m.1, m.2.stringify) := by
    rw [List.map_map]
    rfl
  rw [sort, stringify, stringifyMembers_eq, sortMembers_eq, htexts,
    sortBy_map_fst fun v : Json => v.stringify, fromEntries_map fun v : Json => v.stringify,
    Record.mapValues, List.map_map]
  rfl

/-- The text does not tell the order of members or the sign of a zero. -/
theorem stringify_sort_normalize (v : Json) :
    (sort (Json.normalize v)).stringify = (sort v).stringify := by
  induction v with
  | null | bool _ | str _ => rfl
  | num n => cases n <;> simp [Json.normalize, sort, stringify, JsNumber.unsigned]
  | arr items ih =>
    rw [Json.normalize, sort, sort, stringify, stringify, stringifyItems_eq, stringifyItems_eq,
      sortItems_eq, sortItems_eq, normalizeItems_eq, List.map_map, List.map_map, List.map_map]
    simp only [Function.comp_def]
    rw [List.map_congr_left ih]
  | obj members ih =>
    have hvalues : (members.map fun m => (m.1, Json.normalize m.2)).map
        (fun m => (m.1, (sort m.2).stringify)) =
          members.map fun m => (m.1, (sort m.2).stringify) := by
      rw [List.map_map]
      exact List.map_congr_left fun m hm => Prod.ext rfl (ih m hm)
    rw [Json.normalize, stringify_sort_obj, stringify_sort_obj, normalizeMembers_eq,
      ← sortBy_map_fst fun v => (sort v).stringify, hvalues, sortBy_sortBy]

theorem isPlain_sort (h : isPlain v = true) : isPlain (sort v) = true := by
  induction v with
  | null | bool _ | num _ | str _ => exact h
  | arr items ih =>
    rw [isPlain, plainItems_iff] at h
    rw [sort, isPlain, plainItems_iff, sortItems_eq, List.forall_mem_map]
    exact fun v hv => ih v hv (h v hv)
  | obj members ih =>
    rw [isPlain, plainMembers_iff] at h
    rw [sort, isPlain, plainMembers_iff, sortMembers_eq]
    intro m hm
    obtain ⟨n, hn, rfl⟩ := List.mem_map.mp (mem_sortBy.mp (mem_of_mem_fromEntries hm))
    exact ⟨(h n hn).1, ih n hn (h n hn).2⟩

/-- Sorting a normal form rearranges it only. -/
theorem normalize_sort_normalize (h : isIJson v = true) :
    Json.normalize (sort (Json.normalize v)) = Json.normalize v := by
  induction v with
  | null | bool _ | str _ => rfl
  | num n => cases n <;> simp [Json.normalize, sort, JsNumber.unsigned]
  | arr items ih =>
    rw [isIJson, isIJsonItems_iff] at h
    rw [Json.normalize, sort, Json.normalize, normalizeItems_eq, normalizeItems_eq, sortItems_eq,
      List.map_map, List.map_map, Json.arr.injEq]
    exact List.map_congr_left fun v hv => ih v hv (h v hv)
  | obj members ih =>
    rw [isIJson, Bool.and_eq_true, decide_eq_true_eq, isIJsonMembers_iff] at h
    have hkeys : (Record.keys (members.map fun m => (m.1, Json.normalize m.2))).Nodup := by
      rw [← normalizeMembers_eq, keys_normalizeMembers]
      exact h.1
    set ms := members.map fun m => (m.1, Json.normalize m.2) with hms
    rw [Json.normalize, normalizeMembers_eq, ← hms, sort, Json.normalize, Json.obj.injEq,
      sortMembers_eq, normalizeMembers_eq]
    have hvalues : ms.map (fun m => (m.1, Json.normalize (sort m.2))) = ms := by
      rw [hms, List.map_map]
      exact List.map_congr_left fun m hm => Prod.ext rfl (ih m hm (h.2 m hm).2)
    have hsorted : (Record.keys (sortBy (codeUnitOrder.on Prod.fst)
        ((sortBy (codeUnitOrder.on Prod.fst) ms).map fun m => (m.1, sort m.2)))).Nodup := by
      refine ((sortBy_perm _ _).map Prod.fst).nodup_iff.mpr ?_
      rw [List.map_map]
      exact ((sortBy_perm _ ms).map Prod.fst).nodup_iff.mpr hkeys
    refine (sortBy_eq_of_perm ?_ fun a ha b hb hab => ?_)
    · refine ((fromEntries_perm hsorted).map _).trans (((sortBy_perm _ _).map _).trans ?_)
      rw [List.map_map]
      refine ((sortBy_perm _ ms).map _).trans ?_
      exact (List.Perm.of_eq hvalues)
    · have hnodup : (((fromEntries (sortBy (codeUnitOrder.on Prod.fst)
          ((sortBy (codeUnitOrder.on Prod.fst) ms).map fun m => (m.1, sort m.2)))).map
            fun m => (m.1, Json.normalize m.2)).map Prod.fst).Nodup := by
        rw [List.map_map]
        exact ((fromEntries_perm hsorted).map Prod.fst).nodup_iff.mpr hsorted
      exact List.inj_on_of_nodup_map hnodup ha hb (compareCodeUnits_eq_zero hab)

/-- On I-JSON values the comparison is equality. -/
theorem eq_iff (hv : isIJson v = true) (hw : isIJson w = true) : eq v w = true ↔ Equal v w := by
  rw [eq, decide_eq_true_iff, equal_iff_normalize hv hw, ← stringify_sort_normalize v,
    ← stringify_sort_normalize w]
  constructor
  · intro h
    have hsame := stringify_inj (isPlain_sort (isPlain_normalize hv))
      (isPlain_sort (isPlain_normalize hw)) h
    rw [← normalize_sort_normalize hv, hsame, normalize_sort_normalize hw]
  · intro h
    rw [h]

end Sorted

end OpenWop.Codemods.DiscoveryDocument
