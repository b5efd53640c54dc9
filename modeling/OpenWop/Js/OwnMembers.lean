import Mathlib.Data.List.Perm.Subperm
import OpenWop.Js.Record
import OpenWop.Js.Text

/-!
# Members assigned one by one

An object that is filled by `out[name] = value` lists its array indices first, in ascending order,
and then the other names as they came. A name assigned twice is one member, and assigning to
`__proto__` makes none.
-/

namespace OpenWop.Js

section Order

/-- The array index a name is, if any. -/
def arrayIndex? (name : JsString) : Option Nat :=
  let n := Nat.ofDigits 10 (name.reverse.map fun u => u.toNat - 48)
  if decimal n = name ∧ n < 2 ^ 32 - 1 then some n else none

/-- The second name, already there, is listed before the first. -/
def listedBefore (name present : JsString) : Bool :=
  match arrayIndex? name, arrayIndex? present with
  | none, _ => true
  | some i, some j => j < i
  | some _, none => false

theorem arrayIndex?_inj {k l : JsString} {i : Nat} (hk : arrayIndex? k = some i)
    (hl : arrayIndex? l = some i) : k = l := by
  simp only [arrayIndex?, Option.ite_none_right_eq_some, Option.some.injEq] at hk hl
  rw [← hk.1.1, ← hl.1.1, hk.2, hl.2]

/-- Of two names one is listed before the other. -/
theorem listedBefore_total {k l : JsString} (hne : k ≠ l) (h : listedBefore k l = false) :
    listedBefore l k = true := by
  unfold listedBefore at h ⊢
  cases hl : arrayIndex? l with
  | none => rfl
  | some j =>
    cases hk : arrayIndex? k with
    | none => rw [hk] at h; cases h
    | some i =>
      have hij : i ≠ j := fun heq => hne (arrayIndex?_inj (heq ▸ hk) hl)
      simp only [hk, hl, decide_eq_false_iff_not, decide_eq_true_eq] at h ⊢
      omega

theorem listedBefore_trans {k l m : JsString} (h : listedBefore l k = true)
    (h' : listedBefore m l = true) : listedBefore m k = true := by
  unfold listedBefore at h h' ⊢
  cases hm : arrayIndex? m with
  | none => rfl
  | some i =>
    cases hl : arrayIndex? l with
    | none => rw [hm, hl] at h'; cases h'
    | some j =>
      cases hk : arrayIndex? k with
      | none => rw [hl, hk] at h; cases h
      | some n =>
        simp only [hm, hl, hk, decide_eq_true_eq] at h h' ⊢
        omega

end Order

section Assign

variable {V : Type}

/-- `out[name] = value` on an object with these own members. -/
def assign (out : Record JsString V) (name : JsString) (value : V) : Record JsString V :=
  if name = js "__proto__" then out
  else if name ∈ Record.keys out then Record.set out name value
  else out.takeWhile (fun m => listedBefore name m.1) ++
    (name, value) :: out.dropWhile fun m => listedBefore name m.1

/-- The object that is filled with these members, one by one. -/
def assignAll (members : List (JsString × V)) : Record JsString V :=
  members.foldl (fun out m => assign out m.1 m.2) []

theorem assignAll_concat (members : List (JsString × V)) (m : JsString × V) :
    assignAll (members ++ [m]) = assign (assignAll members) m.1 m.2 := by
  rw [assignAll, List.foldl_concat]
  rfl

/-- A new name is one more member. -/
theorem assign_perm {out : Record JsString V} {name : JsString} (value : V)
    (hproto : name ≠ js "__proto__") (hnew : name ∉ Record.keys out) :
    (assign out name value).Perm ((name, value) :: out) := by
  rw [assign, if_neg hproto, if_neg hnew]
  refine List.perm_middle.trans (List.Perm.cons _ ?_)
  rw [List.takeWhile_append_dropWhile]

theorem mem_of_mem_set {out : Record JsString V} {name : JsString} {value : V}
    {m : JsString × V} (h : m ∈ Record.set out name value) : m = (name, value) ∨ m ∈ out := by
  induction out with
  | nil => exact Or.inl (List.mem_singleton.mp h)
  | cons n out ih =>
    rw [Record.set_cons] at h
    split at h
    · exact (List.mem_cons.mp h).imp_right (List.mem_cons_of_mem n)
    · rcases List.mem_cons.mp h with rfl | h
      · exact Or.inr (List.mem_cons_self ..)
      · exact (ih h).imp_right (List.mem_cons_of_mem n)

theorem mem_of_mem_assign {out : Record JsString V} {name : JsString} {value : V}
    {m : JsString × V} (h : m ∈ assign out name value) : m = (name, value) ∨ m ∈ out := by
  by_cases hproto : name = js "__proto__"
  · rw [assign, if_pos hproto] at h
    exact Or.inr h
  · by_cases hold : name ∈ Record.keys out
    · rw [assign, if_neg hproto, if_pos hold] at h
      exact mem_of_mem_set h
    · exact List.mem_cons.mp ((assign_perm value hproto hold).mem_iff.mp h)

theorem mem_keys_assign {out : Record JsString V} {name k : JsString} {value : V} :
    k ∈ Record.keys (assign out name value) ↔
      k ∈ Record.keys out ∨ k = name ∧ name ≠ js "__proto__" := by
  by_cases hproto : name = js "__proto__"
  · simp [assign, hproto]
  · by_cases hold : name ∈ Record.keys out
    · rw [assign, if_neg hproto, if_pos hold, Record.keys_set_of_mem value hold]
      refine ⟨Or.inl, fun h => h.elim id ?_⟩
      rintro ⟨rfl, -⟩
      exact hold
    · have hperm := (assign_perm value hproto hold).map Prod.fst
      rw [Record.keys, hperm.mem_iff]
      simp [Record.keys, hproto, or_comm]

theorem nodup_keys_assign {out : Record JsString V} (h : (Record.keys out).Nodup)
    (name : JsString) (value : V) : (Record.keys (assign out name value)).Nodup := by
  by_cases hproto : name = js "__proto__"
  · rwa [assign, if_pos hproto]
  · by_cases hold : name ∈ Record.keys out
    · rw [assign, if_neg hproto, if_pos hold]
      exact Record.nodup_keys_set h name value
    · have hperm := (assign_perm value hproto hold).map Prod.fst
      exact hperm.nodup_iff.mpr (List.nodup_cons.mpr ⟨hold, h⟩)

end Assign

section AssignAll

variable {V : Type} {members : List (JsString × V)}

theorem mem_of_mem_assignAll {m : JsString × V} (h : m ∈ assignAll members) : m ∈ members := by
  induction members using List.reverseRecOn with
  | nil => exact h
  | append_singleton members n ih =>
    rw [assignAll_concat] at h
    rcases mem_of_mem_assign h with rfl | h
    · exact List.mem_append_right members (List.mem_singleton_self _)
    · exact List.mem_append_left _ (ih h)

theorem mem_keys_assignAll {k : JsString} :
    k ∈ Record.keys (assignAll members) ↔ k ∈ Record.keys members ∧ k ≠ js "__proto__" := by
  induction members using List.reverseRecOn with
  | nil => simp [assignAll, Record.keys]
  | append_singleton members n ih =>
    have hkeys : Record.keys (members ++ [n]) = Record.keys members ++ [n.1] := List.map_append
    rw [assignAll_concat, mem_keys_assign, ih, hkeys, List.mem_append, List.mem_singleton,
      or_and_right]
    refine or_congr_right (and_congr_right fun hk => ?_)
    rw [hk]

theorem nodup_keys_assignAll (members : List (JsString × V)) :
    (Record.keys (assignAll members)).Nodup := by
  induction members using List.reverseRecOn with
  | nil => exact List.nodup_nil
  | append_singleton members n ih =>
    rw [assignAll_concat]
    exact nodup_keys_assign ih n.1 n.2

/-- Distinct names other than `__proto__` keep all members. -/
theorem assignAll_perm (h : (Record.keys members).Nodup)
    (hproto : js "__proto__" ∉ Record.keys members) : (assignAll members).Perm members := by
  induction members using List.reverseRecOn with
  | nil => exact List.Perm.nil
  | append_singleton members n ih =>
    have hkeys : Record.keys (members ++ [n]) = Record.keys members ++ [n.1] := List.map_append
    rw [hkeys, List.nodup_append] at h
    rw [hkeys, List.mem_append, not_or, List.mem_singleton] at hproto
    have hnew : n.1 ∉ Record.keys (assignAll members) := fun hmem =>
      h.2.2 n.1 (mem_keys_assignAll.mp hmem).1 n.1 (List.mem_singleton_self _) rfl
    rw [assignAll_concat]
    refine (assign_perm n.2 (Ne.symm hproto.2) hnew).trans ?_
    exact ((ih h.1 hproto.1).cons n).trans (List.perm_append_singleton n members).symm

/-- Only so does an object have as many members as were assigned. -/
theorem length_assignAll_iff : (assignAll members).length = members.length ↔
    (Record.keys members).Nodup ∧ js "__proto__" ∉ Record.keys members := by
  constructor
  · intro h
    have hsub : Record.keys (assignAll members) ⊆ Record.keys members := fun k hk =>
      (mem_keys_assignAll.mp hk).1
    have hlen : (Record.keys members).length ≤ (Record.keys (assignAll members)).length := by
      rw [Record.keys, Record.keys, List.length_map, List.length_map, h]
    have hnodup := nodup_keys_assignAll members
    have hperm := (List.subperm_of_subset hnodup hsub).perm_of_length_le hlen
    refine ⟨hperm.nodup_iff.mp hnodup, fun hproto => ?_⟩
    exact (mem_keys_assignAll.mp (hperm.mem_iff.mpr hproto)).2 rfl
  · rintro ⟨hnodup, hproto⟩
    exact (assignAll_perm hnodup hproto).length_eq

end AssignAll

section Listed

variable {V : Type}

/-- The members are listed as an object lists them. -/
def Listed (out : Record JsString V) : Prop :=
  (Record.keys out).Pairwise fun k l => listedBefore l k = true

theorem Listed.assign {out : Record JsString V} (h : Listed out) (name : JsString) (value : V) :
    Listed (assign out name value) := by
  by_cases hproto : name = js "__proto__"
  · rwa [Js.assign, if_pos hproto]
  by_cases hold : name ∈ Record.keys out
  · rwa [Js.assign, if_neg hproto, if_pos hold, Listed, Record.keys_set_of_mem value hold]
  rw [Js.assign, if_neg hproto, if_neg hold]
  -- the members before the place of the new one are listed before it, and it before the others
  have hsplit := List.takeWhile_append_dropWhile (p := fun m => listedBefore name m.1) (l := out)
  have hfront : ∀ m ∈ out.takeWhile fun m => listedBefore name m.1,
      listedBefore name m.1 = true := fun m hm =>
    List.mem_takeWhile_imp (p := fun m : JsString × V => listedBefore name m.1) hm
  have hback : ∀ m ∈ (out.dropWhile fun m => listedBefore name m.1).head?,
      listedBefore name m.1 = false := fun m hm => by
    have hhead := List.head?_dropWhile_not (fun m : JsString × V => listedBefore name m.1) out
    rw [Option.mem_def.mp hm] at hhead
    simpa using hhead
  generalize (out.takeWhile fun m => listedBefore name m.1) = front at hsplit hfront ⊢
  generalize (out.dropWhile fun m => listedBefore name m.1) = back at hsplit hback ⊢
  subst hsplit
  rw [Listed, Record.keys, List.map_append, List.pairwise_append] at h
  obtain ⟨hf, hb, hfb⟩ := h
  have hafter : ∀ l ∈ back.map Prod.fst, listedBefore l name = true := by
    cases back with
    | nil => simp
    | cons m back =>
      have hne : name ≠ m.1 := fun heq => hold (by simp [Record.keys, heq])
      have hm := listedBefore_total hne (hback m rfl)
      intro l hl
      rcases List.mem_cons.mp hl with rfl | hl
      · exact hm
      · exact listedBefore_trans hm (List.rel_of_pairwise_cons hb hl)
  rw [Listed, Record.keys, List.map_append, List.map_cons, List.pairwise_append,
    List.pairwise_cons]
  refine ⟨hf, ⟨hafter, hb⟩, fun k hk l hl => ?_⟩
  rcases List.mem_cons.mp hl with rfl | hl
  · obtain ⟨m, hm, rfl⟩ := List.mem_map.mp hk
    exact hfront m hm
  · exact hfb k hk l hl

theorem listed_assignAll (members : List (JsString × V)) : Listed (assignAll members) := by
  induction members using List.reverseRecOn with
  | nil => exact List.Pairwise.nil
  | append_singleton members m ih =>
    rw [assignAll_concat]
    exact ih.assign m.1 m.2

theorem assignAll_of_listed {out : Record JsString V} (h : Listed out)
    (hnodup : (Record.keys out).Nodup) (hproto : js "__proto__" ∉ Record.keys out) :
    assignAll out = out := by
  induction out using List.reverseRecOn with
  | nil => rfl
  | append_singleton out m ih =>
    have hkeys : Record.keys (out ++ [m]) = Record.keys out ++ [m.1] := List.map_append
    rw [hkeys, List.nodup_append] at hnodup
    rw [hkeys, List.mem_append, not_or, List.mem_singleton] at hproto
    rw [Listed, hkeys, List.pairwise_append] at h
    have hnew : m.1 ∉ Record.keys out := fun hmem =>
      hnodup.2.2 m.1 hmem m.1 (List.mem_singleton_self _) rfl
    have hall : ∀ n ∈ out, listedBefore m.1 n.1 = true := fun n hn =>
      h.2.2 n.1 (List.mem_map_of_mem hn) m.1 (List.mem_singleton_self _)
    rw [assignAll_concat, ih h.1 hnodup.1 hproto.1, assign, if_neg (Ne.symm hproto.2),
      if_neg hnew, List.takeWhile_eq_self_iff.mpr hall, List.dropWhile_eq_nil_iff.mpr hall]

/-- Filling an object with its own members gives it again. -/
theorem assignAll_assignAll (members : List (JsString × V)) :
    assignAll (assignAll members) = assignAll members :=
  assignAll_of_listed (listed_assignAll members) (nodup_keys_assignAll members) fun h =>
    (mem_keys_assignAll.mp h).2 rfl

end Listed

end OpenWop.Js
