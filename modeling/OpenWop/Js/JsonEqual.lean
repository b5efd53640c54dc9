import OpenWop.Js.Canonical

/-!
# Equality of JSON values and canonical JSON

Two values are equal as JSON values when they agree up to the order of members and the
sign of zero. Of I-JSON values, these are the ones with the same canonical text: the
text of a plain value is read back up to a delimiter, kind by kind.
-/

namespace OpenWop.Js

namespace Json

section Values

mutual

/-- Equality of JSON values: members in any order, items in order, both zeros equal. -/
def Equal : Json → Json → Prop
  | .null, .null => True
  | .bool a, .bool b => a = b
  | .num m, .num n => m.unsigned = n.unsigned
  | .str s, .str t => s = t
  | .arr vs, .arr ws => EqualItems vs ws
  | .obj ms, .obj ns => EqualMembers ms ns ∧ ∀ k ∈ Record.keys ns, k ∈ Record.keys ms
  | _, _ => False

/-- Equality of items, one by one. -/
def EqualItems : List Json → List Json → Prop
  | [], [] => True
  | v :: vs, w :: ws => Equal v w ∧ EqualItems vs ws
  | _, _ => False

/-- Every member has an equal member in the other record. -/
def EqualMembers : List (JsString × Json) → Record JsString Json → Prop
  | [], _ => True
  | (k, v) :: ms, ns => (∃ w, Record.get? ns k = some w ∧ Equal v w) ∧ EqualMembers ms ns

end

mutual

/-- I-JSON: finite numbers, strings and names without lone surrogates, distinct names. -/
def isIJson : Json → Bool
  | .num (.finite _) => true
  | .num _ => false
  | .str s => isWellFormed s
  | .arr items => isIJsonItems items
  | .obj members => (Record.keys members).Nodup && isIJsonMembers members
  | _ => true

/-- Every item is I-JSON. -/
def isIJsonItems : List Json → Bool
  | [] => true
  | v :: vs => isIJson v && isIJsonItems vs

/-- Every name is well formed and every member value I-JSON. -/
def isIJsonMembers : List (JsString × Json) → Bool
  | [] => true
  | (k, v) :: ms => isWellFormed k && isIJson v && isIJsonMembers ms

end

theorem equalItems_iff {vs : List Json} (f : Json → Json)
    (h : ∀ v ∈ vs, ∀ w, isIJson w = true → (Equal v w ↔ f v = f w)) :
    ∀ ws, (∀ w ∈ ws, isIJson w = true) → (EqualItems vs ws ↔ vs.map f = ws.map f) := by
  induction vs with
  | nil => intro ws _; cases ws <;> simp [EqualItems]
  | cons v vs ih =>
    intro ws hws
    rw [List.forall_mem_cons] at h
    cases ws with
    | nil => simp [EqualItems]
    | cons w ws =>
      rw [List.forall_mem_cons] at hws
      rw [EqualItems, h.1 w hws.1, ih h.2 ws hws.2, List.map_cons, List.map_cons, List.cons.injEq]

theorem equalMembers_iff {ms : List (JsString × Json)} {ns : Record JsString Json} :
    EqualMembers ms ns ↔ ∀ m ∈ ms, ∃ w, Record.get? ns m.1 = some w ∧ Equal m.2 w := by
  induction ms with
  | nil => simp [EqualMembers]
  | cons m ms ih =>
    obtain ⟨k, v⟩ := m
    rw [EqualMembers, ih, List.forall_mem_cons]

theorem isIJsonItems_iff {items : List Json} :
    isIJsonItems items = true ↔ ∀ v ∈ items, isIJson v = true := by
  induction items with
  | nil => simp [isIJsonItems]
  | cons v vs ih => simp [isIJsonItems, ih]

theorem isIJsonMembers_iff {members : List (JsString × Json)} : isIJsonMembers members = true ↔
    ∀ m ∈ members, isWellFormed m.1 = true ∧ isIJson m.2 = true := by
  induction members with
  | nil => simp [isIJsonMembers]
  | cons m ms ih =>
    obtain ⟨k, v⟩ := m
    simp [isIJsonMembers, ih, and_assoc]

end Values

section Normal

/-- Records with distinct names sort alike exactly when they read alike. -/
theorem sortBy_fst_eq_iff {r r' : Record JsString Json} (hr : (Record.keys r).Nodup)
    (hr' : (Record.keys r').Nodup) :
    sortBy (codeUnitOrder.on Prod.fst) r = sortBy (codeUnitOrder.on Prod.fst) r' ↔
      ∀ k, Record.get? r k = Record.get? r' k := by
  have hties : ∀ a ∈ r, ∀ b ∈ r, (codeUnitOrder.on Prod.fst).compare a b = 0 → a = b := by
    intro a ha b hb hab
    exact List.inj_on_of_nodup_map hr ha hb (compareCodeUnits_eq_zero hab)
  constructor
  · intro h k
    have hperm : r.Perm r' := (sortBy_perm _ r).symm.trans (h ▸ sortBy_perm _ r')
    cases hk : Record.get? r k with
    | none =>
      rw [Record.get?_eq_none_iff] at hk
      refine (Record.get?_eq_none_iff.mpr fun hk' => hk ?_).symm
      exact (hperm.map Prod.fst).mem_iff.mpr hk'
    | some v => exact (Record.get?_of_mem hr' (hperm.mem_iff.mp (Record.mem_of_get? hk))).symm
  · intro h
    exact sortBy_eq_of_perm (Record.perm_of_get?_eq hr hr' h) hties

theorem keys_normalizeMembers (members : Record JsString Json) :
    Record.keys (normalizeMembers members) = Record.keys members := by
  rw [normalizeMembers_eq]
  exact Record.keys_mapValues normalize members

theorem get?_normalizeMembers (members : Record JsString Json) (k : JsString) :
    Record.get? (normalizeMembers members) k = (Record.get? members k).map normalize := by
  rw [normalizeMembers_eq]
  exact Record.get?_mapValues normalize members k

/-- Members are equal when their normal forms read alike. -/
theorem equalMembers_iff_get? {ms ns : Record JsString Json} (hms : (Record.keys ms).Nodup)
    (h : ∀ m ∈ ms, ∀ w, Record.get? ns m.1 = some w → (Equal m.2 w ↔ normalize m.2 = normalize w)) :
    (EqualMembers ms ns ∧ ∀ k ∈ Record.keys ns, k ∈ Record.keys ms) ↔
      ∀ k, (Record.get? ms k).map normalize = (Record.get? ns k).map normalize := by
  rw [equalMembers_iff]
  constructor
  · rintro ⟨hmembers, hkeys⟩ k
    cases hk : Record.get? ms k with
    | none =>
      have hns : Record.get? ns k = none :=
        Record.get?_eq_none_iff.mpr fun hm => Record.get?_eq_none_iff.mp hk (hkeys k hm)
      rw [hns]
    | some v =>
      have hm := Record.mem_of_get? hk
      obtain ⟨w, hw, hequal⟩ := hmembers (k, v) hm
      rw [hw, Option.map_some, Option.map_some, (h (k, v) hm w hw).mp hequal]
  · intro hread
    constructor
    · intro m hm
      have hk := hread m.1
      rw [Record.get?_of_mem hms hm, Option.map_some, eq_comm, Option.map_eq_some_iff] at hk
      obtain ⟨w, hw, hnormal⟩ := hk
      exact ⟨w, hw, (h m hm w hw).mpr hnormal.symm⟩
    · intro k hk
      rw [← Record.get?_isSome_iff] at hk ⊢
      rw [← Option.isSome_map (f := normalize), hread k, Option.isSome_map]
      exact hk

/-- I-JSON values are equal exactly when their normal forms are. -/
theorem equal_iff_normalize {v w : Json} (hv : isIJson v = true) (hw : isIJson w = true) :
    Equal v w ↔ normalize v = normalize w := by
  induction v generalizing w with
  | null => cases w <;> simp [Equal, normalize]
  | bool b => cases w <;> simp [Equal, normalize]
  | num n => cases w <;> simp [Equal, normalize]
  | str s => cases w <;> simp [Equal, normalize]
  | arr vs ih =>
    cases w with
    | arr ws =>
      rw [isIJson, isIJsonItems_iff] at hv hw
      rw [Equal, normalize, normalize, Json.arr.injEq, normalizeItems_eq, normalizeItems_eq]
      exact equalItems_iff normalize (fun v hm w hw => ih v hm (hv v hm) hw) ws hw
    | _ => simp [Equal, normalize]
  | obj ms ih =>
    cases w with
    | obj ns =>
      rw [isIJson, Bool.and_eq_true, decide_eq_true_eq, isIJsonMembers_iff] at hv hw
      rw [Equal, normalize, normalize, Json.obj.injEq, sortBy_fst_eq_iff
        (by rw [keys_normalizeMembers]; exact hv.1) (by rw [keys_normalizeMembers]; exact hw.1)]
      simp only [get?_normalizeMembers]
      refine equalMembers_iff_get? hv.1 fun m hm w hget => ih m hm (hv.2 m hm).2 ?_
      exact (hw.2 _ (Record.mem_of_get? hget)).2
    | _ => simp [Equal, normalize]

/-- The normal form of an I-JSON value is plain. -/
theorem isPlain_normalize {v : Json} (h : isIJson v = true) : isPlain (normalize v) = true := by
  induction v with
  | null => rfl
  | bool b => rfl
  | num n =>
    cases n with
    | finite d => simp [normalize, JsNumber.unsigned, isPlain]
    | nan => cases h
    | infinity b => cases h
  | str s => exact h
  | arr vs ih =>
    rw [isIJson, isIJsonItems_iff] at h
    rw [normalize, isPlain, normalizeItems_eq, plainItems_iff, List.forall_mem_map]
    exact fun v hm => ih v hm (h v hm)
  | obj ms ih =>
    rw [isIJson, Bool.and_eq_true, isIJsonMembers_iff] at h
    rw [normalize, isPlain, normalizeMembers_eq, plainMembers_iff]
    simp only [mem_sortBy, List.forall_mem_map]
    exact fun m hm => ⟨(h.2 m hm).1, ih m hm (h.2 m hm).2⟩

end Normal

section Reading

open Delimited

/-- A unit that follows a value in an array or an object. -/
def IsDelimiter (u : UInt16) : Prop := u = unit ',' ∨ u = unit ']' ∨ u = unit '\x7d'

/-- The kind of a value, by the first unit of its text. -/
def kindOfUnit (u : UInt16) : Option Nat :=
  if u = unit 'n' then some 0
  else if u = unit 't' || u = unit 'f' then some 1
  else if u = unit '"' then some 2
  else if u = unit '[' then some 3
  else if u = unit '\x7b' then some 4
  else if isNumberUnit u then some 5
  else none

/-- The kind of a value. -/
def kind : Json → Nat
  | .null => 0
  | .bool _ => 1
  | .str _ => 2
  | .arr _ => 3
  | .obj _ => 4
  | .num _ => 5

theorem kindOfUnit_of_isNumberUnit {u : UInt16} (h : isNumberUnit u = true) :
    kindOfUnit u = some 5 := by
  have hne : ∀ v : UInt16, isNumberUnit v = false → u ≠ v := by
    rintro v hv rfl
    rw [h] at hv
    cases hv
  rw [kindOfUnit, if_neg (hne _ (by decide)), if_neg, if_neg (hne _ (by decide)),
    if_neg (hne _ (by decide)), if_neg (hne _ (by decide)), if_pos h]
  simp [hne (unit 't') (by decide), hne (unit 'f') (by decide)]

/-- The first unit of a text tells the kind of its value. -/
theorem kindOfUnit_stringify {v : Json} (h : isPlain v = true) (r : JsString) :
    (stringify v ++ r).head?.bind kindOfUnit = some v.kind := by
  cases v with
  | null => rfl
  | bool b => cases b <;> rfl
  | num n =>
    cases n with
    | finite d =>
      obtain ⟨hne, hunits⟩ := d.isNumberUnit_text
      obtain ⟨u, rest, hu⟩ := List.exists_cons_of_ne_nil hne
      rw [hu] at hunits
      rw [stringify, hu]
      exact kindOfUnit_of_isNumberUnit (hunits u List.mem_cons_self)
    | nan => cases h
    | infinity b => cases h
  | str s => rfl
  | arr vs => rfl
  | obj ms => rfl

theorem kind_eq_of_stringify {v w : Json} (hv : isPlain v = true) (hw : isPlain w = true)
    {r r' : JsString} (h : stringify v ++ r = stringify w ++ r') : v.kind = w.kind := by
  have hkind := kindOfUnit_stringify hv r
  rw [h, kindOfUnit_stringify hw r'] at hkind
  exact (Option.some.inj hkind).symm

/-- No text of a value starts with the end of an array. -/
theorem head_stringify_ne {v : Json} (h : isPlain v = true) (r : JsString) :
    (stringify v ++ r).head? ≠ some (unit ']') := by
  intro hhead
  have hkind := kindOfUnit_stringify h r
  have hnone : (some (unit ']')).bind kindOfUnit = none := by decide
  rw [hhead, hnone] at hkind
  cases hkind

theorem join_unit (u : UInt16) (parts : List JsString) : join [u] parts = separated u parts := by
  induction parts with
  | nil => rfl
  | cons part parts ih =>
    cases parts with
    | nil => rfl
    | cons next parts =>
      rw [join, separated, ih]
      · simp
      all_goals simp

/-- The value can be read back from its text, up to a delimiter. -/
def ReadsBack (v : Json) : Prop := Readable IsDelimiter (fun w => isPlain w = true) stringify v

theorem readsBack_num {d : Decimal} (h : isPlain (.num (.finite d)) = true) :
    ReadsBack (.num (.finite d)) := by
  intro w r r' hw hr hr' htext
  have hkind := kind_eq_of_stringify h hw htext
  cases w with
  | num n =>
    cases n with
    | finite e =>
      have hstop : ∀ (d : Decimal), ∀ u ∈ d.text, ¬ IsDelimiter u := by
        intro d u hu hstop
        have hnumber := d.isNumberUnit_text.2 u hu
        rcases hstop with rfl | rfl | rfl <;> exact absurd hnumber (by decide)
      obtain ⟨htexts, hrest⟩ := append_inj_of_stops (hstop d) (hstop e) hr hr' htext
      rw [isPlain, decide_eq_true_eq] at h hw
      have heq := Decimal.text_inj htexts
      rw [h, hw] at heq
      exact ⟨by rw [heq], hrest⟩
    | nan => cases hw
    | infinity b => cases hw
  | _ => cases hkind

theorem readsBack_arr {vs : List Json} (h : ∀ v ∈ vs, isPlain v = true)
    (ih : ∀ v ∈ vs, ReadsBack v) : ReadsBack (.arr vs) := by
  intro w r r' hw hr hr' htext
  have hkind := kind_eq_of_stringify (v := .arr vs) (by rw [isPlain, plainItems_iff]; exact h) hw htext
  cases w with
  | arr ws =>
    rw [isPlain, plainItems_iff] at hw
    rw [stringify, stringify, join_unit, join_unit, stringifyItems_eq, stringifyItems_eq] at htext
    simp only [List.cons_append, List.append_assoc, List.cons.injEq, true_and, List.nil_append]
      at htext
    have hcomma : IsDelimiter (unit ',') := Or.inl rfl
    have hclose : IsDelimiter (unit ']') := Or.inr (Or.inl rfl)
    have hread := separated_inj hcomma hclose (by decide) (fun w hw => head_stringify_ne hw)
      (fun v hv => ⟨h v hv, ih v hv⟩) hw htext
    exact ⟨congrArg Json.arr hread.1, hread.2⟩
  | _ => cases hkind

/-- The text of a member. -/
def memberText (m : JsString × Json) : JsString := quote m.1 ++ unit ':' :: stringify m.2

theorem readsBack_obj {ms : List (JsString × Json)}
    (h : ∀ m ∈ ms, isWellFormed m.1 = true ∧ isPlain m.2 = true)
    (ih : ∀ m ∈ ms, ReadsBack m.2) : ReadsBack (.obj ms) := by
  intro w r r' hw hr hr' htext
  have hkind := kind_eq_of_stringify (v := .obj ms) (by rw [isPlain, plainMembers_iff]; exact h) hw htext
  cases w with
  | obj ns =>
    rw [isPlain, plainMembers_iff] at hw
    rw [stringify, stringify, join_unit, join_unit, stringifyMembers_eq, stringifyMembers_eq] at htext
    simp only [List.cons_append, List.append_assoc, List.cons.injEq, true_and, List.nil_append]
      at htext
    have hmember : ∀ m ∈ ms, Readable IsDelimiter
        (fun m : JsString × Json => isWellFormed m.1 = true ∧ isPlain m.2 = true) memberText m := by
      rintro ⟨k, v⟩ hm ⟨l, w⟩ s s' hn hs hs' hm'
      rw [memberText, memberText, List.append_assoc, List.append_assoc] at hm'
      obtain ⟨rfl, hvalue⟩ := quote_append_inj (h _ hm).1 hn.1 hm'
      obtain ⟨rfl, hrest⟩ := ih _ hm w s s' hn.2 hs hs' (List.cons.inj hvalue).2
      exact ⟨rfl, hrest⟩
    have hcomma : IsDelimiter (unit ',') := Or.inl rfl
    have hclose : IsDelimiter (unit '\x7d') := Or.inr (Or.inr rfl)
    have hread := separated_inj hcomma hclose (by decide)
      (fun m _ s => by simp [memberText, quote]; decide) (fun m hm => ⟨h m hm, hmember m hm⟩) hw htext
    exact ⟨congrArg Json.obj hread.1, hread.2⟩
  | _ => cases hkind

/-- Every plain value can be read back. -/
theorem readsBack_of_isPlain {v : Json} (h : isPlain v = true) : ReadsBack v := by
  induction v with
  | null =>
    intro w r r' hw hr hr' htext
    have hkind := kind_eq_of_stringify h hw htext
    cases w with
    | null => exact ⟨rfl, List.append_cancel_left htext⟩
    | _ => cases hkind
  | bool b =>
    intro w r r' hw hr hr' htext
    have hkind := kind_eq_of_stringify h hw htext
    cases w with
    | bool c =>
      have hbc : b = c := by
        revert htext
        cases b <;> cases c <;> simp [stringify, js, utf16Units]
      subst hbc
      exact ⟨rfl, List.append_cancel_left htext⟩
    | _ => cases hkind
  | num n =>
    cases n with
    | finite d => exact readsBack_num h
    | nan => cases h
    | infinity b => cases h
  | str s =>
    intro w r r' hw hr hr' htext
    have hkind := kind_eq_of_stringify h hw htext
    cases w with
    | str t =>
      obtain ⟨rfl, hrest⟩ := quote_append_inj h hw htext
      exact ⟨rfl, hrest⟩
    | _ => cases hkind
  | arr vs ih =>
    rw [isPlain, plainItems_iff] at h
    exact readsBack_arr h fun v hv => ih v hv (h v hv)
  | obj ms ih =>
    rw [isPlain, plainMembers_iff] at h
    exact readsBack_obj h fun m hm => ih m hm (h m hm).2

/-- Plain values with one text are one value. -/
theorem stringify_inj {v w : Json} (hv : isPlain v = true) (hw : isPlain w = true)
    (h : stringify v = stringify w) : v = w := by
  have htext : stringify v ++ [] = stringify w ++ [] := by rw [h]
  exact (readsBack_of_isPlain hv w [] [] hw stops_nil stops_nil htext).1

theorem isWellFormed_ascii (c : Char) {s : JsString}
    (hc : isWellFormed [unit c] = true) (hs : isWellFormed s = true) :
    isWellFormed (unit c :: s) = true :=
  isWellFormed_append hc hs

theorem isWellFormed_join {parts : List JsString} (h : ∀ p ∈ parts, isWellFormed p = true) :
    isWellFormed (join [unit ','] parts) = true := by
  fun_induction join [unit ','] parts with
  | case1 => rfl
  | case2 part => exact h part (List.mem_cons_self ..)
  | case3 part parts hne ih =>
    rw [List.forall_mem_cons] at h
    exact isWellFormed_append (isWellFormed_append h.1 (by decide)) (ih h.2)

/-- The text of a plain value is well formed. -/
theorem isWellFormed_stringify {v : Json} (h : isPlain v = true) :
    isWellFormed (stringify v) = true := by
  induction v with
  | null => decide
  | bool b => cases b <;> decide
  | num n =>
    cases n with
    | finite d =>
      apply isWellFormed_of_no_surrogates
      intro u hu
      have hn := d.isNumberUnit_text.2 u hu
      simp only [isNumberUnit, isDigit, Bool.or_eq_true, Bool.and_eq_true, decide_eq_true_eq] at hn
      obtain (((hn | rfl) | rfl) | rfl) | rfl := hn
      · obtain ⟨h1, h2⟩ := hn
        rw [UInt16.le_iff_toNat_le] at h1 h2
        simp only [isHighSurrogate, isLowSurrogate, Bool.and_eq_false_iff, decide_eq_false_iff_not,
          UInt16.le_iff_toNat_le]
        simp at h1 h2 ⊢
        omega
      all_goals decide
    | nan => cases h
    | infinity b => cases h
  | str s => exact isWellFormed_quote h
  | arr vs ih =>
    rw [isPlain, plainItems_iff] at h
    rw [stringify, stringifyItems_eq]
    refine isWellFormed_ascii _ (by decide) (isWellFormed_append ?_ (by decide))
    apply isWellFormed_join
    rw [List.forall_mem_map]
    exact fun v hv => ih v hv (h v hv)
  | obj ms ih =>
    rw [isPlain, plainMembers_iff] at h
    rw [stringify, stringifyMembers_eq]
    refine isWellFormed_ascii _ (by decide) (isWellFormed_append ?_ (by decide))
    apply isWellFormed_join
    rw [List.forall_mem_map]
    exact fun m hm => isWellFormed_append (isWellFormed_quote (h m hm).1)
      (isWellFormed_ascii _ (by decide) (ih m hm (h m hm).2))

theorem isWellFormed_canonicalJSON {v : Json} {t : JsString} (h : canonicalJSON v = .ok t) :
    isWellFormed t = true := by
  obtain ⟨hp, rfl⟩ := (accepts_canonicalJSON v t).mp h
  exact isWellFormed_stringify hp

/-- Values with one canonical text have one normal form. -/
theorem normalize_eq_of_canonicalJSON {v w : Json} {t : JsString} (hv : canonicalJSON v = .ok t)
    (hw : canonicalJSON w = .ok t) : normalize v = normalize w := by
  obtain ⟨hpv, hv⟩ := (accepts_canonicalJSON v t).mp hv
  obtain ⟨hpw, hw⟩ := (accepts_canonicalJSON w t).mp hw
  exact stringify_inj hpv hpw (hv.symm.trans hw)

end Reading

/-- I-JSON values are accepted, and have one canonical text exactly when they are equal. -/
theorem canonicalJSON_eq_iff (a b : Json) (ha : isIJson a = true) (hb : isIJson b = true) :
    (∃ t, canonicalJSON a = .ok t) ∧ (∃ t, canonicalJSON b = .ok t) ∧
      (canonicalJSON a = canonicalJSON b ↔ Equal a b) := by
  have hta := (accepts_canonicalJSON a _).mpr ⟨isPlain_normalize ha, rfl⟩
  have htb := (accepts_canonicalJSON b _).mpr ⟨isPlain_normalize hb, rfl⟩
  refine ⟨⟨_, hta⟩, ⟨_, htb⟩, ?_⟩
  rw [equal_iff_normalize ha hb]
  constructor
  · intro h
    exact normalize_eq_of_canonicalJSON hta (h ▸ hta)
  · intro h
    rw [hta, htb, h]

/-- Members in another order and the other zero. -/
theorem canonicalJSON_reordered :
    canonicalJSON (.obj [(js "b", .bool true), (js "a", .arr [.num (.finite ⟨true, 0, 0, by decide⟩)])]) =
      canonicalJSON (.obj [(js "a", .arr [.num (.ofNat 0)]), (js "b", .bool true)]) := by
  refine (canonicalJSON_eq_iff _ _ (by decide) (by decide)).2.2.mpr ?_
  refine ⟨⟨⟨_, rfl, rfl⟩, ⟨_, rfl, rfl, trivial⟩, trivial⟩, ?_⟩
  decide

end Json

end OpenWop.Js
