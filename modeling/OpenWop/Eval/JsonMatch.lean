import OpenWop.Js.JsonEqual

/-!
# Comparing arguments

`jsonEqual` and `jsonSubset` read a member of the second value whenever the name is in it, its own
or inherited. Every object inherits functions, which equal no JSON value, and `__proto__`, which
reads as an object without members.
-/

namespace OpenWop.Eval

open OpenWop.Js

section Access

/-- What reading a member may give. -/
inductive Accessed where
  | json (v : Json)
  | undefined
  | function
  /-- `Object.prototype` -/
  | objectPrototype

/-- The functions every object inherits. -/
def inheritedFunctions : List JsString :=
  [js "constructor", js "hasOwnProperty", js "isPrototypeOf", js "propertyIsEnumerable",
    js "toLocaleString", js "toString", js "valueOf", js "__defineGetter__", js "__defineSetter__",
    js "__lookupGetter__", js "__lookupSetter__"]

/-- The name of the prototype. -/
def proto : JsString := js "__proto__"

/-- `k in v`, with `v[k]`. -/
def Accessed.access (v : Accessed) (k : JsString) : Option Accessed :=
  match v with
  | .json (.obj ns) =>
    match Record.get? ns k with
    | some w => some (.json w)
    | none =>
      if k = proto then some .objectPrototype
      else if k ∈ inheritedFunctions then some .function
      else none
  | .objectPrototype =>
    if k = proto then some (.json .null)
    else if k ∈ inheritedFunctions then some .function
    else none
  | _ => none

/-- `isRecord`. -/
def Accessed.isRecord : Accessed → Bool
  | .json (.obj _) => true
  | .objectPrototype => true
  | _ => false

/-- `Object.keys(v).length` -/
def Accessed.keyCount : Accessed → Nat
  | .json (.obj ns) => ns.length
  | _ => 0

end Access

section Comparing

mutual

/-- `jsonEqual` -/
def jsonEqual : Json → Accessed → Bool
  | .null, .json .null => true
  | .bool a, .json (.bool b) => a = b
  | .num m, .json (.num n) => m.strictEquals n
  | .str s, .json (.str t) => s = t
  | .arr vs, .json (.arr ws) => vs.length = ws.length && jsonEqualItems vs ws
  | .obj ms, b => b.isRecord && ms.length = b.keyCount && jsonEqualMembers ms b
  | _, _ => false

/-- `a.every((x, i) => jsonEqual(x, b[i]))` -/
def jsonEqualItems : List Json → List Json → Bool
  | [], _ => true
  | v :: vs, w :: ws => jsonEqual v (.json w) && jsonEqualItems vs ws
  | v :: vs, [] => jsonEqual v .undefined && jsonEqualItems vs []

/-- `ka.every((k) => k in b && jsonEqual(a[k], b[k]))` -/
def jsonEqualMembers : List (JsString × Json) → Accessed → Bool
  | [], _ => true
  | (k, v) :: ms, b =>
    (match b.access k with
      | some w => jsonEqual v w
      | none => false) && jsonEqualMembers ms b

end

mutual

/-- `jsonSubset` -/
def jsonSubset : Json → Accessed → Bool
  | .obj ms, actual => actual.isRecord && jsonSubsetMembers ms actual
  | expected, actual => jsonEqual expected actual

/-- `Object.keys(expected).every((k) => k in actual && jsonSubset(expected[k], actual[k]))` -/
def jsonSubsetMembers : List (JsString × Json) → Accessed → Bool
  | [], _ => true
  | (k, v) :: ms, actual =>
    (match actual.access k with
      | some w => jsonSubset v w
      | none => false) && jsonSubsetMembers ms actual

end

end Comparing

section Containment

mutual

/-- Every member of the first value, at any depth of objects, is an own member of the second one with
an equal value. -/
def Contained : Json → Json → Prop
  | .obj ms, .obj ns => ContainedMembers ms ns
  | v, w => Json.Equal v w

/-- Every member is an own member of the other record, and contained there. -/
def ContainedMembers : List (JsString × Json) → Record JsString Json → Prop
  | [], _ => True
  | (k, v) :: ms, ns => (∃ w, Record.get? ns k = some w ∧ Contained v w) ∧ ContainedMembers ms ns

end

/-- The value at a path of own member names. -/
def memberAt? : Json → List JsString → Option Json
  | v, [] => some v
  | v, k :: path => (v.member? k).bind fun w => memberAt? w path

/-- Every member path of the first value is one of the second, to an object where the first one has
an object, and else to an equal value. -/
def OwnPaths (expected actual : Json) : Prop :=
  ∀ path v, memberAt? expected path = some v → ∃ w, memberAt? actual path = some w ∧
    match v with
    | .obj _ => ∃ ns, w = .obj ns
    | v => Json.Equal v w

end Containment

section Inheriting

mutual

/-- Equal, but for empty `__proto__` members in whose place the second value has one other member. -/
def EqualButProto : Json → Json → Prop
  | .arr vs, .arr ws => EqualItemsButProto vs ws
  | .obj ms, .obj ns => ms.length = ns.length ∧ EqualMembersButProto ms ns
  | v, w => Json.Equal v w

/-- Items that are equal but for these members. -/
def EqualItemsButProto : List Json → List Json → Prop
  | [], [] => True
  | v :: vs, w :: ws => EqualButProto v w ∧ EqualItemsButProto vs ws
  | _, _ => False

/-- Members that are equal but for these members, or are one of them. -/
def EqualMembersButProto : List (JsString × Json) → Record JsString Json → Prop
  | [], _ => True
  | (k, v) :: ms, ns =>
    ((∃ w, Record.get? ns k = some w ∧ EqualButProto v w) ∨
      (Record.get? ns k = none ∧ k = proto ∧ v = .obj [])) ∧ EqualMembersButProto ms ns

end

/-- What an object without a member `__proto__` is taken to have there. -/
def IsInherited (v : Json) : Prop := v = .obj [] ∨ v = .obj [(proto, .null)]

mutual

/-- Contained, but for `__proto__` members of these values that the second value lacks. -/
def ContainedButProto : Json → Json → Prop
  | .obj ms, .obj ns => ContainedMembersButProto ms ns
  | v, w => EqualButProto v w

/-- Members that are contained but for these members, or are one of them. -/
def ContainedMembersButProto : List (JsString × Json) → Record JsString Json → Prop
  | [], _ => True
  | (k, v) :: ms, ns =>
    ((∃ w, Record.get? ns k = some w ∧ ContainedButProto v w) ∨
      (Record.get? ns k = none ∧ k = proto ∧ IsInherited v)) ∧ ContainedMembersButProto ms ns

end

end Inheriting

section Members

theorem jsonEqualMembers_iff {ms : List (JsString × Json)} {b : Accessed} :
    jsonEqualMembers ms b = true ↔ ∀ m ∈ ms, ∃ w, b.access m.1 = some w ∧ jsonEqual m.2 w = true := by
  induction ms with
  | nil => simp [jsonEqualMembers]
  | cons m ms ih =>
    obtain ⟨k, v⟩ := m
    rw [jsonEqualMembers, Bool.and_eq_true, ih, List.forall_mem_cons]
    cases b.access k <;> simp

theorem jsonSubsetMembers_iff {ms : List (JsString × Json)} {b : Accessed} :
    jsonSubsetMembers ms b = true ↔
      ∀ m ∈ ms, ∃ w, b.access m.1 = some w ∧ jsonSubset m.2 w = true := by
  induction ms with
  | nil => simp [jsonSubsetMembers]
  | cons m ms ih =>
    obtain ⟨k, v⟩ := m
    rw [jsonSubsetMembers, Bool.and_eq_true, ih, List.forall_mem_cons]
    cases b.access k <;> simp

theorem containedMembers_iff {ms : List (JsString × Json)} {ns : Record JsString Json} :
    ContainedMembers ms ns ↔ ∀ m ∈ ms, ∃ w, Record.get? ns m.1 = some w ∧ Contained m.2 w := by
  induction ms with
  | nil => simp [ContainedMembers]
  | cons m ms ih =>
    obtain ⟨k, v⟩ := m
    rw [ContainedMembers, ih, List.forall_mem_cons]

theorem equalMembersButProto_iff {ms : List (JsString × Json)} {ns : Record JsString Json} :
    EqualMembersButProto ms ns ↔ ∀ m ∈ ms,
      (∃ w, Record.get? ns m.1 = some w ∧ EqualButProto m.2 w) ∨
        (Record.get? ns m.1 = none ∧ m.1 = proto ∧ m.2 = .obj []) := by
  induction ms with
  | nil => simp [EqualMembersButProto]
  | cons m ms ih =>
    obtain ⟨k, v⟩ := m
    rw [EqualMembersButProto, ih, List.forall_mem_cons]

theorem containedMembersButProto_iff {ms : List (JsString × Json)} {ns : Record JsString Json} :
    ContainedMembersButProto ms ns ↔ ∀ m ∈ ms,
      (∃ w, Record.get? ns m.1 = some w ∧ ContainedButProto m.2 w) ∨
        (Record.get? ns m.1 = none ∧ m.1 = proto ∧ IsInherited m.2) := by
  induction ms with
  | nil => simp [ContainedMembersButProto]
  | cons m ms ih =>
    obtain ⟨k, v⟩ := m
    rw [ContainedMembersButProto, ih, List.forall_mem_cons]

/-- The members of an I-JSON object. -/
theorem isIJson_obj {ms : List (JsString × Json)} (h : Json.isIJson (.obj ms) = true) :
    (Record.keys ms).Nodup ∧ ∀ m ∈ ms, Json.isIJson m.2 = true := by
  rw [Json.isIJson, Bool.and_eq_true, decide_eq_true_eq, Json.isIJsonMembers_iff] at h
  exact ⟨h.1, fun m hm => (h.2 m hm).2⟩

theorem isIJson_arr {vs : List Json} (h : Json.isIJson (.arr vs) = true) :
    ∀ v ∈ vs, Json.isIJson v = true := by
  rwa [Json.isIJson, Json.isIJsonItems_iff] at h

theorem isIJson_of_get? {ns : List (JsString × Json)} (h : Json.isIJson (.obj ns) = true)
    {k : JsString} {w : Json} (hw : Record.get? ns k = some w) : Json.isIJson w = true :=
  (isIJson_obj h).2 _ (Record.mem_of_get? hw)

end Members

section Reads

theorem access_own {ns : List (JsString × Json)} {k : JsString} {w : Json}
    (h : Record.get? ns k = some w) : (Accessed.json (.obj ns)).access k = some (.json w) := by
  rw [Accessed.access, h]

theorem access_inherited {ns : List (JsString × Json)} {k : JsString} {x : Accessed}
    (h : Record.get? ns k = none) : (Accessed.json (.obj ns)).access k = some x ↔
      (k = proto ∧ x = .objectPrototype) ∨ (k ≠ proto ∧ k ∈ inheritedFunctions ∧ x = .function) := by
  rw [Accessed.access, h]
  by_cases hproto : k = proto
  · simp [hproto, eq_comm]
  · by_cases hfunction : k ∈ inheritedFunctions <;> simp [hproto, hfunction, eq_comm]

theorem access_objectPrototype {k : JsString} {x : Accessed} :
    Accessed.objectPrototype.access k = some x ↔
      (k = proto ∧ x = .json .null) ∨ (k ≠ proto ∧ k ∈ inheritedFunctions ∧ x = .function) := by
  rw [Accessed.access]
  by_cases hproto : k = proto
  · simp [hproto, eq_comm]
  · by_cases hfunction : k ∈ inheritedFunctions <;> simp [hproto, hfunction, eq_comm]

/-- A function equals no JSON value. -/
theorem jsonEqual_function (v : Json) : jsonEqual v .function = false := by
  cases v <;> simp [jsonEqual, Accessed.isRecord]

theorem jsonSubset_function (v : Json) : jsonSubset v .function = false := by
  cases v <;> simp [jsonSubset, jsonEqual_function, Accessed.isRecord]

/-- The prototype equals an object without members. -/
theorem jsonEqual_objectPrototype (v : Json) :
    jsonEqual v .objectPrototype = true ↔ v = .obj [] := by
  cases v with
  | obj ms =>
    cases ms with
    | nil => simp [jsonEqual, jsonEqualMembers, Accessed.isRecord, Accessed.keyCount]
    | cons m ms => simp [jsonEqual, Accessed.keyCount]
  | _ => simp [jsonEqual]

theorem jsonSubset_null (v : Json) : jsonSubset v (.json .null) = true ↔ v = .null := by
  cases v <;> simp [jsonSubset, jsonEqual, Accessed.isRecord]

/-- The prototype has what an object without a member `__proto__` is taken to have. -/
theorem jsonSubset_objectPrototype {v : Json} (h : Json.isIJson v = true) :
    jsonSubset v .objectPrototype = true ↔ IsInherited v := by
  cases v with
  | obj ms =>
    have hmember : ∀ m : JsString × Json, (∃ w, Accessed.objectPrototype.access m.1 = some w ∧
        jsonSubset m.2 w = true) ↔ m = (proto, .null) := by
      rintro ⟨k, v⟩
      constructor
      · rintro ⟨w, hw, hv⟩
        rcases access_objectPrototype.mp hw with ⟨rfl, rfl⟩ | ⟨_, _, rfl⟩
        · rw [(jsonSubset_null v).mp hv]
        · rw [jsonSubset_function] at hv
          cases hv
      · rintro ⟨⟩
        exact ⟨_, access_objectPrototype.mpr (.inl ⟨rfl, rfl⟩), (jsonSubset_null _).mpr rfl⟩
    rw [jsonSubset, Accessed.isRecord, Bool.true_and, jsonSubsetMembers_iff, IsInherited]
    simp only [hmember, Json.obj.injEq]
    cases ms with
    | nil => simp
    | cons m ms =>
      cases ms with
      | nil => simp
      | cons m' ms =>
        have hnodup := (isIJson_obj h).1
        constructor
        · intro hall
          rw [hall m List.mem_cons_self,
            hall m' (List.mem_cons_of_mem _ List.mem_cons_self)] at hnodup
          simp at hnodup
        · simp
  | _ => simp [jsonSubset, jsonEqual, IsInherited]

end Reads

section Characterized

theorem strictEquals_iff {m n : JsNumber} (hm : Json.isIJson (.num m) = true)
    (hn : Json.isIJson (.num n) = true) : m.strictEquals n = true ↔ m.unsigned = n.unsigned := by
  cases m with
  | finite d =>
    cases n with
    | finite e =>
      rw [JsNumber.strictEquals, JsNumber.unsigned, JsNumber.unsigned, JsNumber.finite.injEq,
        decide_eq_true_eq]
      have hd : d.unsigned.coefficient = d.coefficient ∧ d.unsigned.exponent = d.exponent := by
        rw [Decimal.unsigned]
        split <;> exact ⟨rfl, rfl⟩
      have he : e.unsigned.coefficient = e.coefficient ∧ e.unsigned.exponent = e.exponent := by
        rw [Decimal.unsigned]
        split <;> exact ⟨rfl, rfl⟩
      rw [← hd.1, ← hd.2, ← he.1, ← he.2]
      generalize d.unsigned = d
      generalize e.unsigned = e
      cases d
      cases e
      simp
    | _ => cases hn
  | _ => cases hm

theorem jsonEqualItems_iff {vs : List Json}
    (h : ∀ v ∈ vs, ∀ w, Json.isIJson w = true → (jsonEqual v (.json w) = true ↔ EqualButProto v w)) :
    ∀ ws, (∀ w ∈ ws, Json.isIJson w = true) →
      ((vs.length = ws.length ∧ jsonEqualItems vs ws = true) ↔ EqualItemsButProto vs ws) := by
  induction vs with
  | nil => intro ws _; cases ws <;> simp [EqualItemsButProto, jsonEqualItems]
  | cons v vs ih =>
    intro ws hws
    rw [List.forall_mem_cons] at h
    cases ws with
    | nil => simp [EqualItemsButProto]
    | cons w ws =>
      rw [List.forall_mem_cons] at hws
      rw [EqualItemsButProto, jsonEqualItems, Bool.and_eq_true, h.1 w hws.1, ← ih h.2 ws hws.2,
        List.length_cons, List.length_cons, Nat.succ_inj, and_left_comm]

/-- What `jsonEqual` decides. -/
theorem jsonEqual_iff {v w : Json} (hv : Json.isIJson v = true) (hw : Json.isIJson w = true) :
    jsonEqual v (.json w) = true ↔ EqualButProto v w := by
  induction v generalizing w with
  | null => cases w <;> simp [jsonEqual, EqualButProto, Json.Equal]
  | bool b => cases w <;> simp [jsonEqual, EqualButProto, Json.Equal]
  | num n =>
    cases w with
    | num m => simp [jsonEqual, EqualButProto, Json.Equal, strictEquals_iff hv hw]
    | _ => simp [jsonEqual, EqualButProto, Json.Equal]
  | str s => cases w <;> simp [jsonEqual, EqualButProto, Json.Equal]
  | arr vs ih =>
    cases w with
    | arr ws =>
      rw [jsonEqual, EqualButProto, Bool.and_eq_true, decide_eq_true_eq]
      exact jsonEqualItems_iff (fun v hm w hw => ih v hm (isIJson_arr hv v hm) hw) ws
        (isIJson_arr hw)
    | _ => simp [jsonEqual, EqualButProto, Json.Equal]
  | obj ms ih =>
    cases w with
    | obj ns =>
      rw [jsonEqual, EqualButProto, Bool.and_eq_true, Bool.and_eq_true, decide_eq_true_eq,
        jsonEqualMembers_iff, equalMembersButProto_iff, Accessed.isRecord, Accessed.keyCount]
      refine and_congr (by simp) (forall₂_congr fun m hm => ?_)
      cases hget : Record.get? ns m.1 with
      | some w =>
        simp [access_own hget, ih m hm ((isIJson_obj hv).2 m hm) (isIJson_of_get? hw hget)]
      | none =>
        simp only [access_inherited hget, reduceCtorEq, false_and, exists_false, false_or, true_and]
        constructor
        · rintro ⟨x, ⟨hproto, rfl⟩ | ⟨_, _, rfl⟩, hx⟩
          · exact ⟨hproto, (jsonEqual_objectPrototype _).mp hx⟩
          · rw [jsonEqual_function] at hx
            cases hx
        · rintro ⟨hproto, hempty⟩
          exact ⟨_, .inl ⟨hproto, rfl⟩, (jsonEqual_objectPrototype _).mpr hempty⟩
    | _ => simp [jsonEqual, EqualButProto, Json.Equal, Accessed.isRecord]

/-- What `jsonSubset` decides. -/
theorem jsonSubset_iff {v w : Json} (hv : Json.isIJson v = true) (hw : Json.isIJson w = true) :
    jsonSubset v (.json w) = true ↔ ContainedButProto v w := by
  induction v generalizing w with
  | obj ms ih =>
    cases w with
    | obj ns =>
      rw [jsonSubset, ContainedButProto, Accessed.isRecord, Bool.true_and, jsonSubsetMembers_iff,
        containedMembersButProto_iff]
      refine forall₂_congr fun m hm => ?_
      have hvalue := (isIJson_obj hv).2 m hm
      cases hget : Record.get? ns m.1 with
      | some w => simp [access_own hget, ih m hm hvalue (isIJson_of_get? hw hget)]
      | none =>
        simp only [access_inherited hget, reduceCtorEq, false_and, exists_false, false_or, true_and]
        constructor
        · rintro ⟨x, ⟨hproto, rfl⟩ | ⟨_, _, rfl⟩, hx⟩
          · exact ⟨hproto, (jsonSubset_objectPrototype hvalue).mp hx⟩
          · rw [jsonSubset_function] at hx
            cases hx
        · rintro ⟨hproto, hinherited⟩
          exact ⟨_, .inl ⟨hproto, rfl⟩, (jsonSubset_objectPrototype hvalue).mpr hinherited⟩
    | _ => simp [jsonSubset, ContainedButProto, EqualButProto, Json.Equal, Accessed.isRecord]
  | _ => simp only [jsonSubset, ContainedButProto, jsonEqual_iff hv hw]

end Characterized

end OpenWop.Eval
