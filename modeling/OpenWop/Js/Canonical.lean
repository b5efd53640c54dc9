import OpenWop.Js.NumberText
import OpenWop.Js.Quote
import OpenWop.Js.Sort

/-!
# Canonical JSON

`canonicalJSON` writes a value with the members of every object in code-unit order and
refuses what is not I-JSON. The text determines the value up to the order of members and
the sign of zero, and it is well formed.
-/

namespace OpenWop.Js

section Refusals

/-- `JcsRefusalKind`. -/
inductive JcsRefusalKind where
  | duplicateName
  | loneSurrogate
  | integerOutOfRange
  | nonFinite
  | notJson
  deriving DecidableEq, Repr

/-- The name of a kind. -/
def JcsRefusalKind.text : JcsRefusalKind → JsString
  | .duplicateName => js "duplicate-name"
  | .loneSurrogate => js "lone-surrogate"
  | .integerOutOfRange => js "integer-out-of-range"
  | .nonFinite => js "non-finite"
  | .notJson => js "not-json"

/-- `JcsRefusal`. -/
structure JcsRefusal where
  kind : JcsRefusalKind
  message : JsString
  deriving DecidableEq, Repr

/-- `new JcsRefusal(kind, message)`. -/
def jcsRefusal (kind : JcsRefusalKind) (message : JsString) : JcsRefusal where
  kind
  message := js "RFC 0212 §B refusal (" ++ kind.text ++ js "): " ++ message

/-- `u.toString(16).toUpperCase()` of a surrogate. -/
def surrogateText (u : UInt16) : JsString :=
  [u.toNat / 4096 % 16, u.toNat / 256 % 16, u.toNat / 16 % 16, u.toNat % 16].map fun n =>
    UInt16.ofNat (if n < 10 then 48 + n else 55 + n)

/-- The refusal of a lone surrogate. -/
def loneSurrogate (half : JsString) (u : UInt16) (place : JsString) : JcsRefusal :=
  jcsRefusal .loneSurrogate (js "lone " ++ half ++ js " surrogate U+" ++ surrogateText u ++ js " in " ++
    place)

/-- `assertWellFormed`. -/
def assertWellFormed (place : JsString) : JsString → Except JcsRefusal Unit
  | [] => .ok ()
  | [u] =>
    if isHighSurrogate u then .error (loneSurrogate (js "high") u place)
    else if isLowSurrogate u then .error (loneSurrogate (js "low") u place)
    else .ok ()
  | u :: v :: rest =>
    if isHighSurrogate u then
      if isLowSurrogate v then assertWellFormed place rest
      else .error (loneSurrogate (js "high") u place)
    else if isLowSurrogate u then .error (loneSurrogate (js "low") u place)
    else assertWellFormed place (v :: rest)

/-- `serializeNumber`. -/
def serializeNumber : JsNumber → Except JcsRefusal JsString
  | .finite d => .ok d.text
  | n => .error (jcsRefusal .nonFinite (n.text ++ js " is not a JSON number"))

end Refusals

namespace Json

section Canonical

/-- The text of a member whose value was serialized or refused. -/
def canonicalMember (m : JsString × Except JcsRefusal JsString) : Except JcsRefusal JsString := do
  assertWellFormed (js "a member name") m.1
  let text ← m.2
  return quote m.1 ++ unit ':' :: text

/-- The text of an object whose member values were serialized or refused. The refusal of the first
name, in code-unit order, is thrown. -/
def canonicalObject (members : List (JsString × Except JcsRefusal JsString)) :
    Except JcsRefusal JsString := do
  let parts ← (sortBy (codeUnitOrder.on Prod.fst) members).mapM canonicalMember
  return unit '\x7b' :: (join [unit ','] parts ++ [unit '\x7d'])

mutual

/-- `canonicalJSON`. -/
def canonicalJSON : Json → Except JcsRefusal JsString
  | .null => .ok (js "null")
  | .bool true => .ok (js "true")
  | .bool false => .ok (js "false")
  | .num n => serializeNumber n
  | .str s => do
    assertWellFormed (js "a string") s
    return quote s
  | .arr items => do
    let parts ← canonicalItems items
    return unit '[' :: (join [unit ','] parts ++ [unit ']'])
  | .obj members => canonicalObject (canonicalMembers members)

/-- The texts of the items. -/
def canonicalItems : List Json → Except JcsRefusal (List JsString)
  | [] => .ok []
  | v :: vs => do
    let part ← canonicalJSON v
    return part :: (← canonicalItems vs)

/-- The texts or refusals of the member values. -/
def canonicalMembers :
    List (JsString × Json) → List (JsString × Except JcsRefusal JsString)
  | [] => []
  | (k, v) :: ms => (k, canonicalJSON v) :: canonicalMembers ms

end

/-- `canonicalJSON` of a value that may be undefined. -/
def canonicalValue : Option Json → Except JcsRefusal JsString
  | some v => canonicalJSON v
  | none => .error (jcsRefusal .notJson (js "a undefined is not a JSON value"))

end Canonical

section Normal

mutual

/-- The value with the members of every object in code-unit order and every zero unsigned. -/
def normalize : Json → Json
  | .num n => .num n.unsigned
  | .arr items => .arr (normalizeItems items)
  | .obj members => .obj (sortBy (codeUnitOrder.on Prod.fst) (normalizeMembers members))
  | v => v

/-- The normal forms of the items. -/
def normalizeItems : List Json → List Json
  | [] => []
  | v :: vs => normalize v :: normalizeItems vs

/-- The members with the normal forms of their values. -/
def normalizeMembers : List (JsString × Json) → List (JsString × Json)
  | [] => []
  | (k, v) :: ms => (k, normalize v) :: normalizeMembers ms

end

mutual

/-- Strings are well formed, and numbers finite and not `-0`. -/
def isPlain : Json → Bool
  | .num (.finite d) => d.unsigned = d
  | .num _ => false
  | .str s => isWellFormed s
  | .arr items => plainItems items
  | .obj members => plainMembers members
  | _ => true

/-- Every item is plain. -/
def plainItems : List Json → Bool
  | [] => true
  | v :: vs => isPlain v && plainItems vs

/-- Every name is well formed and every member value plain. -/
def plainMembers : List (JsString × Json) → Bool
  | [] => true
  | (k, v) :: ms => isWellFormed k && isPlain v && plainMembers ms

end

/-- One JSON value: equal up to the order of members and the sign of zero. -/
def Same (v w : Json) : Prop := normalize v = normalize w

theorem normalizeItems_eq (items : List Json) : normalizeItems items = items.map normalize := by
  induction items with
  | nil => rfl
  | cons v vs ih => rw [normalizeItems, ih, List.map_cons]

theorem normalizeMembers_eq (members : List (JsString × Json)) :
    normalizeMembers members = members.map fun m => (m.1, normalize m.2) := by
  induction members with
  | nil => rfl
  | cons m ms ih => rw [normalizeMembers, ih, List.map_cons]

theorem canonicalMembers_eq (members : List (JsString × Json)) :
    canonicalMembers members = members.map fun m => (m.1, canonicalJSON m.2) := by
  induction members with
  | nil => rfl
  | cons m ms ih => rw [canonicalMembers, ih, List.map_cons]

theorem stringifyItems_eq (items : List Json) : stringifyItems items = items.map stringify := by
  induction items with
  | nil => rfl
  | cons v vs ih => rw [stringifyItems, ih, List.map_cons]

theorem stringifyMembers_eq (members : List (JsString × Json)) :
    stringifyMembers members = members.map fun m => quote m.1 ++ unit ':' :: stringify m.2 := by
  induction members with
  | nil => rfl
  | cons m ms ih => rw [stringifyMembers, ih, List.map_cons]

theorem plainItems_iff {items : List Json} :
    plainItems items = true ↔ ∀ v ∈ items, isPlain v = true := by
  induction items with
  | nil => simp [plainItems]
  | cons v vs ih => simp [plainItems, ih]

theorem plainMembers_iff {members : List (JsString × Json)} : plainMembers members = true ↔
    ∀ m ∈ members, isWellFormed m.1 = true ∧ isPlain m.2 = true := by
  induction members with
  | nil => simp [plainMembers]
  | cons m ms ih =>
    obtain ⟨k, v⟩ := m
    simp [plainMembers, ih, and_assoc]

/-- Sorting by name commutes with rewriting the values. -/
theorem sortBy_map_fst {α β : Type} (f : α → β) (members : List (JsString × α)) :
    sortBy (codeUnitOrder.on Prod.fst) (members.map fun m => (m.1, f m.2)) =
      (sortBy (codeUnitOrder.on Prod.fst) members).map fun m => (m.1, f m.2) :=
  (List.map_insertionSort (fun a b => (codeUnitOrder.on Prod.fst).compare a b ≤ 0)
    (fun a b => (codeUnitOrder.on Prod.fst).compare a b ≤ 0) (fun m => (m.1, f m.2)) members
    fun _ _ _ _ => Iff.rfl).symm

end Normal

section Acceptance

variable {α β : Type} {p q : Prop}

/-- The computation is accepted under that condition, and then yields that value. -/
def Accepts (r : Except JcsRefusal α) (p : Prop) (a : α) : Prop := ∀ t, r = .ok t ↔ p ∧ t = a

theorem Accepts.pure (a : α) : Accepts (.ok a) True a := fun t => by
  rw [Except.ok.injEq, true_and, eq_comm]

theorem Accepts.refused (e : JcsRefusal) (a : α) : Accepts (.error e) False a := fun _ =>
  iff_of_false (fun h => nomatch h) fun h => h.1

theorem Accepts.congr {r : Except JcsRefusal α} {a : α} (h : Accepts r p a) (hp : p ↔ q) :
    Accepts r q a := fun t => by rw [h t, hp]

/-- A composed computation is accepted when both parts are. -/
theorem Accepts.bind {r : Except JcsRefusal α} {f : α → Except JcsRefusal β} {a : α} {b : β}
    (h : Accepts r p a) (hf : Accepts (f a) q b) : Accepts (r >>= f) (p ∧ q) b := by
  intro t
  cases r with
  | error e =>
    have hn : ¬ p := fun hp => nomatch (h a).mpr ⟨hp, rfl⟩
    exact iff_of_false (fun ht => nomatch ht) fun ht => hn ht.1.1
  | ok x =>
    obtain ⟨hp, rfl⟩ := (h x).mp rfl
    exact (hf t).trans ⟨fun ht => ⟨⟨hp, ht.1⟩, ht.2⟩, fun ht => ⟨ht.1.2, ht.2⟩⟩

theorem Accepts.map {r : Except JcsRefusal α} {a : α} (h : Accepts r p a) (f : α → β) :
    Accepts (do return f (← r)) p (f a) := by
  have hf : Accepts (r >>= fun x => Pure.pure (f x)) (p ∧ True) (f a) := h.bind (Accepts.pure (f a))
  exact hf.congr (iff_of_eq (and_true p))

theorem Accepts.mapM {f : α → Except JcsRefusal β} {accepted : α → Prop} {g : α → β} {l : List α}
    (h : ∀ a ∈ l, Accepts (f a) (accepted a) (g a)) :
    Accepts (l.mapM f) (∀ a ∈ l, accepted a) (l.map g) := by
  induction l with
  | nil => exact (Accepts.pure []).congr (by simp)
  | cons a l ih =>
    rw [List.forall_mem_cons] at h
    rw [List.mapM_cons]
    exact (h.1.bind ((ih h.2).map (g a :: ·))).congr List.forall_mem_cons.symm

theorem accepts_assertWellFormed (place s : JsString) :
    Accepts (assertWellFormed place s) (isWellFormed s = true) () := by
  intro t
  induction s using isWellFormed.induct with
  | case1 => simp [assertWellFormed, isWellFormed]
  | case2 u =>
    cases hh : isHighSurrogate u <;> cases hl : isLowSurrogate u <;>
      simp [assertWellFormed, isWellFormed, hh, hl]
  | case3 u v rest hu ih =>
    cases hl : isLowSurrogate v <;> simp [assertWellFormed, isWellFormed, hu, hl, ih]
  | case4 u v rest hu ih =>
    cases hl : isLowSurrogate u <;> simp [assertWellFormed, isWellFormed, hu, hl, ih]

theorem canonicalItems_eq (items : List Json) : canonicalItems items = items.mapM canonicalJSON := by
  induction items with
  | nil => rfl
  | cons v vs ih => rw [canonicalItems, ih, List.mapM_cons]

/-- An object is accepted when its names and its member values are. -/
theorem accepts_canonicalObject {read : α → Except JcsRefusal JsString} {accepted : α → Prop}
    {write : α → JsString} {members : List (JsString × α)}
    (h : ∀ m ∈ members, Accepts (read m.2) (accepted m.2) (write m.2)) :
    Accepts (canonicalObject (members.map fun m => (m.1, read m.2)))
      (∀ m ∈ members, isWellFormed m.1 = true ∧ accepted m.2)
      (unit '\x7b' :: (join [unit ','] ((sortBy (codeUnitOrder.on Prod.fst) members).map fun m =>
        quote m.1 ++ unit ':' :: write m.2) ++ [unit '\x7d'])) := by
  have hmember : ∀ m ∈ sortBy (codeUnitOrder.on Prod.fst) members,
      Accepts (canonicalMember (m.1, read m.2)) (isWellFormed m.1 = true ∧ accepted m.2)
        (quote m.1 ++ unit ':' :: write m.2) := fun m hm =>
    (accepts_assertWellFormed _ m.1).bind
      ((h m (mem_sortBy.mp hm)).map fun text => quote m.1 ++ unit ':' :: text)
  rw [canonicalObject, sortBy_map_fst, List.mapM_map]
  refine ((Accepts.mapM hmember).map fun parts =>
    unit '\x7b' :: (join [unit ','] parts ++ [unit '\x7d'])).congr ?_
  simp only [mem_sortBy]

theorem accepts_serializeNumber (n : JsNumber) :
    Accepts (serializeNumber n) (isPlain (normalize (.num n)) = true) (stringify (normalize (.num n))) := by
  cases n with
  | nan => exact (Accepts.refused _ _).congr (by simp [normalize, JsNumber.unsigned, isPlain])
  | infinity b => exact (Accepts.refused _ _).congr (by simp [normalize, JsNumber.unsigned, isPlain])
  | finite d =>
    rw [serializeNumber, normalize, JsNumber.unsigned, isPlain, stringify, Decimal.text_unsigned]
    refine (Accepts.pure _).congr ?_
    simp

/-- Canonical JSON is the JSON text of the normal form, and accepted when that is plain. -/
theorem accepts_canonicalJSON (v : Json) :
    Accepts (canonicalJSON v) (isPlain (normalize v) = true) (stringify (normalize v)) := by
  induction v with
  | null => exact (Accepts.pure _).congr (by simp [normalize, isPlain])
  | bool b => cases b <;> exact (Accepts.pure _).congr (by simp [normalize, isPlain])
  | num n => exact accepts_serializeNumber n
  | str s =>
    have htext := (accepts_assertWellFormed (js "a string") s).map fun _ => quote s
    exact htext
  | arr items ih =>
    rw [canonicalJSON, canonicalItems_eq, normalize, isPlain, stringify, normalizeItems_eq,
      stringifyItems_eq, List.map_map, plainItems_iff, List.forall_mem_map]
    exact (Accepts.mapM ih).map fun parts => unit '[' :: (join [unit ','] parts ++ [unit ']'])
  | obj members ih =>
    have hobject := @accepts_canonicalObject _ canonicalJSON (fun v => isPlain (normalize v) = true)
      (fun v => stringify (normalize v)) members ih
    rw [canonicalJSON, canonicalMembers_eq, normalize, isPlain, stringify, normalizeMembers_eq,
      sortBy_map_fst, stringifyMembers_eq, List.map_map, plainMembers_iff, List.forall_mem_map]
    refine hobject.congr ?_
    simp only [mem_sortBy]

end Acceptance

end Json

end OpenWop.Js
