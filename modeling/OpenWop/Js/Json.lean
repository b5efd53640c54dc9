import OpenWop.Js.Number
import OpenWop.Js.Record

/-!
# JSON values

The values `JSON.parse` returns. The members of an object are its own members in
enumeration order. `Json.mapStrings` rewrites every string of a value, at any
depth, and may put any value in place of a string.
-/

namespace OpenWop.Js

/-- A JSON value. -/
inductive Json where
  | null
  | bool (b : Bool)
  | num (n : JsNumber)
  | str (s : JsString)
  | arr (items : List Json)
  | obj (members : List (JsString × Json))
  deriving Repr

namespace Json

/-- Induction with the hypothesis on every item and every member value. -/
@[elab_as_elim, induction_eliminator]
theorem induction {motive : Json → Prop} (null : motive .null) (bool : ∀ b, motive (.bool b))
    (num : ∀ n, motive (.num n)) (str : ∀ s, motive (.str s))
    (arr : ∀ items : List Json, (∀ v ∈ items, motive v) → motive (.arr items))
    (obj : ∀ members : List (JsString × Json), (∀ m ∈ members, motive m.2) →
      motive (.obj members)) (v : Json) : motive v :=
  @Json.rec motive (fun items => ∀ v ∈ items, motive v) (fun members => ∀ m ∈ members, motive m.2)
    (fun m => motive m.2) null bool num str arr obj
    (by simp) (fun _ _ hv hs => List.forall_mem_cons.mpr ⟨hv, hs⟩)
    (by simp) (fun _ _ hm hs => List.forall_mem_cons.mpr ⟨hm, hs⟩) (fun _ _ hv => hv) v

mutual

/-- Structural equality. -/
def beq : Json → Json → Bool
  | .null, .null => true
  | .bool a, .bool b => a == b
  | .num m, .num n => m == n
  | .str s, .str t => s == t
  | .arr vs, .arr ws => beqItems vs ws
  | .obj ms, .obj ns => beqMembers ms ns
  | _, _ => false

/-- Structural equality of two lists of items. -/
def beqItems : List Json → List Json → Bool
  | [], [] => true
  | v :: vs, w :: ws => beq v w && beqItems vs ws
  | _, _ => false

/-- Structural equality of two lists of members. -/
def beqMembers : List (JsString × Json) → List (JsString × Json) → Bool
  | [], [] => true
  | (k, v) :: ms, (l, w) :: ns => k == l && beq v w && beqMembers ms ns
  | _, _ => false

end

private theorem beqItems_iff {vs : List Json} (h : ∀ v ∈ vs, ∀ w, beq v w = true ↔ v = w) :
    ∀ ws, beqItems vs ws = true ↔ vs = ws := by
  induction vs with
  | nil => intro ws; cases ws <;> simp [beqItems]
  | cons v vs ih =>
    intro ws
    cases ws with
    | nil => simp [beqItems]
    | cons w ws =>
      have hv := h v (List.mem_cons_self ..) w
      have hs := ih (fun u hu => h u (List.mem_cons_of_mem _ hu)) ws
      simp [beqItems, hv, hs]

private theorem beqMembers_iff {ms : List (JsString × Json)}
    (h : ∀ m ∈ ms, ∀ w, beq m.2 w = true ↔ m.2 = w) :
    ∀ ns, beqMembers ms ns = true ↔ ms = ns := by
  induction ms with
  | nil => intro ns; cases ns <;> simp [beqMembers]
  | cons m ms ih =>
    intro ns
    cases ns with
    | nil => simp [beqMembers]
    | cons n ns =>
      have hv := h m (List.mem_cons_self ..) n.2
      have hs := ih (fun u hu => h u (List.mem_cons_of_mem _ hu)) ns
      obtain ⟨k, v⟩ := m
      obtain ⟨l, w⟩ := n
      simp only at hv
      simp [beqMembers, hv, hs, and_assoc]

/-- The Boolean equality decides equality. -/
theorem beq_iff (v : Json) : ∀ w, beq v w = true ↔ v = w := by
  induction v with
  | null => intro w; cases w <;> simp [beq]
  | bool b => intro w; cases w <;> simp [beq]
  | num n => intro w; cases w <;> simp [beq]
  | str s => intro w; cases w <;> simp [beq]
  | arr items ih => intro w; cases w <;> simp [beq, beqItems_iff ih]
  | obj members ih => intro w; cases w <;> simp [beq, beqMembers_iff ih]

instance : DecidableEq Json := fun v w => decidable_of_iff _ (beq_iff v w)

/-- The own member of that name, of an object. -/
def member? (v : Json) (name : JsString) : Option Json :=
  match v with
  | .obj members => Record.get? members name
  | _ => none

/-- The member of a value that may be undefined: `v?.name`. -/
def read? (v : Option Json) (name : JsString) : Option Json := v.bind fun v => v.member? name

/-- `v != null && typeof v === 'object'`. -/
def isObject : Option Json → Bool
  | some (.obj _) => true
  | some (.arr _) => true
  | _ => false

/-- The value is `null` or undefined. -/
def isNullish : Option Json → Bool
  | none => true
  | some .null => true
  | _ => false

/-- `Array.isArray(v)`, with its items. -/
def items? : Option Json → Option (List Json)
  | some (.arr items) => some items
  | _ => none

section Text

mutual

/-- `String(v)`: arrays join the texts of their items, objects have a fixed text. -/
def text : Json → JsString
  | .null => js "null"
  | .bool true => js "true"
  | .bool false => js "false"
  | .num n => n.text
  | .str s => s
  | .arr items => join (js ",") (itemTexts items)
  | .obj _ => js "[object Object]"

/-- The texts of the items; `null` reads as nothing. -/
def itemTexts : List Json → List JsString
  | [] => []
  | .null :: vs => [] :: itemTexts vs
  | v :: vs => text v :: itemTexts vs

end

end Text

section MapStrings

mutual

/-- Rewrite every string of a value; member names stay. -/
def mapStrings (f : JsString → Json) : Json → Json
  | .str s => f s
  | .arr items => .arr (mapItems f items)
  | .obj members => .obj (mapMembers f members)
  | v => v

/-- Rewrite the strings of every item. -/
def mapItems (f : JsString → Json) : List Json → List Json
  | [] => []
  | v :: vs => mapStrings f v :: mapItems f vs

/-- Rewrite the strings of every member value. -/
def mapMembers (f : JsString → Json) : List (JsString × Json) → List (JsString × Json)
  | [] => []
  | (k, v) :: ms => (k, mapStrings f v) :: mapMembers f ms

end

mutual

/-- The strings of a value, at any depth. -/
def leaves : Json → List JsString
  | .str s => [s]
  | .arr items => itemLeaves items
  | .obj members => memberLeaves members
  | _ => []

/-- The strings of the items. -/
def itemLeaves : List Json → List JsString
  | [] => []
  | v :: vs => leaves v ++ itemLeaves vs

/-- The strings of the member values. -/
def memberLeaves : List (JsString × Json) → List JsString
  | [] => []
  | (_, v) :: ms => leaves v ++ memberLeaves ms

end

mutual

/-- The member names of a value, at any depth. -/
def memberNames : Json → List JsString
  | .arr items => itemMemberNames items
  | .obj members => membersNames members
  | _ => []

/-- The member names in the items. -/
def itemMemberNames : List Json → List JsString
  | [] => []
  | v :: vs => memberNames v ++ itemMemberNames vs

/-- The names of the members, and those in their values. -/
def membersNames : List (JsString × Json) → List JsString
  | [] => []
  | (k, v) :: ms => k :: (memberNames v ++ membersNames ms)

end

/-- Every string of a value, member names included. -/
def strings (v : Json) : List JsString := leaves v ++ memberNames v

theorem mem_itemLeaves {items : List Json} {s : JsString} :
    s ∈ itemLeaves items ↔ ∃ v ∈ items, s ∈ leaves v := by
  induction items with
  | nil => simp [itemLeaves]
  | cons v vs ih => simp [itemLeaves, ih]

theorem mem_memberLeaves {members : List (JsString × Json)} {s : JsString} :
    s ∈ memberLeaves members ↔ ∃ m ∈ members, s ∈ leaves m.2 := by
  induction members with
  | nil => simp [memberLeaves]
  | cons m ms ih => simp [memberLeaves, ih]

theorem mem_itemMemberNames {items : List Json} {s : JsString} :
    s ∈ itemMemberNames items ↔ ∃ v ∈ items, s ∈ memberNames v := by
  induction items with
  | nil => simp [itemMemberNames]
  | cons v vs ih => simp [itemMemberNames, ih]

theorem mem_membersNames {members : List (JsString × Json)} {s : JsString} :
    s ∈ membersNames members ↔ ∃ m ∈ members, s = m.1 ∨ s ∈ memberNames m.2 := by
  induction members with
  | nil => simp [membersNames]
  | cons m ms ih => simp [membersNames, ih, or_assoc]

end MapStrings

end Json

end OpenWop.Js
