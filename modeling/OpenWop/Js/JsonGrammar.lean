import OpenWop.Js.Canonical
import OpenWop.Js.NumberLiteral

/-!
# The grammar of JSON texts

The grammar of RFC 8259 over UTF-16 code units, as a relation between a text and the
tree it is parsed to. A tree keeps every member of an object, in order, and every
number literal by its parts. Its value is the JSON value of the text.
-/

namespace OpenWop.Js

section Trees

/-- What a JSON text is parsed to. -/
inductive JsonTree where
  | null
  | bool (b : Bool)
  | num (l : NumberLiteral)
  | str (s : JsString)
  | arr (items : List JsonTree)
  | obj (members : List (JsString × JsonTree))

/-- Induction with the hypothesis on every item and every member. -/
@[elab_as_elim, induction_eliminator]
theorem JsonTree.induction {motive : JsonTree → Prop} (null : motive .null)
    (bool : ∀ b, motive (.bool b)) (num : ∀ l, motive (.num l)) (str : ∀ s, motive (.str s))
    (arr : ∀ items : List JsonTree, (∀ t ∈ items, motive t) → motive (.arr items))
    (obj : ∀ members : List (JsString × JsonTree), (∀ m ∈ members, motive m.2) →
      motive (.obj members)) (t : JsonTree) : motive t :=
  @JsonTree.rec motive (fun items => ∀ t ∈ items, motive t) (fun members => ∀ m ∈ members, motive m.2)
    (fun m => motive m.2) null bool num str arr obj
    (by simp) (fun _ _ ht hs => List.forall_mem_cons.mpr ⟨ht, hs⟩)
    (by simp) (fun _ _ hm hs => List.forall_mem_cons.mpr ⟨hm, hs⟩) (fun _ _ ht => ht) t

namespace JsonTree

mutual

/-- The JSON value of a tree. -/
def value : JsonTree → Json
  | .null => .null
  | .bool b => .bool b
  | .num l => .num l.value
  | .str s => .str s
  | .arr items => .arr (itemValues items)
  | .obj members => .obj (memberValues members)

/-- The values of the items. -/
def itemValues : List JsonTree → List Json
  | [] => []
  | t :: ts => value t :: itemValues ts

/-- The members with their values. -/
def memberValues : List (JsString × JsonTree) → List (JsString × Json)
  | [] => []
  | (k, t) :: ms => (k, value t) :: memberValues ms

end

/-- `2^53 - 1`. -/
def maxExact : Nat := 2 ^ 53 - 1

/-- The literal is read as a finite number, and is no integer literal out of range. -/
def literalAdmitted (l : NumberLiteral) : Bool :=
  (!l.isInteger || digitsValue l.integer ≤ maxExact) &&
    match l.value with
    | .finite _ => true
    | _ => false

mutual

/-- No member name twice, no lone surrogate, no integer literal out of range and no number that is
not finite. -/
def isAdmitted : JsonTree → Bool
  | .num l => literalAdmitted l
  | .str s => isWellFormed s
  | .arr items => itemsAdmitted items
  | .obj members => (Record.keys members).Nodup && membersAdmitted members
  | _ => true

/-- Every item is admitted. -/
def itemsAdmitted : List JsonTree → Bool
  | [] => true
  | t :: ts => isAdmitted t && itemsAdmitted ts

/-- Every name is well formed and every member admitted. -/
def membersAdmitted : List (JsString × JsonTree) → Bool
  | [] => true
  | (k, t) :: ms => isWellFormed k && isAdmitted t && membersAdmitted ms

end

theorem itemValues_eq (items : List JsonTree) : itemValues items = items.map value := by
  induction items with
  | nil => rfl
  | cons t ts ih => rw [itemValues, ih, List.map_cons]

theorem memberValues_eq (members : List (JsString × JsonTree)) :
    memberValues members = members.map fun m => (m.1, value m.2) := by
  induction members with
  | nil => rfl
  | cons m ms ih => rw [memberValues, ih, List.map_cons]

theorem itemsAdmitted_iff {items : List JsonTree} :
    itemsAdmitted items = true ↔ ∀ t ∈ items, isAdmitted t = true := by
  induction items with
  | nil => simp [itemsAdmitted]
  | cons t ts ih => simp [itemsAdmitted, ih]

theorem membersAdmitted_iff {members : List (JsString × JsonTree)} :
    membersAdmitted members = true ↔
      ∀ m ∈ members, isWellFormed m.1 = true ∧ isAdmitted m.2 = true := by
  induction members with
  | nil => simp [membersAdmitted]
  | cons m ms ih =>
    obtain ⟨k, t⟩ := m
    simp [membersAdmitted, ih, and_assoc]

end JsonTree

end Trees

namespace Grammar

section Units

/-- Insignificant whitespace. -/
def isWs (u : UInt16) : Bool := u = unit ' ' || u = 9 || u = 10 || u = 13

/-- A text of whitespace. -/
def Ws (w : JsString) : Prop := ∀ u ∈ w, isWs u = true

/-- A hexadecimal digit. -/
def isHexDigit (u : UInt16) : Bool :=
  isDigit u || (65 ≤ u && u ≤ 70) || (97 ≤ u && u ≤ 102)

/-- The value of a hexadecimal digit. -/
def hexDigitValue (u : UInt16) : Nat :=
  if u ≤ 57 then u.toNat - 48 else if u ≤ 70 then u.toNat - 55 else u.toNat - 87

/-- The unit four hexadecimal digits stand for. -/
def hexUnit (a b c d : UInt16) : UInt16 :=
  UInt16.ofNat (hexDigitValue a * 4096 + hexDigitValue b * 256 + hexDigitValue c * 16 +
    hexDigitValue d)

/-- The unit an escape of one unit stands for. -/
def shortEscape (e : UInt16) : Option UInt16 :=
  if e = unit '"' || e = unit '\\' || e = unit '/' then some e
  else if e = unit 'b' then some 8
  else if e = unit 'f' then some 12
  else if e = unit 'n' then some 10
  else if e = unit 'r' then some 13
  else if e = unit 't' then some 9
  else none

end Units

section Texts

/-- The text between quotes and the units it stands for. -/
inductive Chars : JsString → JsString → Prop
  | nil : Chars [] []
  | unescaped {u : UInt16} {x s : JsString} (control : ¬ u < 32) (quote : u ≠ unit '"')
      (backslash : u ≠ unit '\\') : Chars x s → Chars (u :: x) (u :: s)
  | escape {e u : UInt16} {x s : JsString} (short : shortEscape e = some u) :
      Chars x s → Chars (unit '\\' :: e :: x) (u :: s)
  | unicode {a b c d : UInt16} {x s : JsString} (hex : ∀ u ∈ [a, b, c, d], isHexDigit u = true) :
      Chars x s → Chars (unit '\\' :: unit 'u' :: a :: b :: c :: d :: x) (hexUnit a b c d :: s)

/-- A string with its quotes. -/
inductive Str : JsString → JsString → Prop
  | quoted {x s : JsString} : Chars x s → Str (unit '"' :: (x ++ [unit '"'])) s

mutual

/-- A value. -/
inductive Value : JsString → JsonTree → Prop
  | null : Value (js "null") .null
  | true : Value (js "true") (.bool true)
  | false : Value (js "false") (.bool false)
  | num {l : NumberLiteral} : l.Valid → Value l.text (.num l)
  | str {x s : JsString} : Str x s → Value x (.str s)
  | emptyArr {w : JsString} : Ws w → Value (unit '[' :: (w ++ [unit ']'])) (.arr [])
  | arr {x : JsString} {items : List JsonTree} :
      Elements x items → Value (unit '[' :: (x ++ [unit ']'])) (.arr items)
  | emptyObj {w : JsString} : Ws w → Value (unit '\x7b' :: (w ++ [unit '\x7d'])) (.obj [])
  | obj {x : JsString} {members : List (JsString × JsonTree)} :
      Members x members → Value (unit '\x7b' :: (x ++ [unit '\x7d'])) (.obj members)

/-- A value with whitespace around it. -/
inductive Element : JsString → JsonTree → Prop
  | value {w w' x : JsString} {t : JsonTree} :
      Ws w → Value x t → Ws w' → Element (w ++ (x ++ w')) t

/-- Elements between commas. -/
inductive Elements : JsString → List JsonTree → Prop
  | one {x : JsString} {t : JsonTree} : Element x t → Elements x [t]
  | cons {x y : JsString} {t : JsonTree} {items : List JsonTree} :
      Element x t → Elements y items → Elements (x ++ unit ',' :: y) (t :: items)

/-- A name, a colon and an element. -/
inductive Member : JsString → JsString × JsonTree → Prop
  | named {w w' x y k : JsString} {t : JsonTree} : Ws w → Str x k → Ws w' → Element y t →
      Member (w ++ (x ++ (w' ++ unit ':' :: y))) (k, t)

/-- Members between commas. -/
inductive Members : JsString → List (JsString × JsonTree) → Prop
  | one {x : JsString} {m : JsString × JsonTree} : Member x m → Members x [m]
  | cons {x y : JsString} {m : JsString × JsonTree} {members : List (JsString × JsonTree)} :
      Member x m → Members y members → Members (x ++ unit ',' :: y) (m :: members)

end

variable {v w x : JsString}

theorem Ws.append (hv : Ws v) (hw : Ws w) : Ws (v ++ w) := List.forall_mem_append.mpr ⟨hv, hw⟩

/-- Whitespace may be put before an element. -/
theorem Element.ws {t : JsonTree} (hw : Ws w) (h : Element x t) : Element (w ++ x) t := by
  obtain ⟨hv, hx, hv'⟩ := h
  rw [← List.append_assoc]
  exact .value (hw.append hv) hx hv'

/-- Whitespace may be put before elements. -/
theorem Elements.ws {items : List JsonTree} (hw : Ws w) (h : Elements x items) :
    Elements (w ++ x) items := by
  cases h with
  | one h => exact .one (h.ws hw)
  | cons h hs =>
    rw [← List.append_assoc]
    exact .cons (h.ws hw) hs

/-- Whitespace may be put before members. -/
theorem Members.ws {members : List (JsString × JsonTree)} (hw : Ws w) (h : Members x members) :
    Members (w ++ x) members := by
  have hmember : ∀ {y m}, Member y m → Member (w ++ y) m := by
    rintro y m ⟨hv, hk, hv', ht⟩
    rw [← List.append_assoc]
    exact .named (hw.append hv) hk hv' ht
  cases h with
  | one h => exact .one (hmember h)
  | cons h hs =>
    rw [← List.append_assoc]
    exact .cons (hmember h) hs

/-- A JSON text. -/
def Text (x : JsString) (t : JsonTree) : Prop := Element x t

end Texts

end Grammar

end OpenWop.Js
