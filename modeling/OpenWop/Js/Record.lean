import Mathlib.Data.List.Induction
import Mathlib.Data.List.Nodup

/-!
# Insertion-ordered maps

The entries of a `Map`, or the own members of an object, in the order in which
their keys were first written. Writing an existing key keeps its position. A `Map`
is such a list whose keys are distinct.
-/

namespace OpenWop.Js

/-- The entries of an insertion-ordered map. -/
abbrev Record (K V : Type) := List (K × V)

namespace Record

variable {K V W : Type}

section Keys

/-- `m.keys()`. -/
def keys (r : Record K V) : List K := r.map Prod.fst

/-- `m.values()`. -/
def values (r : Record K V) : List V := r.map Prod.snd

/-- The same keys with every value rewritten. -/
def mapValues (f : V → W) (r : Record K V) : Record K W := r.map fun m => (m.1, f m.2)

@[simp] theorem keys_nil : keys ([] : Record K V) = [] := rfl

@[simp] theorem keys_cons (m : K × V) (r : Record K V) : keys (m :: r) = m.1 :: keys r := rfl

@[simp] theorem mapValues_cons (f : V → W) (m : K × V) (r : Record K V) :
    mapValues f (m :: r) = (m.1, f m.2) :: mapValues f r := rfl

@[simp] theorem keys_mapValues (f : V → W) (r : Record K V) : keys (mapValues f r) = keys r := by
  simp [keys, mapValues]

theorem values_mapValues (f : V → W) (r : Record K V) :
    values (mapValues f r) = (values r).map f := by
  simp [values, mapValues]

end Keys

variable [DecidableEq K]

/-- `m.get(key)`. -/
def get? : Record K V → K → Option V
  | [], _ => none
  | (k, v) :: r, key => if k = key then some v else get? r key

/-- `m.set(key, value)`. -/
def set : Record K V → K → V → Record K V
  | [], key, value => [(key, value)]
  | (k, v) :: r, key, value =>
    if k = key then (key, value) :: r else (k, v) :: set r key value

@[simp] theorem get?_nil (key : K) : get? ([] : Record K V) key = none := rfl

theorem get?_cons (m : K × V) (r : Record K V) (key : K) :
    get? (m :: r) key = if m.1 = key then some m.2 else get? r key := rfl

theorem set_cons (m : K × V) (r : Record K V) (key : K) (value : V) :
    set (m :: r) key value = if m.1 = key then (key, value) :: r else m :: set r key value := rfl

/-- A key is absent exactly when reading it gives nothing. -/
theorem get?_eq_none_iff {r : Record K V} {key : K} : get? r key = none ↔ key ∉ keys r := by
  induction r with
  | nil => simp
  | cons m r ih =>
    by_cases hk : m.1 = key
    · simp [get?_cons, hk]
    · have hk' : key ≠ m.1 := fun h => hk h.symm
      simp [get?_cons, hk, hk', ih]

theorem get?_isSome_iff {r : Record K V} {key : K} : (get? r key).isSome ↔ key ∈ keys r := by
  rw [← not_iff_not, Bool.not_eq_true, Option.isSome_eq_false_iff, Option.isNone_iff_eq_none,
    get?_eq_none_iff]

theorem mem_of_get? {r : Record K V} {key : K} {v : V} (h : get? r key = some v) :
    (key, v) ∈ r := by
  induction r with
  | nil => simp at h
  | cons m r ih =>
    obtain ⟨k, w⟩ := m
    rw [get?_cons] at h
    split at h
    · next hk => cases h; subst hk; exact List.mem_cons_self ..
    · exact List.mem_cons_of_mem _ (ih h)

/-- Under distinct keys an entry is what reading its key gives. -/
theorem get?_of_mem {r : Record K V} (hr : (keys r).Nodup) {key : K} {v : V}
    (h : (key, v) ∈ r) : get? r key = some v := by
  induction r with
  | nil => simp at h
  | cons m r ih =>
    rw [keys_cons, List.nodup_cons] at hr
    rcases List.mem_cons.mp h with rfl | h
    · simp [get?_cons]
    · have hk : m.1 ≠ key := fun he => hr.1 (he ▸ List.mem_map_of_mem (f := Prod.fst) h)
      simpa [get?_cons, hk] using ih hr.2 h

@[simp] theorem get?_mapValues (f : V → W) (r : Record K V) (key : K) :
    get? (mapValues f r) key = (get? r key).map f := by
  induction r with
  | nil => rfl
  | cons m r ih =>
    rw [mapValues_cons, get?_cons, get?_cons, ih]
    split <;> rfl

@[simp] theorem get?_set_self (r : Record K V) (key : K) (value : V) :
    get? (set r key value) key = some value := by
  induction r with
  | nil => simp [set, get?_cons]
  | cons m r ih =>
    by_cases hk : m.1 = key
    · simp [set_cons, get?_cons, hk]
    · simp [set_cons, get?_cons, hk, ih]

theorem get?_set_of_ne (r : Record K V) {key other : K} (value : V) (h : other ≠ key) :
    get? (set r key value) other = get? r other := by
  induction r with
  | nil => simp [set, get?_cons, Ne.symm h]
  | cons m r ih =>
    by_cases hk : m.1 = key
    · simp [set_cons, get?_cons, hk, Ne.symm h]
    · simp [set_cons, get?_cons, hk, ih]

/-- Reading after a write. -/
theorem get?_set (r : Record K V) (key other : K) (value : V) :
    get? (set r key value) other = if other = key then some value else get? r other := by
  by_cases h : other = key
  · simp [h]
  · simp [h, get?_set_of_ne]

/-- Writing what is there changes nothing. -/
theorem set_eq_self {r : Record K V} {key : K} {v : V} (h : get? r key = some v) : set r key v = r := by
  induction r with
  | nil => cases h
  | cons m r ih =>
    rw [get?_cons] at h
    rw [set_cons]
    by_cases hk : m.1 = key
    · rw [if_pos hk] at h ⊢
      rw [← hk, ← Option.some.inj h]
    · rw [if_neg hk] at h ⊢
      rw [ih h]

/-- Writing an existing key keeps the keys and their order. -/
theorem keys_set_of_mem {r : Record K V} {key : K} (value : V) (h : key ∈ keys r) :
    keys (set r key value) = keys r := by
  induction r with
  | nil => simp at h
  | cons m r ih =>
    by_cases hk : m.1 = key
    · simp [set_cons, hk]
    · have hr : key ∈ keys r := by
        simpa [Ne.symm hk] using h
      simp [set_cons, hk, ih hr]

/-- Writing a new key appends it. -/
theorem set_of_not_mem {r : Record K V} {key : K} (value : V) (h : key ∉ keys r) :
    set r key value = r ++ [(key, value)] := by
  induction r with
  | nil => rfl
  | cons m r ih =>
    rw [keys_cons, List.mem_cons, not_or] at h
    simp [set_cons, Ne.symm h.1, ih h.2]

theorem mem_keys_set {r : Record K V} {key other : K} (value : V) :
    other ∈ keys (set r key value) ↔ other = key ∨ other ∈ keys r := by
  rw [← get?_isSome_iff, get?_set, ← get?_isSome_iff]
  split <;> simp_all

/-- Writing preserves distinctness of the keys. -/
theorem nodup_keys_set {r : Record K V} (hr : (keys r).Nodup) (key : K) (value : V) :
    (keys (set r key value)).Nodup := by
  by_cases h : key ∈ keys r
  · rwa [keys_set_of_mem value h]
  · have hk : keys (set r key value) = keys r ++ [key] := by
      rw [set_of_not_mem value h]; simp [keys]
    rw [hk]
    exact hr.append (List.nodup_singleton _) (by simpa using h)

/-- Rewriting values commutes with writing. -/
theorem mapValues_set (f : V → W) (r : Record K V) (key : K) (value : V) :
    mapValues f (set r key value) = set (mapValues f r) key (f value) := by
  induction r with
  | nil => rfl
  | cons m r ih =>
    by_cases hk : m.1 = key
    · simp [set_cons, hk]
    · simpa [set_cons, hk] using ih

theorem get?_append (r r' : Record K V) (key : K) :
    get? (r ++ r') key = (get? r key).or (get? r' key) := by
  induction r with
  | nil => simp
  | cons m r ih =>
    rw [List.cons_append, get?_cons, get?_cons, ih]
    split <;> simp

/-- The rest of `{ [key]: _, ...rest }`. -/
def erase (r : Record K V) (key : K) : Record K V := r.filter fun m => m.1 ≠ key

@[simp] theorem get?_erase_self (r : Record K V) (key : K) : get? (erase r key) key = none := by
  rw [get?_eq_none_iff]
  simp [erase, keys]

theorem get?_erase (r : Record K V) (key other : K) :
    get? (erase r key) other = if other = key then none else get? r other := by
  split
  · next h => rw [h, get?_erase_self]
  · next h =>
    induction r with
    | nil => rfl
    | cons m r ih =>
      rw [erase, List.filter_cons]
      split
      · rw [get?_cons, get?_cons]
        split
        · rfl
        · exact ih
      · next hm =>
        rw [get?_cons, if_neg]
        · exact ih
        · intro he
          simp [he, h] at hm

/-- Records with distinct keys that read alike hold the same entries. -/
theorem perm_of_get?_eq {r r' : Record K V} (hr : (keys r).Nodup) (hr' : (keys r').Nodup)
    (h : ∀ key, get? r key = get? r' key) : r.Perm r' := by
  refine (List.perm_ext_iff_of_nodup hr.of_map hr'.of_map).mpr fun m => ?_
  constructor
  · intro hm
    exact mem_of_get? (h m.1 ▸ get?_of_mem hr hm)
  · intro hm
    exact mem_of_get? ((h m.1).symm ▸ get?_of_mem hr' hm)

end Record

/-- A `Map`: its entries in insertion order, under distinct keys. -/
structure Map (K V : Type) where
  entries : Record K V
  nodup : (Record.keys entries).Nodup
  deriving Repr

namespace Map

variable {K V W : Type}

@[ext] theorem ext {m m' : Map K V} (h : m.entries = m'.entries) : m = m' := by
  cases m
  cases m'
  cases h
  rfl

/-- `new Map()`. -/
def empty : Map K V := ⟨[], List.nodup_nil⟩

/-- `[...m.keys()]`. -/
def keys (m : Map K V) : List K := Record.keys m.entries

/-- `[...m.values()]`. -/
def values (m : Map K V) : List V := Record.values m.entries

/-- The same keys with every value rewritten. -/
def mapValues (f : V → W) (m : Map K V) : Map K W :=
  ⟨Record.mapValues f m.entries, by rw [Record.keys_mapValues]; exact m.nodup⟩

variable [DecidableEq K]

/-- `m.get(key)`. -/
def get? (m : Map K V) (key : K) : Option V := Record.get? m.entries key

/-- `m.set(key, value)`. -/
def set (m : Map K V) (key : K) (value : V) : Map K V :=
  ⟨Record.set m.entries key value, Record.nodup_keys_set m.nodup key value⟩

@[simp] theorem get?_empty (key : K) : get? (empty : Map K V) key = none := rfl

@[simp] theorem get?_set_self (m : Map K V) (key : K) (value : V) :
    get? (set m key value) key = some value := Record.get?_set_self ..

/-- Reading after a write. -/
theorem get?_set (m : Map K V) (key other : K) (value : V) :
    get? (set m key value) other = if other = key then some value else get? m other :=
  Record.get?_set ..

@[simp] theorem get?_mapValues (f : V → W) (m : Map K V) (key : K) :
    get? (mapValues f m) key = (get? m key).map f := Record.get?_mapValues ..

/-- `m.delete(key)`. -/
def erase (m : Map K V) (key : K) : Map K V :=
  ⟨Record.erase m.entries key, m.nodup.sublist (List.filter_sublist.map Prod.fst)⟩

/-- Reading after a deletion. -/
theorem get?_erase (m : Map K V) (key other : K) :
    get? (erase m key) other = if other = key then none else get? m other :=
  Record.get?_erase ..

theorem mapValues_set (f : V → W) (m : Map K V) (key : K) (value : V) :
    mapValues f (set m key value) = set (mapValues f m) key (f value) :=
  ext (Record.mapValues_set ..)

theorem get?_isSome_iff {m : Map K V} {key : K} : (get? m key).isSome ↔ key ∈ keys m :=
  Record.get?_isSome_iff

/-- An entry is what reading its key gives. -/
theorem mem_entries_iff {m : Map K V} {key : K} {v : V} :
    (key, v) ∈ m.entries ↔ get? m key = some v :=
  ⟨Record.get?_of_mem m.nodup, Record.mem_of_get?⟩

/-- A value of the map is what some key reads. -/
theorem mem_values_iff {m : Map K V} {v : V} : v ∈ values m ↔ ∃ key, get? m key = some v := by
  constructor
  · intro h
    obtain ⟨e, he, rfl⟩ := List.mem_map.mp h
    exact ⟨e.1, mem_entries_iff.mp he⟩
  · rintro ⟨key, h⟩
    exact List.mem_map_of_mem (f := Prod.snd) (mem_entries_iff.mpr h)

/-- A run of writes leaves under each key the last value written there. -/
theorem get?_foldl_set (f : V → K) (items : List V) (m : Map K V) (key : K) :
    get? (items.foldl (fun m v => m.set (f v) v) m) key =
      (items.filter fun v => f v = key).getLast?.or (get? m key) := by
  induction items using List.reverseRecOn with
  | nil => simp
  | append_singleton items v ih =>
    rw [List.foldl_append, List.foldl_cons, List.foldl_nil, get?_set, ih, List.filter_append]
    by_cases h : f v = key
    · simp [h]
    · have h' : key ≠ f v := fun he => h he.symm
      simp [h, h']

end Map

section Unique

variable {α : Type} [DecidableEq α]

/-- `[...new Set(items)]`: the first occurrence of every item. -/
def uniq (items : List α) : List α :=
  items.foldl (fun seen x => if x ∈ seen then seen else seen ++ [x]) []

private theorem mem_foldl_uniq (items seen : List α) (a : α) :
    a ∈ items.foldl (fun seen x => if x ∈ seen then seen else seen ++ [x]) seen ↔
      a ∈ seen ∨ a ∈ items := by
  induction items generalizing seen with
  | nil => simp
  | cons x items ih =>
    rw [List.foldl_cons, ih]
    split
    · next hx =>
      constructor
      · rintro (h | h)
        · exact Or.inl h
        · exact Or.inr (List.mem_cons_of_mem _ h)
      · rintro (h | h)
        · exact Or.inl h
        · rcases List.mem_cons.mp h with rfl | h
          · exact Or.inl hx
          · exact Or.inr h
    · simp [or_assoc]

theorem mem_uniq {items : List α} {a : α} : a ∈ uniq items ↔ a ∈ items := by
  rw [uniq, mem_foldl_uniq]
  simp

theorem nodup_uniq (items : List α) : (uniq items).Nodup := by
  induction items using List.reverseRecOn with
  | nil => exact List.nodup_nil
  | append_singleton items x ih =>
    rw [uniq, List.foldl_append]
    change (if x ∈ uniq items then uniq items else uniq items ++ [x]).Nodup
    split
    · exact ih
    · next hx =>
      refine List.nodup_append.mpr ⟨ih, List.nodup_singleton x, fun a ha b hb => ?_⟩
      rintro rfl
      exact hx (List.mem_singleton.mp hb ▸ ha)

end Unique

end OpenWop.Js
