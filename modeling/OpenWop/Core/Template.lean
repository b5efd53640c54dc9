import Mathlib.Data.List.Infix
import Mathlib.Data.List.TakeWhile

/-!
# Templates

A text with holes. A hole is an opening, a name and a closing; the holes of a text are
found from left to right without overlap. Filling a template puts a text in place of
every hole. Nothing here names a program.
-/

namespace OpenWop.Template

variable {α : Type}

section Straddles

/-- The text lies across at least two of the parts, and in none of them alone. -/
def Straddles (x : List α) (parts : List (List α)) : Prop :=
  ∃ before w mid z after s t, parts = before ++ w :: (mid ++ z :: after) ∧ s ≠ [] ∧ t ≠ [] ∧
    s <:+ w ∧ t <+: z ∧ x = s ++ mid.flatten ++ t

end Straddles

/-- How holes are written. A name is a maximal run of name units, so the closing may not start
with one. -/
structure Marker (α : Type) where
  opening : List α
  closing : List α
  isStart : α → Bool
  isUnit : α → Bool
  isUnit_of_isStart : ∀ u, isStart u = true → isUnit u = true
  closing_ends : ∃ u rest, closing = u :: rest ∧ isUnit u = false

/-- A piece of a scanned text. -/
inductive Piece (α : Type) where
  | lit (u : α)
  | hole (name : List α)
  deriving DecidableEq, Repr

/-- The name of a hole. -/
def Piece.name? : Piece α → Option (List α)
  | .lit _ => none
  | .hole name => some name

/-- What a piece becomes when holes are filled. -/
def Piece.fill (f : List α → List α) : Piece α → List α
  | .lit u => [u]
  | .hole name => f name

namespace Marker

variable (m : Marker α)

/-- The hole of that name. -/
def token (name : List α) : List α := m.opening ++ name ++ m.closing

/-- The text is a name. -/
def IsName (name : List α) : Prop := (name.head?.any m.isStart && name.all m.isUnit) = true

instance (name : List α) : Decidable (m.IsName name) := inferInstanceAs (Decidable (_ = true))

theorem token_ne_nil (name : List α) : m.token name ≠ [] := by
  obtain ⟨u, rest, hc, _⟩ := m.closing_ends
  simp [token, hc]

theorem isUnit_of_mem {name : List α} (h : m.IsName name) : ∀ u ∈ name, m.isUnit u = true := by
  simpa using (Bool.and_eq_true_iff.mp h).2

/-- The units after the opening of a hole are its name and then its closing. -/
theorem span_name {name : List α} (h : m.IsName name) (s : List α) :
    (name ++ m.closing ++ s).takeWhile m.isUnit = name ∧
      (name ++ m.closing ++ s).dropWhile m.isUnit = m.closing ++ s := by
  obtain ⟨u, rest, hc, hu⟩ := m.closing_ends
  have hall := m.isUnit_of_mem h
  constructor
  · rw [List.append_assoc, List.takeWhile_append_of_pos hall, hc, List.cons_append,
      List.takeWhile_cons_of_neg (by simp [hu]), List.append_nil]
  · rw [List.append_assoc, List.dropWhile_append_of_pos hall, hc, List.cons_append,
      List.dropWhile_cons_of_neg (by simp [hu])]

variable [DecidableEq α]

/-- The name of the hole the text starts with. -/
def nameAt? (s : List α) : Option (List α) :=
  if m.opening.isPrefixOf s then
    let rest := s.drop m.opening.length
    let name := rest.takeWhile m.isUnit
    if name.head?.any m.isStart && m.closing.isPrefixOf (rest.dropWhile m.isUnit) then some name
    else none
  else none

/-- The pieces of a text, after units that belong to a hole found before. -/
def scanFrom : Nat → List α → List (Piece α)
  | _, [] => []
  | skip + 1, _ :: s => scanFrom skip s
  | 0, u :: s =>
    match m.nameAt? (u :: s) with
    | some name => .hole name :: scanFrom ((m.token name).length - 1) s
    | none => .lit u :: scanFrom 0 s

/-- The pieces of a text. -/
def scan (s : List α) : List (Piece α) := m.scanFrom 0 s

/-- The names of the holes, in order. -/
def names (s : List α) : List (List α) :=
  (m.scan s).filterMap Piece.name?

/-- The text with every hole filled. -/
def fill (f : List α → List α) (s : List α) : List α := (m.scan s).flatMap (Piece.fill f)

/-- The position after the first hole, when the text starts at that offset. -/
def endOfFirst : Nat → List α → Option Nat
  | _, [] => none
  | offset, u :: s =>
    match m.nameAt? (u :: s) with
    | some name => some (offset + (m.token name).length)
    | none => endOfFirst (offset + 1) s

section Scan

/-- A text starts with a hole exactly when the hole is a prefix of it. -/
theorem nameAt?_eq_some {s name : List α} :
    m.nameAt? s = some name ↔ m.IsName name ∧ m.token name <+: s := by
  constructor
  · intro h
    rw [nameAt?] at h
    split at h
    · next ho =>
      obtain ⟨rest, rfl⟩ := List.isPrefixOf_iff_prefix.mp ho
      simp only [List.drop_left'] at h
      split at h
      · next hn =>
        cases h
        obtain ⟨hs, hc⟩ := Bool.and_eq_true_iff.mp hn
        obtain ⟨tail, ht⟩ := List.isPrefixOf_iff_prefix.mp hc
        refine ⟨Bool.and_eq_true_iff.mpr ⟨hs, ?_⟩, tail, ?_⟩
        · exact List.all_eq_true.mpr fun v hv => List.mem_takeWhile_imp hv
        · rw [token, List.append_assoc, List.append_assoc, ht, List.takeWhile_append_dropWhile]
      · cases h
    · cases h
  · rintro ⟨hn, tail, rfl⟩
    have hs := (Bool.and_eq_true_iff.mp hn).1
    have ht : (m.token name ++ tail).drop m.opening.length = name ++ m.closing ++ tail := by
      simp [token]
    rw [nameAt?, if_pos (List.isPrefixOf_iff_prefix.mpr (by simp [token, List.append_assoc])), ht]
    obtain ⟨h1, h2⟩ := m.span_name hn tail
    simp only [h1, h2]
    rw [if_pos]
    simp [hs, List.isPrefixOf_iff_prefix]

@[simp] theorem scan_nil : m.scan [] = [] := rfl

/-- A skip drops units. -/
theorem scanFrom_eq (k : Nat) (s : List α) : m.scanFrom k s = m.scan (s.drop k) := by
  induction k generalizing s with
  | zero => rfl
  | succ k ih =>
    cases s with
    | nil => rfl
    | cons u s => rw [scanFrom, ih, List.drop_succ_cons]

theorem scan_token {name : List α} (h : m.IsName name) (s : List α) :
    m.scan (m.token name ++ s) = .hole name :: m.scan s := by
  have ht : m.nameAt? (m.token name ++ s) = some name :=
    m.nameAt?_eq_some.mpr ⟨h, List.prefix_append ..⟩
  rcases hs : m.token name with _ | ⟨u, rest⟩
  · exact absurd hs (m.token_ne_nil name)
  · rw [hs] at ht
    rw [List.cons_append] at ht ⊢
    rw [scan, scanFrom, ht]
    simp [scanFrom_eq, hs]

theorem scan_lit {u : α} {s : List α} (h : m.nameAt? (u :: s) = none) :
    m.scan (u :: s) = .lit u :: m.scan s := by
  rw [scan, scanFrom, h]
  rfl

/-- Induction along a scan. -/
theorem scan_induction {motive : List α → Prop} (nil : motive [])
    (hole : ∀ name s, m.IsName name → motive s → motive (m.token name ++ s))
    (lit : ∀ u s, m.nameAt? (u :: s) = none → motive s → motive (u :: s)) (s : List α) :
    motive s := by
  induction hn : s.length using Nat.strong_induction_on generalizing s with
  | _ n ih =>
    subst hn
    cases s with
    | nil => exact nil
    | cons u s =>
      rcases h : m.nameAt? (u :: s) with _ | name
      · exact lit u s h (ih s.length (by simp) s rfl)
      · obtain ⟨hname, tail, ht⟩ := m.nameAt?_eq_some.mp h
        rw [← ht]
        have hpos := List.length_pos_iff.mpr (m.token_ne_nil name)
        refine hole name tail hname (ih tail.length ?_ tail rfl)
        rw [← ht, List.length_append]
        omega

@[simp] theorem names_nil : m.names [] = [] := rfl

theorem names_token {name : List α} (h : m.IsName name) (s : List α) :
    m.names (m.token name ++ s) = name :: m.names s := by
  rw [names, m.scan_token h]
  rfl

theorem names_lit {u : α} {s : List α} (h : m.nameAt? (u :: s) = none) :
    m.names (u :: s) = m.names s := by
  rw [names, m.scan_lit h]
  rfl

theorem isName_of_mem_names {s name : List α} (h : name ∈ m.names s) : m.IsName name := by
  induction s using m.scan_induction with
  | nil => cases h
  | hole name' s hn ih =>
    rw [m.names_token hn] at h
    rcases List.mem_cons.mp h with rfl | h
    · exact hn
    · exact ih h
  | lit u s hu ih => exact ih (m.names_lit hu ▸ h)

end Scan

section Fill

variable {f g : List α → List α}

/-- The parts a filled text is put together from. -/
def parts (f : List α → List α) (s : List α) : List (List α) := (m.scan s).map (Piece.fill f)

end Fill

end Marker

end OpenWop.Template
