import Mathlib.Data.List.Basic

/-!
# Splitting a text at matches

A pattern is given by the length of its match at the start of a text, `0` where there is none. The
text is cut at the leftmost match, then at the leftmost one after it, and so on.
-/

namespace OpenWop.Core

variable {α : Type*}

/-- The pieces between the matches; `skip` units of a match are still to come. -/
def splitMatches (len : List α → Nat) (skip : Nat) : List α → List (List α)
  | [] => [[]]
  | u :: s =>
    if 0 < skip then splitMatches len (skip - 1) s
    else if 0 < len (u :: s) then [] :: splitMatches len (len (u :: s) - 1) s
    else (splitMatches len 0 s).modifyHead (u :: ·)

variable {len : List α → Nat}

theorem splitMatches_ne_nil (skip : Nat) (s : List α) : splitMatches len skip s ≠ [] := by
  induction s generalizing skip with
  | nil => exact List.cons_ne_nil _ _
  | cons u s ih =>
    rw [splitMatches]
    split
    · exact ih _
    · split
      · exact List.cons_ne_nil _ _
      · exact fun h => ih 0 (List.modifyHead_eq_nil_iff.mp h)

theorem splitMatches_skip (a b : List α) :
    splitMatches len a.length (a ++ b) = splitMatches len 0 b := by
  induction a with
  | nil => rfl
  | cons u a ih =>
    rw [List.cons_append, splitMatches, if_pos (List.length_pos_of_ne_nil (List.cons_ne_nil u a))]
    exact ih

/-- A match at the start closes an empty piece. -/
theorem splitMatches_match {a b : List α} (ha : a ≠ []) (h : len (a ++ b) = a.length) :
    splitMatches len 0 (a ++ b) = [] :: splitMatches len 0 b := by
  obtain ⟨u, a, rfl⟩ := List.exists_cons_of_ne_nil ha
  rw [List.cons_append] at h ⊢
  rw [splitMatches, if_neg (Nat.lt_irrefl 0), h, if_pos (List.length_pos_of_ne_nil ha)]
  exact congrArg _ (splitMatches_skip a b)

/-- What no match starts in belongs to the first piece. -/
theorem splitMatches_append {a b : List α}
    (h : ∀ front u back, a = front ++ u :: back → len (u :: (back ++ b)) = 0) :
    splitMatches len 0 (a ++ b) = (splitMatches len 0 b).modifyHead (a ++ ·) := by
  induction a with
  | nil =>
    have hne : splitMatches len 0 b ≠ [] := splitMatches_ne_nil 0 b
    obtain ⟨w, ws, hw⟩ := List.exists_cons_of_ne_nil hne
    rw [List.nil_append, hw]
    rfl
  | cons u a ih =>
    have hrest := ih fun front v back heq => h (u :: front) v back (by rw [heq, List.cons_append])
    have hnone := h [] u a rfl
    rw [List.cons_append, splitMatches, if_neg (Nat.lt_irrefl 0), hnone,
      if_neg (Nat.lt_irrefl 0), hrest]
    have hne : splitMatches len 0 b ≠ [] := splitMatches_ne_nil 0 b
    obtain ⟨w, ws, hw⟩ := List.exists_cons_of_ne_nil hne
    rw [hw]
    rfl

/-- A text with no match is one piece. -/
theorem splitMatches_of_none {s : List α}
    (h : ∀ front u back, s = front ++ u :: back → len (u :: back) = 0) :
    splitMatches len 0 s = [s] := by
  have hwhole : splitMatches len 0 (s ++ []) = (splitMatches len 0 []).modifyHead (s ++ ·) :=
    splitMatches_append fun front u back heq => by
      rw [List.append_nil]
      exact h front u back heq
  rw [List.append_nil] at hwhole
  rw [hwhole]
  change [s ++ []] = [s]
  rw [List.append_nil]

end OpenWop.Core
