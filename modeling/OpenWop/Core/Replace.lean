import Mathlib.Data.List.Infix

/-!
# Replacement in a text

The occurrences of a word are found from left to right without overlap. A replacement may
pass over an occurrence for what stands before and after it.
-/

namespace OpenWop.Replace

variable {α : Type}

section Split

variable [DecidableEq α]

/-- The pieces between the occurrences of the word, with so many places left of the last one. -/
def pieces (x : List α) : Nat → List α → List (List α)
  | _, [] => [[]]
  | k + 1, _ :: s => pieces x k s
  | 0, a :: s =>
    if x.isPrefixOf (a :: s) then [] :: pieces x (x.length - 1) s
    else (pieces x 0 s).modifyHead (a :: ·)

theorem pieces_ne_nil (x : List α) (k : Nat) (s : List α) : pieces x k s ≠ [] := by
  fun_induction pieces x k s with
  | case1 => simp
  | case2 k a s ih => exact ih
  | case3 a s h ih => simp
  | case4 a s h ih => simpa using ih

end Split

section Replace

variable [DecidableEq α]

/-- Put `y` for the occurrences of `x` that count, with so many places left of the last one and
what stands before. -/
def replaceFrom (counts : List α → List α → Bool) (x y : List α) : List α → Nat → List α → List α
  | _, _, [] => []
  | before, k + 1, a :: s => replaceFrom counts x y (before ++ [a]) k s
  | before, 0, a :: s =>
    if x.isPrefixOf (a :: s) && counts before ((a :: s).drop x.length) then
      y ++ replaceFrom counts x y (before ++ [a]) (x.length - 1) s
    else a :: replaceFrom counts x y (before ++ [a]) 0 s

/-- The text with `y` for the occurrences of `x` that count. -/
def replaceWhere (counts : List α → List α → Bool) (x y s : List α) : List α :=
  replaceFrom counts x y [] 0 s

/-- The text with `y` for every occurrence of `x`. -/
def replaceAll (x y s : List α) : List α := replaceWhere (fun _ _ => true) x y s

variable {counts : List α → List α → Bool} {x y : List α}

end Replace

section Seam

variable {x : List α}

/-- The word runs over the seam of two texts. -/
def Straddles (x a b : List α) : Prop :=
  ∃ p q, p ≠ [] ∧ q ≠ [] ∧ x = p ++ q ∧ p <:+ a ∧ q <+: b

theorem Straddles.mono {a a' b b' : List α} (h : Straddles x a b) (ha : a <:+ a')
    (hb : b <+: b') : Straddles x a' b' := by
  obtain ⟨p, q, hp, hq, hx, hpa, hqb⟩ := h
  exact ⟨p, q, hp, hq, hx, hpa.trans ha, hqb.trans hb⟩

/-- A word that starts two texts together ends in the first, or runs over the seam. -/
theorem prefix_or_straddles {a b : List α} (ha : a ≠ []) (h : x <+: a ++ b) :
    x <+: a ∨ Straddles x a b := by
  rcases List.prefix_or_prefix_of_prefix h (List.prefix_append a b) with hin | ⟨q, rfl⟩
  · exact Or.inl hin
  · by_cases hq : q = []
    · rw [hq, List.append_nil]
      exact Or.inl (List.prefix_refl a)
    · exact Or.inr ⟨a, q, ha, hq, rfl, List.suffix_refl a, (List.prefix_append_right_inj a).mp h⟩

/-- A word with no unit of the first text is in the second. -/
theorem isInfix_of_isInfix_append {z a b : List α} (hz : ∀ u ∈ z, u ∉ a) (h : z <:+: a ++ b) :
    z <:+: b := by
  rcases List.infix_append_iff_ne_nil.mp h with hin | hin | ⟨p, q, hp, _, rfl, hpa, _⟩
  · cases z with
    | nil => exact List.nil_infix
    | cons u z => exact absurd (hin.subset (List.mem_cons_self ..)) (hz u (List.mem_cons_self ..))
  · exact hin
  · obtain ⟨u, p, rfl⟩ := List.exists_cons_of_ne_nil hp
    exact absurd (hpa.subset (List.mem_cons_self ..)) (hz u (List.mem_cons_self ..))

end Seam

section ReplaceAll

variable [DecidableEq α] {x y : List α}

/-- What stands before does not matter where every occurrence counts. -/
theorem replaceFrom_before (before before' : List α) (k : Nat) (s : List α) :
    replaceFrom (fun _ _ => true) x y before k s =
      replaceFrom (fun _ _ => true) x y before' k s := by
  induction s generalizing before before' k with
  | nil => cases k <;> rfl
  | cons a s ih =>
    cases k with
    | succ k => exact ih (before ++ [a]) (before' ++ [a]) k
    | zero =>
      rw [replaceFrom, replaceFrom, ih (before ++ [a]) (before' ++ [a]) (x.length - 1),
        ih (before ++ [a]) (before' ++ [a]) 0]

theorem replaceFrom_skip (before a s : List α) :
    replaceFrom (fun _ _ => true) x y before a.length (a ++ s) = replaceAll x y s := by
  induction a generalizing before with
  | nil => exact replaceFrom_before before [] 0 s
  | cons u a ih => exact ih (before ++ [u])

@[simp] theorem replaceAll_nil : replaceAll x y [] = [] := rfl

/-- An occurrence at the start is replaced. -/
theorem replaceAll_word (hx : x ≠ []) (s : List α) :
    replaceAll x y (x ++ s) = y ++ replaceAll x y s := by
  obtain ⟨a, x, rfl⟩ := List.exists_cons_of_ne_nil hx
  have hlead : (a :: x).isPrefixOf (a :: (x ++ s)) = true :=
    List.isPrefixOf_iff_prefix.mpr ⟨s, rfl⟩
  rw [replaceAll, replaceWhere, List.cons_append, replaceFrom, hlead, Bool.and_true, if_pos rfl]
  exact congrArg (y ++ ·) (replaceFrom_skip _ x s)

/-- What no occurrence starts at stays. -/
theorem replaceAll_cons {a : α} {s : List α} (h : ¬ x <+: a :: s) :
    replaceAll x y (a :: s) = a :: replaceAll x y s := by
  have hlead : x.isPrefixOf (a :: s) = false := by
    rw [← Bool.not_eq_true, List.isPrefixOf_iff_prefix]
    exact h
  rw [replaceAll, replaceWhere, replaceFrom, hlead, Bool.false_and, if_neg Bool.false_ne_true]
  exact congrArg (a :: ·) (replaceFrom_before _ [] 0 s)

/-- Induction along the occurrences that are replaced. -/
theorem occurrence_induction (hx : x ≠ []) {motive : List α → Prop} (nil : motive [])
    (word : ∀ s, motive s → motive (x ++ s))
    (cons : ∀ a s, ¬ x <+: a :: s → motive s → motive (a :: s)) (s : List α) : motive s := by
  induction hn : s.length using Nat.strong_induction_on generalizing s with
  | _ n ih =>
    cases s with
    | nil => exact nil
    | cons a s =>
      by_cases h : x <+: a :: s
      · obtain ⟨rest, hrest⟩ := h
        have hpos := List.length_pos_of_ne_nil hx
        have hlen := congrArg List.length hrest
        rw [List.length_append] at hlen
        rw [← hrest]
        exact word rest (ih rest.length (by omega) rest rfl)
      · exact cons a s h (ih s.length (by rw [← hn, List.length_cons]; omega) s rfl)

/-- A text without the word is left as it is. -/
theorem replaceAll_of_not_isInfix {s : List α} (h : ¬ x <:+: s) : replaceAll x y s = s := by
  induction s with
  | nil => rfl
  | cons a s ih =>
    rw [List.infix_cons_iff, not_or] at h
    rw [replaceAll_cons h.1, ih h.2]

/-- The units of the new text are old, or of the replacement. -/
theorem mem_replaceAll (hx : x ≠ []) {s : List α} {u : α} (h : u ∈ replaceAll x y s) :
    u ∈ y ∨ u ∈ s := by
  induction s using occurrence_induction hx with
  | nil => exact Or.inr h
  | word s ih =>
    rw [replaceAll_word hx, List.mem_append] at h
    exact h.elim Or.inl fun h => (ih h).imp_right (List.mem_append_right x)
  | cons a s ha ih =>
    rw [replaceAll_cons ha, List.mem_cons] at h
    rcases h with rfl | h
    · exact Or.inr (List.mem_cons_self ..)
    · exact (ih h).imp_right (List.mem_cons_of_mem a)

/-- A unit of the replacement stays where it was. -/
theorem mem_replaceAll_of_mem (hx : x ≠ []) {s : List α} {u : α} (hy : u ∈ y) (h : u ∈ s) :
    u ∈ replaceAll x y s := by
  induction s using occurrence_induction hx with
  | nil => exact h
  | word s ih =>
    rw [replaceAll_word hx]
    exact List.mem_append_left _ hy
  | cons a s ha ih =>
    rw [replaceAll_cons ha]
    rcases List.mem_cons.mp h with rfl | h
    · exact List.mem_cons_self ..
    · exact List.mem_cons_of_mem a (ih h)

/-- Where the word is found, the replacement is put in. -/
theorem isInfix_replaceAll_of_isInfix (hx : x ≠ []) {s : List α} (h : x <:+: s) :
    y <:+: replaceAll x y s := by
  induction s using occurrence_induction hx with
  | nil => exact absurd (List.infix_nil.mp h) hx
  | word s ih =>
    rw [replaceAll_word hx]
    exact (List.prefix_append y _).isInfix
  | cons a s ha ih =>
    rw [replaceAll_cons ha]
    exact List.infix_cons (ih ((List.infix_cons_iff.mp h).resolve_left ha))

/-- Two texts are replaced apart where the word does not run over their seam. -/
theorem replaceAll_append (hx : x ≠ []) {a b : List α} (h : ¬ Straddles x a b) :
    replaceAll x y (a ++ b) = replaceAll x y a ++ replaceAll x y b := by
  revert h
  induction a using occurrence_induction hx with
  | nil => exact fun _ => rfl
  | word a ih =>
    intro h
    have hrest := ih fun hs => h (hs.mono (List.suffix_append x a) (List.prefix_refl b))
    rw [List.append_assoc, replaceAll_word hx, replaceAll_word hx, hrest, List.append_assoc]
  | cons u a hu ih =>
    intro h
    have hrest := ih fun hs => h (hs.mono (List.suffix_cons u a) (List.prefix_refl b))
    have hlead : ¬ x <+: u :: (a ++ b) := fun hlead =>
      (prefix_or_straddles (List.cons_ne_nil u a) hlead).elim hu h
    rw [List.cons_append, replaceAll_cons hlead, replaceAll_cons hu, hrest, List.cons_append]

/-- What starts the new text and is no part of a replacement started the old one. -/
theorem prefix_of_prefix_replaceAll (hx : x ≠ []) (hy : y ≠ []) {z s : List α}
    (hz : ∀ u ∈ z, u ∉ y) (h : z <+: replaceAll x y s) : z <+: s := by
  induction s using occurrence_induction hx generalizing z with
  | nil => exact h
  | word s ih =>
    obtain ⟨v, y, rfl⟩ := List.exists_cons_of_ne_nil hy
    rw [replaceAll_word hx, List.cons_append] at h
    cases z with
    | nil => exact List.nil_prefix
    | cons u z =>
      have heq := (List.cons_prefix_cons.mp h).1
      exact absurd (List.mem_cons.mpr (Or.inl heq)) (hz u (List.mem_cons_self ..))
  | cons a s ha ih =>
    rw [replaceAll_cons ha] at h
    cases z with
    | nil => exact List.nil_prefix
    | cons u z =>
      obtain ⟨heq, hrest⟩ := List.cons_prefix_cons.mp h
      have hz' := ih (fun v hv => hz v (List.mem_cons_of_mem u hv)) hrest
      exact List.cons_prefix_cons.mpr ⟨heq, hz'⟩

/-- What the new text has and is no part of a replacement the old one had. -/
theorem isInfix_of_isInfix_replaceAll (hx : x ≠ []) (hy : y ≠ []) {z s : List α}
    (hz : ∀ u ∈ z, u ∉ y) (h : z <:+: replaceAll x y s) : z <:+: s := by
  induction s using occurrence_induction hx with
  | nil => exact h
  | word s ih =>
    rw [replaceAll_word hx] at h
    exact (ih (isInfix_of_isInfix_append hz h)).trans (List.suffix_append x s).isInfix
  | cons a s ha ih =>
    rw [replaceAll_cons ha, List.infix_cons_iff, ← replaceAll_cons ha] at h
    rcases h with hlead | hin
    · exact (prefix_of_prefix_replaceAll hx hy hz hlead).isInfix
    · exact List.infix_cons (ih hin)

/-- The word is gone where the replacement has none of its units. -/
theorem not_isInfix_replaceAll (hx : x ≠ []) (hy : y ≠ []) (hxy : ∀ u ∈ x, u ∉ y) (s : List α) :
    ¬ x <:+: replaceAll x y s := by
  induction s using occurrence_induction hx with
  | nil => exact fun h => hx (List.infix_nil.mp h)
  | word s ih =>
    rw [replaceAll_word hx]
    exact fun h => ih (isInfix_of_isInfix_append hxy h)
  | cons a s ha ih =>
    rw [replaceAll_cons ha, List.infix_cons_iff, ← replaceAll_cons ha]
    rintro (hlead | hin)
    · exact ha (prefix_of_prefix_replaceAll hx hy hxy hlead)
    · exact ih hin

end ReplaceAll

end OpenWop.Replace
