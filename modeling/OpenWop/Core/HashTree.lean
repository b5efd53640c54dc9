import Mathlib.Data.Set.Function

/-!
# Hash trees by levels

A level is combined pairwise into the next one, an odd last node going up
unchanged, until one node is left. Without domain separation the root fixes the
leaves of a given count: it is enough that the combination does not collide on the
pairs that are in fact combined.
-/

namespace OpenWop.HashTree

variable {α : Type*} (combine : α → α → α)

section Levels

/-- The pairs a level combines. -/
def levelPairs : List α → List (α × α)
  | a :: b :: rest => (a, b) :: levelPairs rest
  | _ => []

/-- The next level. -/
def nextLevel : List α → List α
  | a :: b :: rest => combine a b :: nextLevel rest
  | level => level

@[simp] theorem nextLevel_nil : nextLevel combine [] = [] := rfl

@[simp] theorem nextLevel_singleton (a : α) : nextLevel combine [a] = [a] := rfl

@[simp] theorem nextLevel_cons_cons (a b : α) (rest : List α) :
    nextLevel combine (a :: b :: rest) = combine a b :: nextLevel combine rest := rfl

@[simp] theorem length_nextLevel (level : List α) :
    (nextLevel combine level).length = (level.length + 1) / 2 := by
  fun_induction nextLevel combine level with
  | case1 a b rest ih =>
    simp only [List.length_cons, ih]
    omega
  | case2 level h =>
    match level, h with
    | [], _ => simp
    | [_], _ => simp
    | a :: b :: rest, h => exact absurd rfl (h a b rest)

/-- Both members of a combined pair are nodes of the level. -/
theorem mem_of_mem_levelPairs {level : List α} {p : α × α} (h : p ∈ levelPairs level) :
    p.1 ∈ level ∧ p.2 ∈ level := by
  fun_induction levelPairs level with
  | case1 a b rest ih =>
    obtain rfl | h := List.mem_cons.mp h
    · simp
    · have hr := ih h
      simp [hr]
  | case2 => cases h

/-- What holds of the nodes of a level and is kept by combining holds of the next level. -/
theorem forall_mem_nextLevel {P : α → Prop} {level : List α}
    (hcombine : ∀ a b, P a → P b → P (combine a b)) (h : ∀ a ∈ level, P a) :
    ∀ a ∈ nextLevel combine level, P a := by
  fun_induction nextLevel combine level with
  | case1 a b rest ih =>
    simp only [List.mem_cons, forall_eq_or_imp] at h
    rw [List.forall_mem_cons]
    exact ⟨hcombine a b h.1 h.2.1, ih h.2.2⟩
  | case2 => exact h

/-- Combining a level is injective among levels of one length where no two pairs collide. -/
theorem nextLevel_inj {level level' : List α} (hlen : level.length = level'.length)
    (hinj : ∀ p ∈ levelPairs level, ∀ q ∈ levelPairs level',
      combine p.1 p.2 = combine q.1 q.2 → p = q)
    (h : nextLevel combine level = nextLevel combine level') : level = level' := by
  fun_induction levelPairs level generalizing level' with
  | case1 a b rest ih =>
    match level', hlen with
    | a' :: b' :: rest', hlen =>
      simp only [nextLevel_cons_cons, List.cons.injEq] at h
      simp only [List.length_cons, Nat.add_right_cancel_iff] at hlen
      have hhead := hinj (a, b) (List.mem_cons_self ..) (a', b') (List.mem_cons_self ..) h.1
      have hrest : rest = rest' := by
        apply ih hlen _ h.2
        intro p hp q hq
        exact hinj p (List.mem_cons_of_mem _ hp) q (List.mem_cons_of_mem _ hq)
      obtain ⟨rfl, rfl⟩ := Prod.mk.inj hhead
      rw [hrest]
  | case2 level hshort =>
    match level, level', hlen, hshort with
    | [], [], _, _ => rfl
    | [_], [_], _, _ => exact h
    | a :: b :: rest, _, _, hshort => exact absurd rfl (hshort a b rest)

end Levels

section Collapse

/-- The levels combined until one node is left. -/
def collapse (level : List α) : List α :=
  if 1 < level.length then collapse (nextLevel combine level) else level
termination_by level.length
decreasing_by
  rw [length_nextLevel]
  omega

/-- All the pairs combined on the way. -/
def combinedPairs (level : List α) : List (α × α) :=
  if 1 < level.length then levelPairs level ++ combinedPairs (nextLevel combine level) else []
termination_by level.length
decreasing_by
  rw [length_nextLevel]
  omega

theorem collapse_of_one_lt {level : List α} (h : 1 < level.length) :
    collapse combine level = collapse combine (nextLevel combine level) := by
  rw [collapse, if_pos h]

theorem combinedPairs_of_one_lt {level : List α} (h : 1 < level.length) :
    combinedPairs combine level =
      levelPairs level ++ combinedPairs combine (nextLevel combine level) := by
  rw [combinedPairs, if_pos h]

/-- One node is left of a level that has some. -/
theorem length_collapse {level : List α} (h : level ≠ []) :
    (collapse combine level).length = 1 := by
  fun_induction collapse combine level with
  | case1 level hlong ih =>
    apply ih
    rw [ne_eq, ← List.length_eq_zero_iff, length_nextLevel]
    omega
  | case2 level hshort =>
    have hpos := List.length_pos_iff.mpr h
    omega

theorem collapse_ne_nil {level : List α} (h : level ≠ []) : collapse combine level ≠ [] := by
  rw [← List.length_pos_iff, length_collapse combine h]
  exact Nat.one_pos

/-- What holds of the leaves and is kept by combining holds of every node. -/
theorem forall_mem_collapse {P : α → Prop} {level : List α}
    (hcombine : ∀ a b, P a → P b → P (combine a b)) (h : ∀ a ∈ level, P a) :
    ∀ a ∈ collapse combine level, P a := by
  fun_induction collapse combine level with
  | case1 level hlong ih => exact ih (forall_mem_nextLevel combine hcombine h)
  | case2 => exact h

/-- What holds of the leaves and is kept by combining holds of all that is combined. -/
theorem forall_mem_combinedPairs {P : α → Prop} {level : List α}
    (hcombine : ∀ a b, P a → P b → P (combine a b)) (h : ∀ a ∈ level, P a) :
    ∀ p ∈ combinedPairs combine level, P p.1 ∧ P p.2 := by
  fun_induction combinedPairs combine level with
  | case1 level hlong ih =>
    intro p hp
    obtain hp | hp := List.mem_append.mp hp
    · have hm := mem_of_mem_levelPairs hp
      exact ⟨h _ hm.1, h _ hm.2⟩
    · exact ih (forall_mem_nextLevel combine hcombine h) p hp
  | case2 => simp

/-- The root fixes the leaves among lists of one length whose combined pairs do not collide. -/
theorem collapse_inj {level level' : List α} (hlen : level.length = level'.length)
    (hinj : ∀ p ∈ combinedPairs combine level, ∀ q ∈ combinedPairs combine level',
      combine p.1 p.2 = combine q.1 q.2 → p = q)
    (h : collapse combine level = collapse combine level') : level = level' := by
  fun_induction collapse combine level generalizing level' with
  | case1 level hlong ih =>
    have hlong' : 1 < level'.length := hlen ▸ hlong
    rw [combinedPairs_of_one_lt combine hlong, combinedPairs_of_one_lt combine hlong'] at hinj
    rw [collapse_of_one_lt combine hlong'] at h
    apply nextLevel_inj combine hlen
    · intro p hp q hq
      exact hinj p (List.mem_append_left _ hp) q (List.mem_append_left _ hq)
    · apply ih _ _ h
      · rw [length_nextLevel, length_nextLevel, hlen]
      · intro p hp q hq
        exact hinj p (List.mem_append_right _ hp) q (List.mem_append_right _ hq)
  | case2 level hshort =>
    rwa [collapse, if_neg (hlen ▸ hshort)] at h

end Collapse

end OpenWop.HashTree
