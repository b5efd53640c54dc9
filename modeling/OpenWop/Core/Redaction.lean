import OpenWop.Core.Replace

/-!
# Redaction of a text

Words are taken out of a text one after the other, and every one leaves a mark. A marked text keeps
what is left of the text apart from what has been put in: a word is cut from what is left, and is
replaced within a mark. Written out as text the two are one, and a word may be found over their
seam. Where that does not happen, replacing the words in the text one after the other writes out
the marked text, and a word that is left is in a mark.
-/

namespace OpenWop.Redaction

open OpenWop.Replace

variable {α : Type}

section Marked

/-- A text with parts put in: what is left of it, and the marks. -/
abbrev Marked (α : Type) := List (α ⊕ List α)

/-- A text with nothing put in. -/
def plain (s : List α) : Marked α := s.map Sum.inl

/-- The text as it is written out. -/
def write (w : Marked α) : List α := w.flatMap (Sum.elim (fun u => [u]) id)

@[simp] theorem write_append (w v : Marked α) : write (w ++ v) = write w ++ write v :=
  List.flatMap_append

@[simp] theorem write_mark (r : List α) (w : Marked α) :
    write (Sum.inr r :: w) = r ++ write w := rfl

@[simp] theorem write_unit (u : α) (w : Marked α) : write (Sum.inl u :: w) = u :: write w := rfl

@[simp] theorem write_plain (s : List α) : write (plain s) = s := by
  induction s with
  | nil => rfl
  | cons u s ih => exact congrArg (u :: ·) ih

/-- Induction along the marks. -/
theorem marked_induction {motive : Marked α → Prop} (text : ∀ s, motive (plain s))
    (mark : ∀ s r w, motive w → motive (plain s ++ Sum.inr r :: w)) (w : Marked α) : motive w := by
  suffices ∀ s, motive (plain s ++ w) from this []
  induction w with
  | nil =>
    intro s
    rw [List.append_nil]
    exact text s
  | cons part w ih =>
    intro s
    cases part with
    | inl u =>
      have hnext := ih (s ++ [u])
      rwa [plain, List.map_append, List.append_assoc] at hnext
    | inr r => exact mark s r w (ih [])

/-- A mark written out is part of the text. -/
theorem isInfix_write_of_mem {w : Marked α} {r : List α} (h : Sum.inr r ∈ w) : r <:+: write w := by
  obtain ⟨w, v, rfl⟩ := List.append_of_mem h
  rw [write_append, write_mark]
  exact List.infix_append' _ _ _

theorem plain_ne_nil {x : List α} (hx : x ≠ []) : plain x ≠ [] := mt List.map_eq_nil_iff.mp hx

theorem mark_not_mem_plain {x r : List α} : Sum.inr r ∉ plain x := by
  rw [plain, List.mem_map]
  rintro ⟨_, _, heq⟩
  cases heq

theorem plain_isPrefix_plain {x s : List α} : plain x <+: plain s ↔ x <+: s := by
  rw [plain, plain, List.prefix_map_iff]
  constructor
  · rintro ⟨l, hl, heq⟩
    have hxl : x = l := List.map_injective_iff.mpr (fun _ _ => Sum.inl.inj) heq
    rwa [hxl]
  · exact fun h => ⟨x, h, rfl⟩

/-- No text starts at a mark. -/
theorem not_plain_isPrefix_mark {x r : List α} (hx : x ≠ []) (w : Marked α) :
    ¬ plain x <+: Sum.inr r :: w := by
  obtain ⟨u, x, rfl⟩ := List.exists_cons_of_ne_nil hx
  intro h
  cases (List.cons_prefix_cons.mp h).1

/-- No text runs into a mark. -/
theorem not_straddles_mark (x r : List α) (w v : Marked α) :
    ¬ Straddles (plain x) w (Sum.inr r :: v) := by
  rintro ⟨p, q, _, hq, heq, _, hqv⟩
  obtain ⟨part, q, rfl⟩ := List.exists_cons_of_ne_nil hq
  obtain ⟨rfl, -⟩ := List.cons_prefix_cons.mp hqv
  exact mark_not_mem_plain (x := x) (heq ▸ List.mem_append_right p (List.mem_cons_self ..))

end Marked

section Cutting

variable [DecidableEq α] (mark : List α → List α)

/-- Replace the words one after the other. -/
def replaceEach (xs : List (List α)) (s : List α) : List α :=
  xs.foldl (fun s x => replaceAll x (mark x) s) s

/-- Replace the word within every mark, and cut it from what is left of the text. -/
def cutWord (x : List α) (w : Marked α) : Marked α :=
  replaceAll (plain x) [Sum.inr (mark x)] (w.map (Sum.map id (replaceAll x (mark x))))

/-- Cut the words one after the other. -/
def cutOut (xs : List (List α)) (w : Marked α) : Marked α :=
  xs.foldl (fun w x => cutWord mark x w) w

/-- The word runs over a seam between a mark and what is beside it. -/
def Across (x : List α) (w : Marked α) : Prop :=
  ∃ front r back, w = front ++ Sum.inr r :: back ∧
    (Straddles x (write front) (r ++ write back) ∨ Straddles x (write front ++ r) (write back))

/-- No word runs over a seam when its turn comes. -/
def TurnsClear (xs : List (List α)) (s : List α) : Prop :=
  ∀ done x rest, xs = done ++ x :: rest → ¬ Across x (cutOut mark done (plain s))

/-- No word runs over a seam at its turn or after the last turn, and none is in a mark. -/
structure Clear (xs : List (List α)) (s : List α) : Prop where
  atTurn : TurnsClear mark xs s
  across : ∀ x ∈ xs, ¬ Across x (cutOut mark xs (plain s))
  inside : ∀ x ∈ xs, ∀ r, Sum.inr r ∈ cutOut mark xs (plain s) → ¬ x <:+: r

variable {mark}

@[simp] theorem replaceEach_nil (s : List α) : replaceEach mark [] s = s := rfl

@[simp] theorem replaceEach_cons (x : List α) (xs : List (List α)) (s : List α) :
    replaceEach mark (x :: xs) s = replaceEach mark xs (replaceAll x (mark x) s) := rfl

@[simp] theorem cutOut_nil (w : Marked α) : cutOut mark [] w = w := rfl

@[simp] theorem cutOut_cons (x : List α) (xs : List (List α)) (w : Marked α) :
    cutOut mark (x :: xs) w = cutOut mark xs (cutWord mark x w) := rfl

/-- A text without the words is left as it is. -/
theorem replaceEach_of_free {xs : List (List α)} {s : List α} (h : ∀ x ∈ xs, ¬ x <:+: s) :
    replaceEach mark xs s = s := by
  induction xs with
  | nil => rfl
  | cons x xs ih =>
    rw [replaceEach_cons, replaceAll_of_not_isInfix (h x (List.mem_cons_self ..))]
    exact ih fun y hy => h y (List.mem_cons_of_mem x hy)

/-- A unit that all marks have stays in the text. -/
theorem mem_replaceEach_of_mem {xs : List (List α)} (hxs : ∀ x ∈ xs, x ≠ []) {c : α}
    (hc : ∀ x ∈ xs, c ∈ mark x) {s : List α} (h : c ∈ s) : c ∈ replaceEach mark xs s := by
  induction xs generalizing s with
  | nil => exact h
  | cons x xs ih =>
    have hmem := List.mem_cons_self (a := x) (l := xs)
    exact ih (fun y hy => hxs y (List.mem_cons_of_mem x hy))
      (fun y hy => hc y (List.mem_cons_of_mem x hy))
      (mem_replaceAll_of_mem (hxs x hmem) (hc x hmem) h)

/-- A text with one of the words gets it. -/
theorem mem_replaceEach_of_isInfix {xs : List (List α)} (hxs : ∀ x ∈ xs, x ≠ []) {c : α}
    (hc : ∀ x ∈ xs, c ∈ mark x) {s x : List α} (hx : x ∈ xs) (h : x <:+: s) :
    c ∈ replaceEach mark xs s := by
  induction xs generalizing s with
  | nil => cases hx
  | cons y xs ih =>
    have hmem := List.mem_cons_self (a := y) (l := xs)
    have hxs' : ∀ z ∈ xs, z ≠ [] := fun z hz => hxs z (List.mem_cons_of_mem y hz)
    have hc' : ∀ z ∈ xs, c ∈ mark z := fun z hz => hc z (List.mem_cons_of_mem y hz)
    rw [replaceEach_cons]
    by_cases hy : y <:+: s
    · have hput := isInfix_replaceAll_of_isInfix (y := mark y) (hxs y hmem) hy
      exact mem_replaceEach_of_mem hxs' hc' (hput.subset (hc y hmem))
    · rw [replaceAll_of_not_isInfix hy]
      rcases List.mem_cons.mp hx with rfl | hx
      · exact absurd h hy
      · exact ih hxs' hc' hx h

theorem cutOut_append (xs ys : List (List α)) (w : Marked α) :
    cutOut mark (xs ++ ys) w = cutOut mark ys (cutOut mark xs w) := List.foldl_append

/-- Cutting from plain text leaves its marks where the word was. -/
theorem write_replaceAll_plain {x : List α} (hx : x ≠ []) (y s : List α) :
    write (replaceAll (plain x) [Sum.inr y] (plain s)) = replaceAll x y s := by
  induction s using occurrence_induction hx with
  | nil => rfl
  | word s ih =>
    have hword : plain (x ++ s) = plain x ++ plain s := List.map_append
    rw [hword, replaceAll_word (plain_ne_nil hx), replaceAll_word hx, List.singleton_append,
      write_mark, ih]
  | cons a s ha ih =>
    have hcons : plain (a :: s) = Sum.inl a :: plain s := rfl
    have hlead : ¬ plain x <+: Sum.inl a :: plain s := by
      rwa [← hcons, plain_isPrefix_plain]
    rw [hcons, replaceAll_cons hlead, replaceAll_cons ha, write_unit, ih]

theorem cutWord_plain (x s : List α) :
    cutWord mark x (plain s) = replaceAll (plain x) [Sum.inr (mark x)] (plain s) := by
  rw [cutWord, plain, plain, List.map_map]
  rfl

/-- A mark parts what is cut before it from what is cut after it. -/
theorem cutWord_mark {x : List α} (hx : x ≠ []) (w : Marked α) (r : List α) (v : Marked α) :
    cutWord mark x (w ++ Sum.inr r :: v) =
      cutWord mark x w ++ Sum.inr (replaceAll x (mark x) r) :: cutWord mark x v := by
  have hseam := not_straddles_mark x (replaceAll x (mark x) r)
    (w.map (Sum.map id (replaceAll x (mark x)))) (v.map (Sum.map id (replaceAll x (mark x))))
  rw [cutWord, List.map_append, List.map_cons, Sum.map_inr,
    replaceAll_append (plain_ne_nil hx) hseam, replaceAll_cons (not_plain_isPrefix_mark hx _)]
  rfl

omit [DecidableEq α] in
/-- A word over a seam is found in the written text. -/
theorem Across.isInfix {x : List α} {w : Marked α} (h : Across x w) : x <:+: write w := by
  obtain ⟨front, r, back, rfl, hs | hs⟩ := h
  · rw [write_append, write_mark]
    exact List.infix_append_iff_ne_nil.mpr (Or.inr (Or.inr hs))
  · rw [write_append, write_mark, ← List.append_assoc]
    exact List.infix_append_iff_ne_nil.mpr (Or.inr (Or.inr hs))

omit [DecidableEq α] in
theorem Across.append {x : List α} {w : Marked α} (h : Across x w) (v : Marked α) :
    Across x (v ++ w) := by
  obtain ⟨front, r, back, rfl, hs⟩ := h
  refine ⟨v ++ front, r, back, (List.append_assoc ..).symm, hs.imp ?_ ?_⟩
  · intro hs
    rw [write_append]
    exact hs.mono (List.suffix_append ..) (List.prefix_refl _)
  · intro hs
    rw [write_append, List.append_assoc]
    exact hs.mono (List.suffix_append ..) (List.prefix_refl _)

/-- Where the word runs over no seam, replacing it in the written text writes the text it is cut
from. -/
theorem write_cutWord {x : List α} (hx : x ≠ []) {w : Marked α} (h : ¬ Across x w) :
    write (cutWord mark x w) = replaceAll x (mark x) (write w) := by
  induction w using marked_induction with
  | text s => rw [cutWord_plain, write_replaceAll_plain hx, write_plain]
  | mark s r w ih =>
    have hleft : ¬ Straddles x s (r ++ write w) := fun hs =>
      h ⟨plain s, r, w, rfl, Or.inl (by rwa [write_plain])⟩
    have hright : ¬ Straddles x r (write w) := fun hs =>
      h ⟨plain s, r, w, rfl, Or.inr (hs.mono (List.suffix_append ..) (List.prefix_refl _))⟩
    have hrest : ¬ Across x w := fun hs => h ((hs.append [Sum.inr r]).append (plain s))
    rw [cutWord_mark hx, write_append, write_mark, cutWord_plain, write_replaceAll_plain hx,
      ih hrest, write_append, write_mark, write_plain, replaceAll_append hx hleft,
      replaceAll_append hx hright]

/-- Where no word runs over a seam at its turn, replacing the words writes the marked text. -/
theorem write_cutOut {xs : List (List α)} (hxs : ∀ x ∈ xs, x ≠ []) {w : Marked α}
    (h : ∀ done x rest, xs = done ++ x :: rest → ¬ Across x (cutOut mark done w)) :
    write (cutOut mark xs w) = replaceEach mark xs (write w) := by
  induction xs generalizing w with
  | nil => rfl
  | cons x xs ih =>
    have hx := hxs x (List.mem_cons_self ..)
    have hrest : ∀ done x' rest, xs = done ++ x' :: rest →
        ¬ Across x' (cutOut mark done (cutWord mark x w)) := fun done x' rest heq =>
      h (x :: done) x' rest (by rw [heq, List.cons_append])
    have hfirst : ¬ Across x w := h [] x xs rfl
    rw [cutOut_cons, replaceEach_cons, ih (fun x' hx' => hxs x' (List.mem_cons_of_mem x hx')) hrest,
      write_cutWord hx hfirst]

end Cutting

section Left

theorem plain_eq_of_eq_map {x : List α} {f : List α → List α} {w : Marked α}
    (h : plain x = w.map (Sum.map id f)) : plain x = w := by
  induction x generalizing w with
  | nil => rw [List.map_eq_nil_iff.mp h.symm]; rfl
  | cons u x ih =>
    cases w with
    | nil => cases h
    | cons part w =>
      obtain ⟨hpart, hrest⟩ := List.cons_eq_cons.mp h
      cases part with
      | inl v => exact List.cons_eq_cons.mpr ⟨hpart, ih hrest⟩
      | inr r => cases hpart

theorem plain_isInfix_of_map {x : List α} {f : List α → List α} {w : Marked α}
    (h : plain x <:+: w.map (Sum.map id f)) : plain x <:+: w := by
  obtain ⟨l, hl, heq⟩ := List.infix_map_iff.mp h
  rwa [plain_eq_of_eq_map heq]

/-- What is found in the written text is left of it, is in a mark, or runs over a seam. -/
theorem isInfix_write {x : List α} {w : Marked α} (h : x <:+: write w) :
    plain x <:+: w ∨ (∃ r, Sum.inr r ∈ w ∧ x <:+: r) ∨ Across x w := by
  induction w using marked_induction with
  | text s =>
    rw [write_plain] at h
    exact Or.inl (h.map Sum.inl)
  | mark s r w ih =>
    rw [write_append, write_mark, write_plain] at h
    rcases List.infix_append_iff_ne_nil.mp h with hs | hmark | hseam
    · exact Or.inl ((hs.map Sum.inl).trans (List.prefix_append ..).isInfix)
    · rcases List.infix_append_iff_ne_nil.mp hmark with hr | hw | hseam
      · exact Or.inr (Or.inl ⟨r, List.mem_append_right _ (List.mem_cons_self ..), hr⟩)
      · rcases ih hw with hplain | ⟨r', hr', hin⟩ | hacross
        · exact Or.inl (hplain.trans ⟨plain s ++ [Sum.inr r], [], by simp⟩)
        · refine Or.inr (Or.inl ⟨r', ?_, hin⟩)
          exact List.mem_append_right _ (List.mem_cons_of_mem _ hr')
        · exact Or.inr (Or.inr ((hacross.append [Sum.inr r]).append (plain s)))
      · have hs : Straddles x r (write w) := hseam
        refine Or.inr (Or.inr ⟨plain s, r, w, rfl, Or.inr ?_⟩)
        exact hs.mono (List.suffix_append ..) (List.prefix_refl _)
    · refine Or.inr (Or.inr ⟨plain s, r, w, rfl, Or.inl ?_⟩)
      rw [write_plain]
      exact hseam

variable [DecidableEq α] {mark : List α → List α}

/-- A word that is cut is not left in the text. -/
theorem not_plain_isInfix_cutWord {x : List α} (hx : x ≠ []) (w : Marked α) :
    ¬ plain x <:+: cutWord mark x w := by
  refine not_isInfix_replaceAll (plain_ne_nil hx) (List.cons_ne_nil _ _) (fun part hpart heq => ?_) _
  rw [List.mem_singleton.mp heq] at hpart
  exact mark_not_mem_plain hpart

/-- Cutting another word leaves nothing new in the text. -/
theorem plain_isInfix_of_cutWord {x z : List α} (hx : x ≠ []) {w : Marked α}
    (h : plain z <:+: cutWord mark x w) : plain z <:+: w := by
  refine plain_isInfix_of_map
    (isInfix_of_isInfix_replaceAll (plain_ne_nil hx) (List.cons_ne_nil _ _) (fun part hpart heq => ?_) h)
  rw [List.mem_singleton.mp heq] at hpart
  exact mark_not_mem_plain hpart

theorem plain_isInfix_of_cutOut {xs : List (List α)} (hxs : ∀ x ∈ xs, x ≠ []) {z : List α}
    {w : Marked α} (h : plain z <:+: cutOut mark xs w) : plain z <:+: w := by
  induction xs generalizing w with
  | nil => exact h
  | cons x xs ih =>
    have hrest := ih (fun x' hx' => hxs x' (List.mem_cons_of_mem x hx')) h
    exact plain_isInfix_of_cutWord (hxs x (List.mem_cons_self ..)) hrest

/-- No word that has been cut is left in the text. -/
theorem not_plain_isInfix_cutOut {xs : List (List α)} (hxs : ∀ x ∈ xs, x ≠ []) {x : List α}
    (hx : x ∈ xs) (w : Marked α) : ¬ plain x <:+: cutOut mark xs w := by
  obtain ⟨done, rest, rfl⟩ := List.append_of_mem hx
  rw [cutOut_append, cutOut_cons]
  intro h
  refine not_plain_isInfix_cutWord (hxs x hx) _ (plain_isInfix_of_cutOut (fun x' hx' => ?_) h)
  exact hxs x' (List.mem_append_right done (List.mem_cons_of_mem x hx'))

/-- In a clear redaction none of the words is found. -/
theorem Clear.not_isInfix {xs : List (List α)} {s : List α} (h : Clear mark xs s)
    (hxs : ∀ x ∈ xs, x ≠ []) {x : List α} (hx : x ∈ xs) : ¬ x <:+: replaceEach mark xs s := by
  have hwrite := write_cutOut hxs h.atTurn
  rw [write_plain] at hwrite
  rw [← hwrite]
  intro hin
  rcases isInfix_write hin with hplain | ⟨r, hr, hin⟩ | hacross
  · exact not_plain_isInfix_cutOut hxs hx _ hplain
  · exact h.inside x hx r hr hin
  · exact h.across x hx hacross

end Left

section Marks

variable [DecidableEq α] {mark : List α → List α}

/-- A mark is one that was put in, or what replacing the word leaves of one that was there. -/
theorem mark_mem_cutWord {x : List α} (hx : x ≠ []) {w : Marked α} {r : List α}
    (h : Sum.inr r ∈ cutWord mark x w) :
    r = mark x ∨ ∃ r', Sum.inr r' ∈ w ∧ r = replaceAll x (mark x) r' := by
  rcases mem_replaceAll (plain_ne_nil hx) h with hnew | hold
  · exact Or.inl (Sum.inr.inj (List.mem_singleton.mp hnew))
  · obtain ⟨part, hpart, heq⟩ := List.mem_map.mp hold
    cases part with
    | inl u => cases heq
    | inr r' => exact Or.inr ⟨r', hpart, (Sum.inr.inj heq).symm⟩

/-- What holds of every mark put in and stays when a word is replaced holds of all marks. -/
theorem forall_mark_cutOut {P : List α → Prop} {xs : List (List α)} (hxs : ∀ x ∈ xs, x ≠ [])
    (hmark : ∀ x ∈ xs, P (mark x)) (hstep : ∀ x ∈ xs, ∀ r, P r → P (replaceAll x (mark x) r))
    {w : Marked α} (hw : ∀ r, Sum.inr r ∈ w → P r) {r : List α}
    (h : Sum.inr r ∈ cutOut mark xs w) : P r := by
  induction xs generalizing w with
  | nil => exact hw r h
  | cons x xs ih =>
    have hmem := List.mem_cons_self (a := x) (l := xs)
    refine ih (fun y hy => hxs y (List.mem_cons_of_mem x hy))
      (fun y hy => hmark y (List.mem_cons_of_mem x hy))
      (fun y hy => hstep y (List.mem_cons_of_mem x hy)) (fun r hr => ?_) h
    rcases mark_mem_cutWord (hxs x hmem) hr with rfl | ⟨r', hr', rfl⟩
    · exact hmark x hmem
    · exact hstep x hmem r' (hw r' hr')

/-- The mark starts and ends with the given units. -/
def Fenced (a b : α) (r : List α) : Prop := ∃ inner, r = [a] ++ (inner ++ [b])

omit [DecidableEq α] in
theorem head_mem_of_isPrefix {a : α} {q r : List α} (hq : q ≠ []) (h : q <+: a :: r) : a ∈ q := by
  obtain ⟨u, q, rfl⟩ := List.exists_cons_of_ne_nil hq
  rw [(List.cons_prefix_cons.mp h).1]
  exact List.mem_cons_self ..

omit [DecidableEq α] in
theorem last_mem_of_isSuffix {b : α} {p r : List α} (hp : p ≠ []) (h : p <:+ r ++ [b]) :
    b ∈ p := by
  obtain ⟨t, ht⟩ := h
  have hlast := congrArg List.getLast? ht
  rw [List.getLast?_append_of_ne_nil t hp, List.getLast?_concat] at hlast
  exact List.mem_of_getLast? hlast

/-- Replacing a word without the fences keeps them. -/
theorem Fenced.replaceAll {a b : α} {r x y : List α} (h : Fenced a b r) (hx : x ≠ [])
    (ha : a ∉ x) (hb : b ∉ x) : Fenced a b (replaceAll x y r) := by
  obtain ⟨inner, rfl⟩ := h
  have hleft : ¬ Straddles x [a] (inner ++ [b]) := by
    rintro ⟨p, q, hp, _, rfl, hpa, _⟩
    exact ha (List.mem_append_left q (last_mem_of_isSuffix (r := []) hp hpa))
  have hright : ¬ Straddles x inner [b] := by
    rintro ⟨p, q, _, hq, rfl, _, hqb⟩
    exact hb (List.mem_append_right p (head_mem_of_isPrefix hq hqb))
  have hone : ∀ c, c ∉ x → Replace.replaceAll x y [c] = [c] := fun c hc =>
    replaceAll_of_not_isInfix fun hin =>
      have hmem := List.head_mem hx
      hc (List.mem_singleton.mp (hin.subset hmem) ▸ hmem)
  rw [replaceAll_append hx hleft, replaceAll_append hx hright, hone a ha, hone b hb]
  exact ⟨_, rfl⟩

omit [DecidableEq α] in
/-- A word without the fences runs over no seam. -/
theorem not_across_of_fenced {a b : α} {x : List α} (ha : a ∉ x) (hb : b ∉ x) {w : Marked α}
    (h : ∀ r, Sum.inr r ∈ w → Fenced a b r) : ¬ Across x w := by
  rintro ⟨front, r, back, rfl, hs⟩
  obtain ⟨inner, rfl⟩ := h r (List.mem_append_right front (List.mem_cons_self ..))
  rcases hs with ⟨p, q, _, hq, rfl, _, hqb⟩ | ⟨p, q, hp, _, rfl, hpa, _⟩
  · exact ha (List.mem_append_right p (head_mem_of_isPrefix hq hqb))
  · rw [← List.append_assoc, ← List.append_assoc] at hpa
    exact hb (List.mem_append_left q (last_mem_of_isSuffix hp hpa))

variable {a b : α} {xs : List (List α)} (hxs : ∀ x ∈ xs, x ≠ [])
  (hmark : ∀ x ∈ xs, Fenced a b (mark x)) (hfree : ∀ x ∈ xs, a ∉ x ∧ b ∉ x)

include hxs hmark hfree

/-- Fenced marks keep words without the fences to themselves. -/
theorem not_across_cutOut {done rest : List (List α)} (heq : xs = done ++ rest) {x : List α}
    (hx : x ∈ xs) (s : List α) : ¬ Across x (cutOut mark done (plain s)) := by
  have hsub : ∀ y ∈ done, y ∈ xs := fun y hy => heq ▸ List.mem_append_left rest hy
  refine not_across_of_fenced (a := a) (b := b) (hfree x hx).1 (hfree x hx).2 fun r hr => ?_
  exact forall_mark_cutOut (fun y hy => hxs y (hsub y hy)) (fun y hy => hmark y (hsub y hy))
    (fun y hy r hr => hr.replaceAll (hxs y (hsub y hy)) (hfree y (hsub y hy)).1
      (hfree y (hsub y hy)).2) (fun r hr => absurd hr mark_not_mem_plain) hr

theorem turnsClear_of_fenced (s : List α) : TurnsClear mark xs s := fun _ _ _ heq =>
  not_across_cutOut hxs hmark hfree heq
    (heq ▸ List.mem_append_right _ (List.mem_cons_self ..)) s

/-- Where no word is in a mark either, every redaction is clear. -/
theorem clear_of_no_word_in_mark (h : ∀ x ∈ xs, ∀ y ∈ xs, ¬ x <:+: mark y) (s : List α) :
    Clear mark xs s := by
  refine ⟨turnsClear_of_fenced hxs hmark hfree s, fun x hx => ?_, fun x hx r hr => ?_⟩
  · exact not_across_cutOut hxs hmark hfree (List.append_nil xs).symm hx s
  have hmarks : ∃ y ∈ xs, r = mark y := by
    refine forall_mark_cutOut (P := fun r => ∃ y ∈ xs, r = mark y) hxs
      (fun y hy => ⟨y, hy, rfl⟩) ?_ (fun r hr => absurd hr mark_not_mem_plain) hr
    rintro z hz r ⟨y, hy, rfl⟩
    exact ⟨y, hy, replaceAll_of_not_isInfix (h z hz y hy)⟩
  obtain ⟨y, hy, rfl⟩ := hmarks
  exact h x hx y hy

end Marks

end OpenWop.Redaction
