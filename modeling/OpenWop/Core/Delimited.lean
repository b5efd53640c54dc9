import Mathlib.Data.List.TakeWhile
import Mathlib.Data.List.Infix

/-!
# Delimited texts

A serialization can be read back when the text of a value tells the value apart
whatever follows it, as long as that is empty or starts with a stop. Texts without
stops are read up to the first one, lists are read item by item between separators, and
strings of code words up to a unit no word starts with. Nothing here names a program.
-/

namespace OpenWop.Delimited

variable {α β : Type} {stop : β → Prop} {dom : α → Prop} {text : α → List β}

/-- The text is empty or starts with a stop. -/
def Stops (stop : β → Prop) (r : List β) : Prop := ∀ u ∈ r.head?, stop u

/-- The text of the value tells it from every value of the domain, up to a stop. -/
def Readable (stop : β → Prop) (dom : α → Prop) (text : α → List β) (a : α) : Prop :=
  ∀ b r r', dom b → Stops stop r → Stops stop r' → text a ++ r = text b ++ r' → a = b ∧ r = r'

theorem stops_nil : Stops stop [] := fun _ h => nomatch h

theorem stops_cons {u : β} {r : List β} (h : stop u) : Stops stop (u :: r) := by
  rintro v hv
  cases hv
  exact h

section Units

/-- Texts without stops end at the first stop. -/
theorem append_inj_of_stops {s t r r' : List β} (hs : ∀ u ∈ s, ¬ stop u) (ht : ∀ u ∈ t, ¬ stop u)
    (hr : Stops stop r) (hr' : Stops stop r') (h : s ++ r = t ++ r') : s = t ∧ r = r' := by
  induction s generalizing t with
  | nil =>
    cases t with
    | nil => exact ⟨rfl, h⟩
    | cons v t =>
      subst h
      exact absurd (hr v rfl) (ht v List.mem_cons_self)
  | cons u s ih =>
    cases t with
    | nil =>
      subst h
      exact absurd (hr' u rfl) (hs u List.mem_cons_self)
    | cons v t =>
      rw [List.forall_mem_cons] at hs ht
      obtain ⟨rfl, htail⟩ := List.cons.inj h
      obtain ⟨rfl, hrest⟩ := ih hs.2 ht.2 htail
      exact ⟨rfl, hrest⟩

/-- Injective texts without stops are readable. -/
theorem readable_of_units {a : α} (hunits : ∀ u ∈ text a, ¬ stop u)
    (hdom : ∀ b, dom b → ∀ u ∈ text b, ¬ stop u) (hinj : ∀ b, dom b → text a = text b → a = b) :
    Readable stop dom text a := by
  intro b r r' hb hr hr' h
  obtain ⟨ht, hrest⟩ := append_inj_of_stops hunits (hdom b hb) hr hr' h
  exact ⟨hinj b hb ht, hrest⟩

end Units

section Words

/-- A string of self-delimiting code words is read up to a unit no word starts with. -/
theorem flatMap_inj {code : α → List β} {q : β} {xs ys : List α} {r r' : List β}
    (hcode : ∀ a ∈ xs, ∀ b ∈ ys, ∀ s t, code a ++ s = code b ++ t → a = b ∧ s = t)
    (hxs : ∀ a ∈ xs, ∀ s, (code a ++ s).head? ≠ some q)
    (hys : ∀ b ∈ ys, ∀ s, (code b ++ s).head? ≠ some q)
    (h : xs.flatMap code ++ q :: r = ys.flatMap code ++ q :: r') : xs = ys ∧ r = r' := by
  induction xs generalizing ys with
  | nil =>
    cases ys with
    | nil => exact ⟨rfl, (List.cons.inj h).2⟩
    | cons b ys =>
      rw [List.flatMap_cons, List.append_assoc] at h
      exact absurd (congrArg List.head? h).symm (hys b List.mem_cons_self _)
  | cons a xs ih =>
    cases ys with
    | nil =>
      rw [List.flatMap_cons, List.append_assoc] at h
      exact absurd (congrArg List.head? h) (hxs a List.mem_cons_self _)
    | cons b ys =>
      rw [List.flatMap_cons, List.flatMap_cons, List.append_assoc, List.append_assoc] at h
      obtain ⟨rfl, hrest⟩ := hcode a List.mem_cons_self b List.mem_cons_self _ _ h
      obtain ⟨rfl, hr⟩ := ih (fun a ha b hb => hcode a (List.mem_cons_of_mem _ ha) b
        (List.mem_cons_of_mem _ hb)) (fun a ha => hxs a (List.mem_cons_of_mem _ ha))
        (fun b hb => hys b (List.mem_cons_of_mem _ hb)) hrest
      exact ⟨rfl, hr⟩

end Words

section Lists

/-- The parts with a separator between them. -/
def separated (separator : β) : List (List β) → List β
  | [] => []
  | [part] => part
  | part :: parts => part ++ separator :: separated separator parts

/-- A part and what is put after it. -/
theorem separated_cons (separator : β) (part : List β) (parts : List (List β)) :
    separated separator (part :: parts) =
      part ++ if parts = [] then [] else separator :: separated separator parts := by
  cases parts <;> simp [separated]

variable {separator close : β}

/-- A list is read item by item when its items are readable. -/
theorem separated_inj (hsep : stop separator) (hclose : stop close) (hne : separator ≠ close)
    (hhead : ∀ b, dom b → ∀ s, (text b ++ s).head? ≠ some close) {xs ys : List α} {r r' : List β}
    (hx : ∀ a ∈ xs, dom a ∧ Readable stop dom text a) (hy : ∀ b ∈ ys, dom b)
    (h : separated separator (xs.map text) ++ close :: r =
      separated separator (ys.map text) ++ close :: r') : xs = ys ∧ r = r' := by
  have hstops : ∀ (zs : List α) (s : List β), Stops stop
      ((if zs.map text = [] then [] else separator :: separated separator (zs.map text)) ++
        close :: s) := by
    intro zs s
    cases zs with
    | nil => exact stops_cons hclose
    | cons z zs => exact stops_cons hsep
  induction xs generalizing ys with
  | nil =>
    cases ys with
    | nil => exact ⟨rfl, (List.cons.inj h).2⟩
    | cons b ys =>
      rw [List.map_cons, separated_cons, List.append_assoc] at h
      exact absurd (congrArg List.head? h).symm (hhead b (hy b List.mem_cons_self) _)
  | cons a xs ih =>
    rw [List.forall_mem_cons] at hx
    cases ys with
    | nil =>
      rw [List.map_cons, separated_cons, List.append_assoc] at h
      exact absurd (congrArg List.head? h) (hhead a hx.1.1 _)
    | cons b ys =>
      rw [List.forall_mem_cons] at hy
      rw [List.map_cons, List.map_cons, separated_cons, separated_cons, List.append_assoc,
        List.append_assoc] at h
      obtain ⟨rfl, hrest⟩ := hx.1.2 b _ _ hy.1 (hstops xs r) (hstops ys r') h
      cases xs with
      | nil =>
        cases ys with
        | nil => exact ⟨rfl, (List.cons.inj hrest).2⟩
        | cons c ys => exact absurd (List.cons.inj hrest).1 (Ne.symm hne)
      | cons c xs =>
        cases ys with
        | nil => exact absurd (List.cons.inj hrest).1 hne
        | cons d ys =>
          obtain ⟨htail, hr⟩ := ih hx.2 hy.2 (List.cons.inj hrest).2
          exact ⟨congrArg (a :: ·) htail, hr⟩

end Lists

end OpenWop.Delimited
