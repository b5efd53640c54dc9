import Mathlib.Data.List.Pairwise
import Mathlib.Data.List.Perm.Basic
import Mathlib.Algebra.BigOperators.Group.List.Basic
import Mathlib.Algebra.Ring.Nat

/-!
# Interleavings of streams

Several writers append to one log. A log is an interleaving of their streams when
it takes, one after the other, the next element of some stream. It is a permutation
of all the elements, and it keeps the order of any elements that one stream owns.
-/

namespace OpenWop.Core

variable {α : Type}

/-- `log` takes every stream to its end, one head at a time. -/
inductive Interleaves : List (List α) → List α → Prop
  | done {streams : List (List α)} : (∀ s ∈ streams, s = []) → Interleaves streams []
  | take {before after : List (List α)} {x : α} {rest log : List α} :
      Interleaves (before ++ rest :: after) log →
      Interleaves (before ++ (x :: rest) :: after) (x :: log)

/-- Only one of the streams has elements that meet the predicate. -/
def OwnedBy (p : α → Bool) (streams : List (List α)) : Prop :=
  streams.Pairwise fun s t => (∀ x ∈ s, p x = false) ∨ ∀ x ∈ t, p x = false

namespace Interleaves

/-- One writer's log is its stream. -/
theorem single (stream : List α) : Interleaves [stream] stream := by
  induction stream with
  | nil => exact .done (by simp)
  | cons x stream ih => exact @take _ [] [] x stream stream ih

/-- An interleaving holds exactly the elements of the streams. -/
theorem perm {streams : List (List α)} {log : List α} (h : Interleaves streams log) :
    log.Perm streams.flatten := by
  induction h with
  | done hs => rw [List.flatten_eq_nil_iff.mpr hs]
  | @take before after x rest log _ ih =>
    rw [List.flatten_append, List.flatten_cons, List.cons_append]
    refine (ih.cons x).trans ?_
    rw [List.flatten_append, List.flatten_cons]
    exact List.perm_middle.symm

theorem mem_iff {streams : List (List α)} {log : List α} (h : Interleaves streams log) {x : α} :
    x ∈ log ↔ ∃ s ∈ streams, x ∈ s := by
  rw [h.perm.mem_iff, List.mem_flatten]

end Interleaves

theorem OwnedBy.tail {p : α → Bool} {before after : List (List α)} {x : α} {rest : List α}
    (h : OwnedBy p (before ++ (x :: rest) :: after)) : OwnedBy p (before ++ rest :: after) := by
  rw [OwnedBy, List.pairwise_append, List.pairwise_cons] at h ⊢
  obtain ⟨hb, ⟨hx, ha⟩, hc⟩ := h
  have shrink {q : Prop} : ((∀ y ∈ x :: rest, p y = false) ∨ q) →
      (∀ y ∈ rest, p y = false) ∨ q :=
    Or.imp_left fun hy y hm => hy y (List.mem_cons_of_mem _ hm)
  refine ⟨hb, ⟨fun t ht => shrink (hx t ht), ha⟩, fun s hs t ht => ?_⟩
  rcases List.mem_cons.mp ht with rfl | ht
  · exact (shrink (hc s hs _ (List.mem_cons_self ..)).symm).symm
  · exact hc s hs t (List.mem_cons_of_mem _ ht)

/-- The streams before the owner have nothing that meets the predicate. -/
theorem OwnedBy.filter_before {p : α → Bool} {before after : List (List α)} {x : α}
    {rest : List α} (h : OwnedBy p (before ++ (x :: rest) :: after)) (hx : p x = true) :
    before.flatten.filter p = [] := by
  rw [OwnedBy, List.pairwise_append] at h
  rw [List.filter_eq_nil_iff]
  intro y hy
  obtain ⟨s, hs, hys⟩ := List.mem_flatten.mp hy
  rcases h.2.2 s hs _ (List.mem_cons_self ..) with h | h
  · simp [h y hys]
  · simp [h x (List.mem_cons_self ..)] at hx

namespace Interleaves

/-- The elements one stream owns stand in the log as they stand in the stream. -/
theorem filter_eq {p : α → Bool} {streams : List (List α)} {log : List α}
    (h : Interleaves streams log) (hp : OwnedBy p streams) :
    log.filter p = streams.flatten.filter p := by
  induction h with
  | done hs => rw [List.flatten_eq_nil_iff.mpr hs]
  | @take before after x rest log _ ih =>
    have hr := ih hp.tail
    rw [List.flatten_append, List.flatten_cons, List.filter_append, List.filter_append] at hr ⊢
    cases hx : p x with
    | false => simpa [hx] using hr
    | true =>
      have hb := hp.filter_before hx
      simpa [hx, hb] using hr

end Interleaves

namespace OwnedBy

variable {p : α → Bool}

/-- Of the first stream and the others, one side has nothing that meets the predicate. -/
theorem head_or_rest {s : List α} {rest : List (List α)} (h : OwnedBy p (s :: rest)) :
    s.filter p = [] ∨ rest.flatten.filter p = [] := by
  rw [OwnedBy, List.pairwise_cons] at h
  by_cases hs : s.filter p = []
  · exact Or.inl hs
  · right
    obtain ⟨x, hx⟩ := List.exists_mem_of_ne_nil _ hs
    rw [List.mem_filter] at hx
    rw [List.filter_eq_nil_iff]
    intro y hy
    obtain ⟨t, ht, hyt⟩ := List.mem_flatten.mp hy
    rcases h.1 t ht with h | h
    · simp [h x hx.1] at hx
    · simp [h y hyt]

/-- A quantity of the owned elements is summed over the streams without double counting. -/
theorem sum_eq {streams : List (List α)} (h : OwnedBy p streams) {v : List α → Nat}
    (hv : v [] = 0) : (streams.map fun s => v (s.filter p)).sum = v (streams.flatten.filter p) := by
  induction streams with
  | nil => simp [hv]
  | cons s rest ih =>
    have hr := ih (List.Pairwise.of_cons h)
    rw [List.flatten_cons, List.filter_append, List.map_cons, List.sum_cons, hr]
    rcases h.head_or_rest with he | he
    · simp [he, hv]
    · simp [he, hv]

end OwnedBy

end OpenWop.Core
