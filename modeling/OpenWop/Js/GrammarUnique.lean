import OpenWop.Js.JsonEqual
import OpenWop.Js.ParseComplete

/-!
# The grammar is unambiguous

A text of the grammar, up to what can follow a value, has one tree: its first unit
tells the kind, numbers and strings are read by their readers, and the parts of arrays
and objects end at the delimiters.
-/

namespace OpenWop.Js

open Grammar

/-- The kind of a tree, as the kind of its value. -/
def JsonTree.kind : JsonTree → Nat
  | .null => 0
  | .bool _ => 1
  | .str _ => 2
  | .arr _ => 3
  | .obj _ => 4
  | .num _ => 5

/-- The tree of the text and what follows are determined. -/
def HasOneTree (t : JsonTree) : Prop := ∀ x, Value x t → ∀ x' t' r r', Value x' t' →
  Follows r → Follows r' → x ++ r = x' ++ r' → t = t' ∧ r = r'

section Leaves

theorem kindOfUnit_value {x : JsString} {t : JsonTree} (h : Value x t) (r : JsString) :
    (x ++ r).head?.bind Json.kindOfUnit = some t.kind := by
  cases h with
  | num hl =>
    obtain ⟨c, s, hx, hc⟩ := hl.exists_cons
    rw [hx]
    refine Json.kindOfUnit_of_isNumberUnit ?_
    rcases hc with rfl | hd
    · decide
    · exact isNumberUnit_of_isDigit hd
  | str hs =>
    obtain ⟨_⟩ := hs
    rfl
  | _ => rfl

theorem kind_eq_of_value {x x' r r' : JsString} {t t' : JsonTree} (h : Value x t)
    (h' : Value x' t') (he : x ++ r = x' ++ r') : t.kind = t'.kind := by
  have hk := kindOfUnit_value h r
  rw [he, kindOfUnit_value h' r'] at hk
  exact (Option.some.inj hk).symm

theorem str_unique {x x' s s' r r' : JsString} (h : Str x s) (h' : Str x' s')
    (he : x ++ r = x' ++ r') : s = s' ∧ r = r' := by
  obtain ⟨hx⟩ := h
  obtain ⟨hx'⟩ := h'
  simp only [List.cons_append, List.append_assoc, List.cons.injEq, true_and, List.nil_append] at he
  have hscan := scanString_complete hx 0 r
  rw [he, scanString_complete hx' 0 r'] at hscan
  cases hscan
  exact ⟨rfl, rfl⟩

theorem hasOneTree_num (l : NumberLiteral) : HasOneTree (.num l) := by
  intro x hx x' t' r r' hx' hr hr' he
  have hk := kind_eq_of_value hx hx' he
  cases hx with
  | num hl =>
    cases hx' with
    | num hl' =>
      have hmatch := matchNumber_complete hl hr
      rw [he, matchNumber_complete hl' hr'] at hmatch
      cases hmatch
      exact ⟨rfl, rfl⟩
    | _ => cases hk

theorem hasOneTree_str (s : JsString) : HasOneTree (.str s) := by
  intro x hx x' t' r r' hx' hr hr' he
  have hk := kind_eq_of_value hx hx' he
  cases hx with
  | str hs =>
    cases hx' with
    | str hs' =>
      obtain ⟨rfl, hrest⟩ := str_unique hs hs' he
      exact ⟨rfl, hrest⟩
    | _ => cases hk

end Leaves

section Parts

/-- A unit that ends an element. -/
def IsEnd (d : UInt16) : Prop := d = unit ',' ∨ d = unit ']' ∨ d = unit '\x7d'

theorem IsEnd.not_ws {d : UInt16} (h : IsEnd d) : isWs d = false := by
  rcases h with rfl | rfl | rfl <;> decide

/-- Whitespace before a unit that is none is skipped in one way. -/
theorem skip_unique {w w' s s' : JsString} (hw : Ws w) (hw' : Ws w')
    (hs : ∀ u ∈ s.head?, isWs u = false) (hs' : ∀ u ∈ s'.head?, isWs u = false)
    (he : w ++ s = w' ++ s') : s = s' := by
  rw [← skipWs_append hw hs, he, skipWs_append hw' hs']

theorem element_unique {t : JsonTree} (ih : HasOneTree t) {x x' s s' : JsString} {t' : JsonTree}
    {d d' : UInt16} (h : Element x t) (h' : Element x' t') (hd : IsEnd d) (hd' : IsEnd d')
    (he : x ++ d :: s = x' ++ d' :: s') : t = t' ∧ d = d' ∧ s = s' := by
  obtain ⟨hv, hy, hw⟩ := h
  obtain ⟨hv', hy', hw'⟩ := h'
  rename_i v w y v' w' y'
  have hfollows : Follows (w ++ d :: s) := Follows.ws hw (follows_cons (Or.inr hd))
  have hfollows' : Follows (w' ++ d' :: s') := Follows.ws hw' (follows_cons (Or.inr hd'))
  rw [List.append_assoc, List.append_assoc, List.append_assoc, List.append_assoc] at he
  have hvalue := skip_unique hv hv' (head_value_append hy _).1 (head_value_append hy' _).1 he
  obtain ⟨rfl, hrest⟩ := ih y hy y' t' _ _ hy' hfollows hfollows' hvalue
  have hend : d :: s = d' :: s' := skip_unique hw hw' (by rintro u ⟨⟩; exact hd.not_ws)
    (by rintro u ⟨⟩; exact hd'.not_ws) hrest
  exact ⟨rfl, (List.cons.inj hend).1, (List.cons.inj hend).2⟩

theorem elements_unique {ts ts' : List JsonTree} (ih : ∀ t ∈ ts, HasOneTree t) {x x' r r' : JsString}
    (h : Elements x ts) (h' : Elements x' ts') (he : x ++ unit ']' :: r = x' ++ unit ']' :: r') :
    ts = ts' ∧ r = r' := by
  have hcomma : IsEnd (unit ',') := Or.inl rfl
  have hclose : IsEnd (unit ']') := Or.inr (Or.inl rfl)
  induction ts generalizing x x' ts' with
  | nil => cases h
  | cons t ts ihts =>
    rw [List.forall_mem_cons] at ih
    cases h with
    | one h =>
      cases h' with
      | one h' =>
        obtain ⟨rfl, _, rfl⟩ := element_unique ih.1 h h' hclose hclose he
        exact ⟨rfl, rfl⟩
      | cons h' hs' =>
        rw [List.append_assoc, List.cons_append] at he
        obtain ⟨_, hd, _⟩ := element_unique ih.1 h h' hclose hcomma he
        exact absurd hd (by decide)
    | cons h hs =>
      rw [List.append_assoc, List.cons_append] at he
      cases h' with
      | one h' =>
        obtain ⟨_, hd, _⟩ := element_unique ih.1 h h' hcomma hclose he
        exact absurd hd (by decide)
      | cons h' hs' =>
        rw [List.append_assoc, List.cons_append] at he
        obtain ⟨rfl, _, hrest⟩ := element_unique ih.1 h h' hcomma hcomma he
        obtain ⟨rfl, hr⟩ := ihts ih.2 hs hs' hrest
        exact ⟨rfl, hr⟩

theorem member_unique {m m' : JsString × JsonTree} (ih : HasOneTree m.2) {x x' s s' : JsString}
    {d d' : UInt16} (h : Member x m) (h' : Member x' m') (hd : IsEnd d) (hd' : IsEnd d')
    (he : x ++ d :: s = x' ++ d' :: s') : m = m' ∧ d = d' ∧ s = s' := by
  have hhead : ∀ {y k : JsString} (r : JsString), Str y k → ∀ u ∈ (y ++ r).head?, isWs u = false := by
    rintro y k r ⟨_⟩ u ⟨⟩
    decide
  obtain ⟨hv, hk, hw, ht⟩ := h
  obtain ⟨hv', hk', hw', ht'⟩ := h'
  simp only [List.append_assoc, List.cons_append] at he
  have hname := skip_unique hv hv' (hhead _ hk) (hhead _ hk') he
  obtain ⟨rfl, hcolon⟩ := str_unique hk hk' hname
  have hvalue := skip_unique hw hw' (by rintro u ⟨⟩; decide) (by rintro u ⟨⟩; decide) hcolon
  obtain ⟨rfl, hrest⟩ := element_unique ih ht ht' hd hd' (List.cons.inj hvalue).2
  exact ⟨rfl, hrest⟩

theorem members_unique {ms ms' : List (JsString × JsonTree)} (ih : ∀ m ∈ ms, HasOneTree m.2)
    {x x' r r' : JsString} (h : Members x ms) (h' : Members x' ms')
    (he : x ++ unit '\x7d' :: r = x' ++ unit '\x7d' :: r') : ms = ms' ∧ r = r' := by
  have hcomma : IsEnd (unit ',') := Or.inl rfl
  have hclose : IsEnd (unit '\x7d') := Or.inr (Or.inr rfl)
  induction ms generalizing x x' ms' with
  | nil => cases h
  | cons m ms ihms =>
    rw [List.forall_mem_cons] at ih
    cases h with
    | one h =>
      cases h' with
      | one h' =>
        obtain ⟨rfl, _, rfl⟩ := member_unique ih.1 h h' hclose hclose he
        exact ⟨rfl, rfl⟩
      | cons h' hs' =>
        rw [List.append_assoc, List.cons_append] at he
        obtain ⟨_, hd, _⟩ := member_unique ih.1 h h' hclose hcomma he
        exact absurd hd (by decide)
    | cons h hs =>
      rw [List.append_assoc, List.cons_append] at he
      cases h' with
      | one h' =>
        obtain ⟨_, hd, _⟩ := member_unique ih.1 h h' hcomma hclose he
        exact absurd hd (by decide)
      | cons h' hs' =>
        rw [List.append_assoc, List.cons_append] at he
        obtain ⟨rfl, _, hrest⟩ := member_unique ih.1 h h' hcomma hcomma he
        obtain ⟨rfl, hr⟩ := ihms ih.2 hs hs' hrest
        exact ⟨rfl, hr⟩

end Parts

section Trees

/-- An empty array or object is not one with parts. -/
theorem not_skipped {w x y : JsString} {close : UInt16} {r r' : JsString} (hw : Ws w)
    (hclose : isWs close = false) (hx : Skipped x y close) :
    w ++ close :: r ≠ x ++ close :: r' := by
  intro he
  have hskip := skipWs_append (s := close :: r) hw (by rintro u ⟨⟩; exact hclose)
  rw [he, hx.skip] at hskip
  exact hx.head _ (congrArg List.head? hskip)

theorem hasOneTree_arr {ts : List JsonTree} (ih : ∀ t ∈ ts, HasOneTree t) : HasOneTree (.arr ts) := by
  intro x hx x' t' r r' hx' hr hr' he
  have hk := kind_eq_of_value hx hx' he
  cases t' with
  | arr ts' =>
    cases hx with
    | emptyArr hw =>
      cases hx' with
      | emptyArr hw' =>
        simp only [List.cons_append, List.append_assoc, List.nil_append] at he
        have hend : unit ']' :: r = unit ']' :: r' := skip_unique hw hw' (by rintro u ⟨⟩; decide)
          (by rintro u ⟨⟩; decide) (List.cons.inj he).2
        exact ⟨rfl, (List.cons.inj hend).2⟩
      | arr hs' =>
        obtain ⟨y, _, hy⟩ := elements_skip hs'
        simp only [List.cons_append, List.append_assoc, List.nil_append] at he
        exact absurd (List.cons.inj he).2 (not_skipped hw (by decide) hy)
    | arr hs =>
      cases hx' with
      | emptyArr hw' =>
        obtain ⟨y, _, hy⟩ := elements_skip hs
        simp only [List.cons_append, List.append_assoc, List.nil_append] at he
        exact absurd (List.cons.inj he).2.symm (not_skipped hw' (by decide) hy)
      | arr hs' =>
        simp only [List.cons_append, List.append_assoc, List.nil_append] at he
        obtain ⟨rfl, hrest⟩ := elements_unique ih hs hs' (List.cons.inj he).2
        exact ⟨rfl, hrest⟩
  | _ => cases hk

theorem hasOneTree_obj {ms : List (JsString × JsonTree)} (ih : ∀ m ∈ ms, HasOneTree m.2) :
    HasOneTree (.obj ms) := by
  intro x hx x' t' r r' hx' hr hr' he
  have hk := kind_eq_of_value hx hx' he
  cases t' with
  | obj ms' =>
    cases hx with
    | emptyObj hw =>
      cases hx' with
      | emptyObj hw' =>
        simp only [List.cons_append, List.append_assoc, List.nil_append] at he
        have hend : unit '\x7d' :: r = unit '\x7d' :: r' := skip_unique hw hw'
          (by rintro u ⟨⟩; decide) (by rintro u ⟨⟩; decide) (List.cons.inj he).2
        exact ⟨rfl, (List.cons.inj hend).2⟩
      | obj hs' =>
        obtain ⟨y, _, hy⟩ := members_skip hs'
        simp only [List.cons_append, List.append_assoc, List.nil_append] at he
        exact absurd (List.cons.inj he).2 (not_skipped hw (by decide) hy)
    | obj hs =>
      cases hx' with
      | emptyObj hw' =>
        obtain ⟨y, _, hy⟩ := members_skip hs
        simp only [List.cons_append, List.append_assoc, List.nil_append] at he
        exact absurd (List.cons.inj he).2.symm (not_skipped hw' (by decide) hy)
      | obj hs' =>
        simp only [List.cons_append, List.append_assoc, List.nil_append] at he
        obtain ⟨rfl, hrest⟩ := members_unique ih hs hs' (List.cons.inj he).2
        exact ⟨rfl, hrest⟩
  | _ => cases hk

/-- Every tree is determined by its text. -/
theorem hasOneTree (t : JsonTree) : HasOneTree t := by
  induction t with
  | null =>
    intro x hx x' t' r r' hx' hr hr' he
    have hk := kind_eq_of_value hx hx' he
    cases hx
    cases hx' with
    | null => exact ⟨rfl, List.append_cancel_left he⟩
    | _ => cases hk
  | bool b =>
    intro x hx x' t' r r' hx' hr hr' he
    have hk := kind_eq_of_value hx hx' he
    have hhead := congrArg List.head? he
    cases hx with
    | true =>
      cases hx' with
      | true => exact ⟨rfl, List.append_cancel_left he⟩
      | false => exact absurd (Option.some.inj hhead) (by decide)
      | _ => cases hk
    | false =>
      cases hx' with
      | true => exact absurd (Option.some.inj hhead) (by decide)
      | false => exact ⟨rfl, List.append_cancel_left he⟩
      | _ => cases hk
  | num l => exact hasOneTree_num l
  | str s => exact hasOneTree_str s
  | arr ts ih => exact hasOneTree_arr ih
  | obj ms ih => exact hasOneTree_obj ih

/-- A JSON text has one tree. -/
theorem text_unique {x : JsString} {t t' : JsonTree} (h : Text x t) (h' : Text x t') : t = t' := by
  have he : x ++ [unit ','] = x ++ [unit ','] := rfl
  exact (element_unique (hasOneTree t) h h' (Or.inl rfl) (Or.inl rfl) he).1

end Trees

end OpenWop.Js
