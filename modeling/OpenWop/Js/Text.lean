import Mathlib.Data.List.Infix
import Mathlib.Data.List.DropRight
import Mathlib.Data.List.TakeWhile
import Mathlib.Data.Nat.Digits.Defs

/-!
# ECMAScript strings

A string is a finite sequence of UTF-16 code units, lone surrogates included.
The operations are the `String.prototype` ones the code under verification uses,
on code units as the language defines them. Nothing here names a program.
-/

namespace OpenWop.Js

/-- An ECMAScript string. -/
abbrev JsString := List UInt16

instance : LawfulBEq JsString := inferInstanceAs (LawfulBEq (List UInt16))

/-- The one or two code units of a Unicode scalar value. -/
def utf16Units (c : Char) : List UInt16 :=
  if c.toNat < 0x10000 then [UInt16.ofNat c.toNat]
  else [UInt16.ofNat (0xd800 + (c.toNat - 0x10000) / 0x400),
    UInt16.ofNat (0xdc00 + (c.toNat - 0x10000) % 0x400)]

/-- A source literal as an ECMAScript string. -/
def js (s : String) : JsString := s.toList.flatMap utf16Units

/-- A literal is read as its characters once, and what is left compares quickly. -/
theorem js_eq {s : String} {cs : List Char} (h : s = String.ofList cs) :
    js s = cs.flatMap utf16Units := by
  rw [h, js, String.toList_ofList]

theorem js_cons_eq {s : String} {cs : List Char} {l rows : List JsString}
    (h : s = String.ofList cs) (hl : l = rows) : js s :: l = cs.flatMap utf16Units :: rows := by
  rw [js_eq h, hl]

theorem forall_mem_of_eq {p : JsString → Prop} {l rows : List JsString} (h : l = rows)
    (hp : ∀ t ∈ rows, p t) : ∀ t ∈ l, p t :=
  h ▸ hp

/-- The code unit of one ASCII character. -/
def unit (c : Char) : UInt16 := UInt16.ofNat c.toNat

/-- `s.startsWith(p)`. -/
def startsWith (s p : JsString) : Bool := p.isPrefixOf s

/-- `s.endsWith(p)`. -/
def endsWith (s p : JsString) : Bool := p.isSuffixOf s

/-- `s.includes(t)`. -/
def includes (s t : JsString) : Bool := s.tails.any t.isPrefixOf

/-- `s.slice(a, b)` for natural bounds. -/
def slice (s : JsString) (a b : Nat) : JsString := (s.drop a).take (b - a)

theorem startsWith_iff {s p : JsString} : startsWith s p = true ↔ p <+: s :=
  List.isPrefixOf_iff_prefix

theorem endsWith_iff {s p : JsString} : endsWith s p = true ↔ p <:+ s :=
  List.isSuffixOf_iff_suffix

theorem startsWith_append (s t : JsString) : startsWith (s ++ t) s = true :=
  startsWith_iff.mpr (List.prefix_append s t)

/-- Inclusion is the infix relation. -/
theorem includes_iff {s t : JsString} : includes s t = true ↔ t <:+: s := by
  simp only [includes, List.any_eq_true, List.mem_tails, List.isPrefixOf_iff_prefix]
  constructor
  · rintro ⟨u, hu, ht⟩
    exact ht.isInfix.trans hu.isInfix
  · rintro ⟨a, b, rfl⟩
    exact ⟨t ++ b, ⟨a, by simp⟩, List.prefix_append t b⟩

/-- The position of the first occurrence of `t`, as `s.indexOf(t)` finds it. -/
def indexOf (s t : JsString) : Option Nat := s.tails.findIdx? t.isPrefixOf

/-- The first occurrence of a unit is after what does not have it. -/
theorem indexOf_append {s t : JsString} {c : UInt16} (h : c ∉ s) :
    indexOf (s ++ c :: t) [c] = some s.length := by
  induction s with
  | nil =>
    rw [indexOf, List.nil_append, List.tails_cons, List.findIdx?_cons]
    simp
  | cons u s ih =>
    rw [List.mem_cons, not_or] at h
    have hrest := ih h.2
    rw [indexOf] at hrest ⊢
    rw [List.cons_append, List.tails_cons, List.findIdx?_cons, hrest]
    simp [h.1]

theorem indexOf_of_not_mem {s : JsString} {c : UInt16} (h : c ∉ s) : indexOf s [c] = none := by
  rw [indexOf, List.findIdx?_eq_none_iff]
  intro t ht
  rw [List.mem_tails] at ht
  rw [← Bool.not_eq_true, List.isPrefixOf_iff_prefix]
  exact fun hlead => h (ht.subset (hlead.subset (List.mem_singleton_self c)))

/-- A unit found splits the string at its first occurrence. -/
theorem indexOf_eq_some {s : JsString} {c : UInt16} {i : Nat} (h : indexOf s [c] = some i) :
    ∃ front rest, s = front ++ c :: rest ∧ c ∉ front ∧ front.length = i := by
  by_cases hc : c ∈ s
  · obtain ⟨front, rest, rfl, hfront⟩ := List.eq_append_cons_of_mem hc
    rw [indexOf_append hfront, Option.some.injEq] at h
    exact ⟨front, rest, rfl, hfront, h⟩
  · rw [indexOf_of_not_mem hc] at h
    cases h

/-- `s.replace(/<suffix>$/, '')` for a literal suffix. -/
def dropSuffix (s suffix : JsString) : JsString :=
  if endsWith s suffix then s.take (s.length - suffix.length) else s

/-- A string that ends in the suffix is what is left of it followed by the suffix. -/
theorem dropSuffix_append {s suffix : JsString} (h : endsWith s suffix = true) :
    dropSuffix s suffix ++ suffix = s := by
  obtain ⟨t, rfl⟩ := endsWith_iff.mp h
  simp [dropSuffix, h]

/-- `s.split(c)` at one code unit. -/
def splitOn (s : JsString) (c : UInt16) : List JsString :=
  s.foldr (fun u acc => if u = c then [] :: acc else
    match acc with
    | [] => [[u]]
    | w :: ws => (u :: w) :: ws) [[]]

theorem splitOn_of_not_mem {s : JsString} {c : UInt16} (h : c ∉ s) : splitOn s c = [s] := by
  induction s with
  | nil => rfl
  | cons u s ih =>
    rw [List.mem_cons, not_or] at h
    obtain ⟨hu, hs⟩ := h
    have hs := ih hs
    rw [splitOn] at hs ⊢
    rw [List.foldr_cons, hs, if_neg (Ne.symm hu)]

theorem splitOn_ne_nil (s : JsString) (c : UInt16) : splitOn s c ≠ [] := by
  cases s with
  | nil => exact List.cons_ne_nil _ _
  | cons u s =>
    rw [splitOn, List.foldr_cons]
    split
    · exact List.cons_ne_nil _ _
    · split
      · exact List.cons_ne_nil _ _
      · exact List.cons_ne_nil _ _

/-- The first piece ends at the first occurrence. -/
theorem splitOn_append {s t : JsString} {c : UInt16} (h : c ∉ s) :
    splitOn (s ++ c :: t) c = s :: splitOn t c := by
  induction s with
  | nil =>
    rw [List.nil_append, splitOn, List.foldr_cons, if_pos rfl]
    rfl
  | cons u s ih =>
    rw [List.mem_cons, not_or] at h
    have hs := ih h.2
    rw [splitOn] at hs
    rw [List.cons_append, splitOn, List.foldr_cons, hs, if_neg (Ne.symm h.1)]

/-- A split at a code unit of the string has several pieces. -/
theorem two_le_length_splitOn {s : JsString} {c : UInt16} (h : c ∈ s) :
    2 ≤ (splitOn s c).length := by
  obtain ⟨front, rest, rfl, hfront⟩ := List.eq_append_cons_of_mem h
  rw [splitOn_append hfront, List.length_cons]
  have hpos := List.length_pos_iff.mpr (splitOn_ne_nil rest c)
  omega

/-- Induction along the pieces of a split. -/
theorem splitOn_induction {c : UInt16} {motive : JsString → List JsString → Prop}
    (last : ∀ s, c ∉ s → motive s [s])
    (piece : ∀ s t, c ∉ s → motive t (splitOn t c) → motive (s ++ c :: t) (s :: splitOn t c))
    (s : JsString) : motive s (splitOn s c) := by
  induction hn : s.length using Nat.strong_induction_on generalizing s with
  | _ n ih =>
    by_cases h : c ∈ s
    · obtain ⟨front, rest, rfl, hfront⟩ := List.eq_append_cons_of_mem h
      rw [splitOn_append hfront]
      refine piece front rest hfront (ih rest.length ?_ rest rfl)
      rw [← hn, List.length_append, List.length_cons]
      omega
    · rw [splitOn_of_not_mem h]
      exact last s h

/-- The units of the pieces are those of the string without the separator. -/
theorem exists_mem_splitOn {s : JsString} {c u : UInt16} :
    (∃ w ∈ splitOn s c, u ∈ w) ↔ u ∈ s ∧ u ≠ c := by
  refine splitOn_induction (motive := fun s ws => (∃ w ∈ ws, u ∈ w) ↔ u ∈ s ∧ u ≠ c) ?_ ?_ s
  · intro s hs
    have hne : u ∈ s → u ≠ c := fun hu hc => hs (hc ▸ hu)
    simpa using hne
  · intro s t hs ih
    have hne : u ∈ s → u ≠ c := fun hu hc => hs (hc ▸ hu)
    simp only [List.mem_cons, exists_eq_or_imp, ih, List.mem_append]
    tauto

/-- A piece is empty where the string is, or where a separator has nothing on one side. -/
theorem nil_mem_splitOn {s : JsString} {c : UInt16} (h : [] ∈ splitOn s c) :
    s = [] ∨ [c] <+: s ∨ [c] <:+ s ∨ [c, c] <:+: s := by
  revert h
  refine splitOn_induction (motive := fun s ws => [] ∈ ws →
    s = [] ∨ [c] <+: s ∨ [c] <:+ s ∨ [c, c] <:+: s) ?_ ?_ s
  · intro s _ h
    exact Or.inl (List.mem_singleton.mp h).symm
  · intro s t _ ih h
    refine Or.inr ?_
    rcases List.mem_cons.mp h with rfl | h
    · exact Or.inl ⟨t, rfl⟩
    · right
      rcases ih h with rfl | hlead | htail | hin
      · exact Or.inl ⟨s, rfl⟩
      · obtain ⟨t, rfl⟩ := hlead
        exact Or.inr ⟨s, t, by simp⟩
      · exact Or.inl (htail.trans ⟨s ++ [c], by simp⟩)
      · exact Or.inr (hin.trans ⟨s ++ [c], [], by simp⟩)

/-- `s.includes(c)` for one code unit. -/
theorem includes_singleton {s : JsString} {c : UInt16} : includes s [c] = true ↔ c ∈ s := by
  rw [includes_iff]
  constructor
  · exact fun h => h.subset (List.mem_singleton_self c)
  · intro h
    obtain ⟨front, rest, rfl⟩ := List.append_of_mem h
    exact ⟨front, rest, by simp⟩

/-- `parts.join(separator)`. -/
def join (separator : JsString) : List JsString → JsString
  | [] => []
  | [part] => part
  | part :: parts => part ++ separator ++ join separator parts

/-- The white space and line terminators `String.prototype.trim` removes. -/
def isTrimmed (u : UInt16) : Bool :=
  u ∈ ([9, 10, 11, 12, 13, 32, 0xa0, 0x1680, 0x2028, 0x2029, 0x202f, 0x205f, 0x3000, 0xfeff] :
    List UInt16) || (0x2000 ≤ u && u ≤ 0x200a)

/-- `s.trim()`. -/
def trim (s : JsString) : JsString := (s.dropWhile isTrimmed).rdropWhile isTrimmed

/-- `String(n)` for a natural number. -/
def decimal (n : Nat) : JsString :=
  ((Nat.digits 10 n).map fun d => UInt16.ofNat (48 + d)).reverse.rightpad 1 48

theorem toNat_digitUnit {d : Nat} (h : d < 10) : (UInt16.ofNat (48 + d)).toNat = 48 + d :=
  UInt16.toNat_ofNat_of_lt' (by simp [UInt16.size]; omega)

/-- The number is read back from its text. -/
theorem ofDigits_decimal (n : Nat) :
    Nat.ofDigits 10 ((decimal n).reverse.map fun u => u.toNat - 48) = n := by
  have hdigits : (Nat.digits 10 n).map (fun d => (UInt16.ofNat (48 + d)).toNat - 48) =
      Nat.digits 10 n := by
    refine (List.map_congr_left fun d hd => ?_).trans (List.map_id _)
    rw [toNat_digitUnit (Nat.digits_lt_base (by norm_num) hd), id]
    omega
  by_cases hn : n = 0
  · subst hn
    rfl
  · have hpos : 0 < (Nat.digits 10 n).length :=
      List.length_pos_iff.mpr (Nat.digits_ne_nil_iff_ne_zero.mpr hn)
    have hlen : 1 - (Nat.digits 10 n).length = 0 := by omega
    rw [decimal, List.rightpad, List.length_reverse, List.length_map, hlen, List.replicate_zero,
      List.append_nil, List.reverse_reverse, List.map_map]
    exact (congrArg (Nat.ofDigits 10) hdigits).trans (Nat.ofDigits_digits 10 n)

theorem decimal_inj {n n' : Nat} (h : decimal n = decimal n') : n = n' := by
  rw [← ofDigits_decimal n, h, ofDigits_decimal n']

theorem le_of_mem_decimal {n : Nat} {u : UInt16} (h : u ∈ decimal n) : 48 ≤ u.toNat := by
  rw [decimal, List.rightpad, List.mem_append, List.mem_reverse, List.mem_map,
    List.mem_replicate] at h
  obtain ⟨d, hd, rfl⟩ | ⟨_, rfl⟩ := h
  · rw [toNat_digitUnit (Nat.digits_lt_base (by norm_num) hd)]
    omega
  · exact le_rfl

/-- A leading surrogate. -/
def isHighSurrogate (u : UInt16) : Bool := 0xd800 ≤ u && u ≤ 0xdbff

/-- A trailing surrogate. -/
def isLowSurrogate (u : UInt16) : Bool := 0xdc00 ≤ u && u ≤ 0xdfff

/-- Every surrogate of the string is half of a pair. -/
def isWellFormed : JsString → Bool
  | [] => true
  | [u] => !isHighSurrogate u && !isLowSurrogate u
  | u :: v :: rest =>
    if isHighSurrogate u then isLowSurrogate v && isWellFormed rest
    else !isLowSurrogate u && isWellFormed (v :: rest)

theorem isHighSurrogate_not_low {u : UInt16} (h : isHighSurrogate u = true) :
    isLowSurrogate u = false := by
  simp only [isHighSurrogate, isLowSurrogate, Bool.and_eq_true, decide_eq_true_eq] at h ⊢
  have h1 := UInt16.le_iff_toNat_le.mp h.2
  have h2 : ¬ (0xdc00 : UInt16) ≤ u := fun h3 => by
    have h4 := UInt16.le_iff_toNat_le.mp h3
    simp at h1 h4
    omega
  simp [h2]

/-- Text without surrogates is well formed. -/
theorem isWellFormed_of_no_surrogates {s : JsString}
    (h : ∀ u ∈ s, isHighSurrogate u = false ∧ isLowSurrogate u = false) :
    isWellFormed s = true := by
  induction s with
  | nil => rfl
  | cons u rest ih =>
    have hu := h u (List.mem_cons_self ..)
    have hr := ih fun v hv => h v (List.mem_cons_of_mem _ hv)
    cases rest with
    | nil => simp [isWellFormed, hu]
    | cons v rest => simp only [isWellFormed, hu, hr, Bool.false_eq_true, if_false]; rfl

/-- Well-formed strings concatenate to well-formed strings. -/
theorem isWellFormed_append {s t : JsString} (hs : isWellFormed s = true)
    (ht : isWellFormed t = true) : isWellFormed (s ++ t) = true := by
  induction s using isWellFormed.induct with
  | case1 => exact ht
  | case2 u =>
    simp only [isWellFormed, Bool.and_eq_true, Bool.not_eq_true'] at hs
    cases t with
    | nil => simp [isWellFormed, hs]
    | cons v t => simp [isWellFormed, hs, ht]
  | case3 u v rest hu ih =>
    simp only [isWellFormed, hu, if_true, Bool.and_eq_true] at hs
    simp only [List.cons_append, isWellFormed, hu, if_true, hs.1, ih hs.2, Bool.and_self]
  | case4 u v rest hu ih =>
    simp only [isWellFormed, hu, Bool.false_eq_true, if_false, Bool.and_eq_true] at hs
    have hv := ih hs.2
    simp only [List.cons_append] at hv
    simp [List.cons_append, isWellFormed, hu, hs.1, hv]

end OpenWop.Js
