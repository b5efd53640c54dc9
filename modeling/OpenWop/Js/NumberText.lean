import OpenWop.Js.Number

/-!
# Reading numbers back

The text of a number determines the number, except that both zeros have one text: the
value of the text, read as an integer part, a fraction and an exponent, is the value of
the decimal, and a value has one decimal without trailing zeros.
-/

namespace OpenWop.Js

section Digits

/-- A decimal digit. -/
def isDigit (u : UInt16) : Bool := 48 ≤ u && u ≤ 57

/-- The value of a text of digits. -/
def digitsValue (s : JsString) : Nat := s.foldl (fun n u => n * 10 + (u.toNat - 48)) 0

theorem isDigit_digitUnit {d : Nat} (h : d < 10) : isDigit (UInt16.ofNat (48 + d)) = true := by
  have ht := toNat_digitUnit h
  simp only [isDigit, Bool.and_eq_true, decide_eq_true_eq, UInt16.le_iff_toNat_le, ht]
  constructor
  · simp
  · simp
    omega

theorem isDigit_of_mem_digitsText {n : Nat} {u : UInt16} (h : u ∈ digitsText n) :
    isDigit u = true := by
  obtain ⟨d, hd, rfl⟩ := List.mem_map.mp h
  exact isDigit_digitUnit (Nat.digits_lt_base (by decide) (List.mem_reverse.mp hd))

theorem digitsValue_concat (s : JsString) (u : UInt16) :
    digitsValue (s ++ [u]) = digitsValue s * 10 + (u.toNat - 48) := List.foldl_concat ..

theorem digitsValue_append (s t : JsString) :
    digitsValue (s ++ t) = digitsValue s * 10 ^ t.length + digitsValue t := by
  induction t using List.reverseRecOn with
  | nil => simp [digitsValue]
  | append_singleton t u ih =>
    rw [← List.append_assoc, digitsValue_concat, digitsValue_concat, ih, List.length_append, List.length_singleton,
      pow_succ]
    ring

theorem digitsValue_zeros (m : Nat) : digitsValue (List.replicate m (unit '0')) = 0 := by
  induction m with
  | zero => rfl
  | succ m ih =>
    rw [List.replicate_succ', digitsValue_append, ih]
    rfl

/-- The digits of a number have its value. -/
theorem digitsValue_digitsText (n : Nat) : digitsValue (digitsText n) = n := by
  have hfold : ∀ ds : List Nat, (∀ d ∈ ds, d < 10) →
      digitsValue (ds.reverse.map fun d => UInt16.ofNat (48 + d)) = Nat.ofDigits 10 ds := by
    intro ds hds
    induction ds with
    | nil => rfl
    | cons d ds ih =>
      rw [List.forall_mem_cons] at hds
      rw [List.reverse_cons, List.map_append, digitsValue_append, ih hds.2, Nat.ofDigits_cons]
      simp only [List.map_cons, List.map_nil, List.length_singleton, pow_one, digitsValue,
        List.foldl_cons, List.foldl_nil, toNat_digitUnit hds.1]
      simp
      omega
  rw [digitsText, hfold _ fun d hd => Nat.digits_lt_base (by decide) hd, Nat.ofDigits_digits]

end Digits

section Reading

/-- The value of an exponent, sign included. -/
def exponentValue : JsString → Int
  | [] => 0
  | sign :: digits => if sign = unit '-' then -(digitsValue digits : Int) else digitsValue digits

/-- The value of a text: an integer part, a fraction after a point and an exponent after an `e`. -/
def textValue (s : JsString) : ℚ :=
  let mantissa := s.takeWhile (· ≠ unit 'e')
  let exponent := exponentValue ((s.dropWhile (· ≠ unit 'e')).drop 1)
  let integer := mantissa.takeWhile (· ≠ unit '.')
  let fraction := (mantissa.dropWhile (· ≠ unit '.')).drop 1
  digitsValue (integer ++ fraction) * 10 ^ (exponent - fraction.length)

theorem ne_of_isDigit {u : UInt16} (h : isDigit u = true) : u ≠ unit 'e' ∧ u ≠ unit '.' := by
  constructor <;> rintro rfl <;> revert h <;> decide

variable {i f : JsString}

theorem textValue_integer (hi : ∀ u ∈ i, isDigit u = true) : textValue i = digitsValue i := by
  have he : ∀ u ∈ i, decide (u ≠ unit 'e') = true := fun u hu => by simp [ne_of_isDigit (hi u hu)]
  have hp : ∀ u ∈ i, decide (u ≠ unit '.') = true := fun u hu => by simp [ne_of_isDigit (hi u hu)]
  rw [textValue, List.takeWhile_eq_self_iff.mpr he, List.dropWhile_eq_nil_iff.mpr he]
  rw [List.takeWhile_eq_self_iff.mpr hp, List.dropWhile_eq_nil_iff.mpr hp]
  simp [exponentValue]

theorem textValue_fraction (hi : ∀ u ∈ i, isDigit u = true) (hf : ∀ u ∈ f, isDigit u = true) :
    textValue (i ++ unit '.' :: f) = digitsValue (i ++ f) * 10 ^ (-(f.length : Int)) := by
  have he : ∀ u ∈ i ++ unit '.' :: f, decide (u ≠ unit 'e') = true := by
    intro u hu
    rcases List.mem_append.mp hu with hu | hu
    · simp [ne_of_isDigit (hi u hu)]
    · rcases List.mem_cons.mp hu with rfl | hu
      · decide
      · simp [ne_of_isDigit (hf u hu)]
  have hp : ∀ u ∈ i, decide (u ≠ unit '.') = true := fun u hu => by simp [ne_of_isDigit (hi u hu)]
  rw [textValue, List.takeWhile_eq_self_iff.mpr he, List.dropWhile_eq_nil_iff.mpr he]
  rw [List.takeWhile_append_of_pos hp, List.dropWhile_append_of_pos hp,
    List.takeWhile_cons_of_neg (by decide), List.dropWhile_cons_of_neg (by decide)]
  simp [exponentValue]

theorem textValue_exponent (hi : ∀ u ∈ i, isDigit u = true) (x : JsString) :
    textValue (i ++ unit 'e' :: x) = digitsValue i * 10 ^ exponentValue x := by
  have he : ∀ u ∈ i, decide (u ≠ unit 'e') = true := fun u hu => by simp [ne_of_isDigit (hi u hu)]
  have hp : ∀ u ∈ i, decide (u ≠ unit '.') = true := fun u hu => by simp [ne_of_isDigit (hi u hu)]
  rw [textValue, List.takeWhile_append_of_pos he, List.dropWhile_append_of_pos he,
    List.takeWhile_cons_of_neg (by decide), List.dropWhile_cons_of_neg (by decide)]
  rw [List.append_nil, List.takeWhile_eq_self_iff.mpr hp, List.dropWhile_eq_nil_iff.mpr hp]
  simp

theorem textValue_scientific (hi : ∀ u ∈ i, isDigit u = true) (hf : ∀ u ∈ f, isDigit u = true)
    (x : JsString) : textValue (i ++ unit '.' :: f ++ unit 'e' :: x) =
      digitsValue (i ++ f) * 10 ^ (exponentValue x - f.length) := by
  have he : ∀ u ∈ i ++ unit '.' :: f, decide (u ≠ unit 'e') = true := by
    intro u hu
    rcases List.mem_append.mp hu with hu | hu
    · simp [ne_of_isDigit (hi u hu)]
    · rcases List.mem_cons.mp hu with rfl | hu
      · decide
      · simp [ne_of_isDigit (hf u hu)]
  have hp : ∀ u ∈ i, decide (u ≠ unit '.') = true := fun u hu => by simp [ne_of_isDigit (hi u hu)]
  rw [textValue, List.takeWhile_append_of_pos he, List.dropWhile_append_of_pos he,
    List.takeWhile_cons_of_neg (by decide), List.dropWhile_cons_of_neg (by decide)]
  rw [List.append_nil, List.takeWhile_append_of_pos hp, List.dropWhile_append_of_pos hp,
    List.takeWhile_cons_of_neg (by decide), List.dropWhile_cons_of_neg (by decide)]
  simp

theorem exponentValue_exponentText (n : Int) : exponentValue (exponentText n) = n := by
  have hdigits : ∀ m : Nat, digitsValue (exponentText.digitsText' m) = m := by
    intro m
    rw [exponentText.digitsText']
    split
    · next h =>
      subst h
      rfl
    · exact digitsValue_digitsText m
  rw [exponentText]
  split
  · next h =>
    rw [exponentValue, if_neg (by decide), hdigits, Int.toNat_of_nonneg h]
  · next h =>
    rw [exponentValue, if_pos rfl, hdigits, Int.toNat_of_nonneg (by omega)]
    omega

end Reading

section Injectivity

theorem digitsText_ne_nil {n : Nat} (h : n ≠ 0) : digitsText n ≠ [] := by
  simpa [digitsText] using Nat.digits_ne_nil_iff_ne_zero.mpr h

/-- Reading a positive decimal back gives its value. -/
theorem textValue_magnitudeText {c : Nat} (hc : c ≠ 0) (e : Int) :
    textValue (magnitudeText c e) = c * 10 ^ e := by
  have hdigits : ∀ u ∈ digitsText c, isDigit u = true := fun u hu => isDigit_of_mem_digitsText hu
  have hzeros : ∀ (m : Nat), ∀ u ∈ List.replicate m (unit '0'), isDigit u = true := by
    intro m u hu
    rw [(List.mem_replicate.mp hu).2]
    decide
  have hvalue := digitsValue_digitsText c
  have hlength := List.length_pos_iff.mpr (digitsText_ne_nil hc)
  rw [magnitudeText]
  generalize digitsText c = ds at hdigits hvalue hlength
  have htake : ∀ m, ∀ u ∈ ds.take m, isDigit u = true := fun m u hu =>
    hdigits u (List.mem_of_mem_take hu)
  have hdrop : ∀ m, ∀ u ∈ ds.drop m, isDigit u = true := fun m u hu =>
    hdigits u (List.mem_of_mem_drop hu)
  split
  · next h =>
    -- An integer: the exponent counts the zeros.
    have hi : ∀ u ∈ ds ++ List.replicate (e + ds.length - ds.length).toNat (unit '0'),
        isDigit u = true := fun u hu => (List.mem_append.mp hu).elim (hdigits u) (hzeros _ u)
    rw [textValue_integer hi, digitsValue_append, digitsValue_zeros, hvalue, List.length_replicate]
    have he : ((e + ds.length - ds.length).toNat : Int) = e := by omega
    push_cast
    rw [← zpow_natCast, he, add_zero]
  split
  · next h =>
    -- A point among the digits.
    rw [textValue_fraction (htake _) (hdrop _), List.take_append_drop, hvalue, List.length_drop]
    have he : -((ds.length - (e + ds.length).toNat : Nat) : Int) = e := by omega
    rw [he]
  split
  · next h =>
    -- Zeros before the digits.
    have hf : ∀ u ∈ List.replicate (-(e + ds.length)).toNat (unit '0') ++ ds, isDigit u = true :=
      fun u hu => (List.mem_append.mp hu).elim (hzeros _ u) (hdigits u)
    have hzero : ∀ u ∈ [unit '0'], isDigit u = true := List.forall_mem_singleton.mpr rfl
    have hv := textValue_fraction hzero hf
    rw [digitsValue_append, digitsValue_append, digitsValue_zeros, hvalue] at hv
    have he : -((List.replicate (-(e + ds.length)).toNat (unit '0') ++ ds).length : Int) = e := by
      rw [List.length_append, List.length_replicate]
      omega
    rw [he] at hv
    simpa [digitsValue, unit] using hv
  split
  · next h =>
    rw [textValue_exponent hdigits, exponentValue_exponentText, hvalue, h]
    congr 2
    omega
  · next h =>
    rw [textValue_scientific (htake _) (hdrop _), exponentValue_exponentText, List.take_append_drop,
      hvalue, List.length_drop]
    have he : e + ds.length - 1 - ((ds.length - 1 : Nat) : Int) = e := by omega
    rw [he]

/-- A positive value has one decimal without trailing zeros. -/
theorem normal_unique {c c' : Nat} {e e' : Int} (hc : c % 10 ≠ 0) (hc' : c' % 10 ≠ 0)
    (h : (c : ℚ) * 10 ^ e = c' * 10 ^ e') : c = c' ∧ e = e' := by
  wlog hle : e ≤ e' generalizing c c' e e'
  · obtain ⟨h1, h2⟩ := this hc' hc h.symm (by omega)
    exact ⟨h1.symm, h2.symm⟩
  have hten : (10 : ℚ) ^ e ≠ 0 := zpow_ne_zero _ (by norm_num)
  have hsplit : (10 : ℚ) ^ e' = 10 ^ (e' - e).toNat * 10 ^ e := by
    rw [← zpow_natCast, ← zpow_add₀ (by norm_num : (10 : ℚ) ≠ 0)]
    congr 1
    omega
  rw [hsplit, ← mul_assoc] at h
  have hnat : c = c' * 10 ^ (e' - e).toNat := by
    have := mul_right_cancel₀ hten h
    exact_mod_cast this
  rcases hm : (e' - e).toNat with _ | m
  · rw [hm, pow_zero, mul_one] at hnat
    exact ⟨hnat, by omega⟩
  · rw [hm, pow_succ, ← mul_assoc] at hnat
    omega

/-- A positive decimal starts with a digit. -/
theorem isDigit_head_magnitudeText {c : Nat} (hc : c ≠ 0) (e : Int) :
    ∃ u rest, magnitudeText c e = u :: rest ∧ isDigit u = true := by
  obtain ⟨u, ds, hds⟩ := List.exists_cons_of_ne_nil (digitsText_ne_nil hc)
  have hu : isDigit u = true := isDigit_of_mem_digitsText (n := c) (by simp [hds])
  rw [magnitudeText, hds]
  split
  · exact ⟨u, _, rfl, hu⟩
  split
  · next h =>
    obtain ⟨m, hm⟩ : ∃ m, (e + (u :: ds).length).toNat = m + 1 :=
      ⟨(e + (u :: ds).length).toNat - 1, by omega⟩
    rw [hm]
    exact ⟨u, _, rfl, hu⟩
  split
  · exact ⟨unit '0', _, rfl, by decide⟩
  split <;> exact ⟨u, _, rfl, hu⟩

/-- The text of a finite number determines it up to the sign of zero. -/
theorem Decimal.text_inj {d d' : Decimal} (h : d.text = d'.text) : d.unsigned = d'.unsigned := by
  have hzero : ∀ b : Decimal, b.coefficient = 0 → b.unsigned = ⟨false, 0, 0, zero_normal⟩ := by
    rintro ⟨n, c, e, hn⟩ rfl
    obtain ⟨_, rfl⟩ := hn.resolve_left (by simp)
    rfl
  have hpositive : ∀ (c : Nat) (e : Int), c ≠ 0 → magnitudeText c e ≠ [unit '0'] := by
    intro c e hc ht
    have hv := textValue_magnitudeText hc e
    rw [ht, textValue_integer (List.forall_mem_singleton.mpr rfl)] at hv
    have hpos : (c : ℚ) * 10 ^ e ≠ 0 :=
      mul_ne_zero (Nat.cast_ne_zero.mpr hc) (zpow_ne_zero _ (by norm_num))
    exact hpos (hv.symm.trans (by simp [digitsValue, unit]))
  have hminus : ∀ (c : Nat) (e : Int) (s : JsString), c ≠ 0 → magnitudeText c e ≠ unit '-' :: s := by
    intro c e s hc ht
    obtain ⟨u, rest, hu, hd⟩ := isDigit_head_magnitudeText hc e
    rw [hu] at ht
    rw [(List.cons.inj ht).1] at hd
    exact absurd hd (by decide)
  have hnormal : ∀ b : Decimal, b.coefficient ≠ 0 → b.coefficient % 10 ≠ 0 := fun b hb =>
    b.normal.resolve_right fun hz => hb hz.1
  rw [Decimal.text, Decimal.text] at h
  by_cases hc : d.coefficient = 0
  · rw [if_pos hc] at h
    by_cases hc' : d'.coefficient = 0
    · rw [hzero d hc, hzero d' hc']
    · rw [if_neg hc'] at h
      split at h
      · exact absurd (List.cons.inj h).1 (by decide)
      · exact absurd h.symm (hpositive _ _ hc')
  · rw [if_neg hc] at h
    by_cases hc' : d'.coefficient = 0
    · rw [if_pos hc'] at h
      split at h
      · exact absurd (List.cons.inj h).1 (by decide)
      · exact absurd h (hpositive _ _ hc)
    · rw [if_neg hc'] at h
      have hvalue : ∀ ht : magnitudeText d.coefficient d.exponent =
          magnitudeText d'.coefficient d'.exponent,
          d.coefficient = d'.coefficient ∧ d.exponent = d'.exponent := by
        intro ht
        refine normal_unique (hnormal d hc) (hnormal d' hc') ?_
        rw [← textValue_magnitudeText hc, ← textValue_magnitudeText hc', ht]
      have hunsigned : d = d' → d.unsigned = d'.unsigned := fun he => he ▸ rfl
      obtain ⟨n, c, e, hn⟩ := d
      obtain ⟨n', c', e', hn'⟩ := d'
      dsimp only at h hvalue hc hc'
      apply hunsigned
      cases n <;> cases n'
      · obtain ⟨rfl, rfl⟩ := hvalue h
        rfl
      · exact absurd h (hminus _ _ _ hc)
      · exact absurd h.symm (hminus _ _ _ hc')
      · obtain ⟨rfl, rfl⟩ := hvalue (List.cons.inj h).2
        rfl

end Injectivity

section Units

/-- A unit of the text of a finite number. -/
def isNumberUnit (u : UInt16) : Bool :=
  isDigit u || u = unit '.' || u = unit 'e' || u = unit '+' || u = unit '-'

theorem isNumberUnit_of_isDigit {u : UInt16} (h : isDigit u = true) : isNumberUnit u = true := by
  simp [isNumberUnit, h]

theorem isNumberUnit_exponentText (n : Int) : ∀ u ∈ exponentText n, isNumberUnit u = true := by
  have hdigits : ∀ m : Nat, ∀ u ∈ exponentText.digitsText' m, isNumberUnit u = true := by
    intro m u hu
    rw [exponentText.digitsText'] at hu
    split at hu
    · rw [List.mem_singleton.mp hu]
      decide
    · exact isNumberUnit_of_isDigit (isDigit_of_mem_digitsText hu)
  rw [exponentText]
  split
  · exact List.forall_mem_cons.mpr ⟨by decide, hdigits _⟩
  · exact List.forall_mem_cons.mpr ⟨by decide, hdigits _⟩

theorem isNumberUnit_magnitudeText (c : Nat) (e : Int) :
    ∀ u ∈ magnitudeText c e, isNumberUnit u = true := by
  have hdigits : ∀ u ∈ digitsText c, isNumberUnit u = true := fun u hu =>
    isNumberUnit_of_isDigit (isDigit_of_mem_digitsText hu)
  have hzeros : ∀ m, ∀ u ∈ List.replicate m (unit '0'), isNumberUnit u = true := by
    intro m u hu
    rw [(List.mem_replicate.mp hu).2]
    decide
  have hpoint : isNumberUnit (unit '.') = true := by decide
  have he : isNumberUnit (unit 'e') = true := by decide
  have hzero : isNumberUnit (unit '0') = true := by decide
  have htake : ∀ m, ∀ u ∈ (digitsText c).take m, isNumberUnit u = true := fun m u hu =>
    hdigits u (List.mem_of_mem_take hu)
  have hdrop : ∀ m, ∀ u ∈ (digitsText c).drop m, isNumberUnit u = true := fun m u hu =>
    hdigits u (List.mem_of_mem_drop hu)
  rw [magnitudeText]
  split
  · exact List.forall_mem_append.mpr ⟨hdigits, hzeros _⟩
  split
  · exact List.forall_mem_append.mpr ⟨htake _, List.forall_mem_cons.mpr ⟨hpoint, hdrop _⟩⟩
  split
  · refine List.forall_mem_cons.mpr ⟨hzero, List.forall_mem_cons.mpr ⟨hpoint, ?_⟩⟩
    exact List.forall_mem_append.mpr ⟨hzeros _, hdigits⟩
  split
  · exact List.forall_mem_append.mpr ⟨hdigits,
      List.forall_mem_cons.mpr ⟨he, isNumberUnit_exponentText _⟩⟩
  · refine List.forall_mem_append.mpr ⟨?_, List.forall_mem_cons.mpr ⟨he, isNumberUnit_exponentText _⟩⟩
    exact List.forall_mem_append.mpr ⟨htake _, List.forall_mem_cons.mpr ⟨hpoint, hdrop _⟩⟩

/-- The text of a finite number has no other units, and at least one. -/
theorem Decimal.isNumberUnit_text (d : Decimal) :
    d.text ≠ [] ∧ ∀ u ∈ d.text, isNumberUnit u = true := by
  rw [Decimal.text]
  split
  · exact ⟨by simp, List.forall_mem_singleton.mpr rfl⟩
  · next hc =>
    split
    · exact ⟨by simp, List.forall_mem_cons.mpr ⟨by decide, isNumberUnit_magnitudeText _ _⟩⟩
    · obtain ⟨u, rest, hu, _⟩ := isDigit_head_magnitudeText hc d.exponent
      exact ⟨by simp [hu], isNumberUnit_magnitudeText _ _⟩

end Units

end OpenWop.Js
