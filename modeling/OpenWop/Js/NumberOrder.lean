import Mathlib.Order.WithBot
import OpenWop.Core.RoundingBounds
import OpenWop.Js.ToNumber

/-!
# The order of Numbers

Every Number but `NaN` has a rank among the rationals with both infinities. Comparison, `Math.min`
and `Math.max` follow the ranks, and a sum is on the same side of a double as its exact value.
-/

namespace OpenWop.Js.JsNumber

open Rounding

section Operations

/-- `x + y`. -/
def add (x y : JsNumber) : JsNumber := sub x (neg y)

/-- Whether the sign is a minus. -/
def negative : JsNumber → Bool
  | .nan => false
  | .infinity negative => negative
  | .finite d => d.negative

/-- `Math.min(x, y)`. -/
def min : JsNumber → JsNumber → JsNumber
  | .nan, _ | _, .nan => .nan
  | x, y => if lt y x || (!lt x y && negative y) then y else x

/-- `Math.max(x, y)`. -/
def max : JsNumber → JsNumber → JsNumber
  | .nan, _ | _, .nan => .nan
  | x, y => if lt x y || (!lt y x && negative x) then y else x

/-- `Math.floor(x)`. -/
def floor : JsNumber → JsNumber
  | .finite d =>
    if ⌊d.value⌋ = 0 then .finite ⟨d.negative, 0, 0, Decimal.zero_normal⟩
    else nearestNumber d.negative |(⌊d.value⌋ : ℚ)|
  | x => x

end Operations

section Rank

/-- The place of a Number among the rationals with both infinities. -/
def rank : JsNumber → Option (WithBot (WithTop ℚ))
  | .nan => none
  | .infinity true => some ⊥
  | .infinity false => some ((⊤ : WithTop ℚ) : WithBot (WithTop ℚ))
  | .finite d => some ((d.value : WithTop ℚ) : WithBot (WithTop ℚ))

variable {x y : JsNumber} {a b : WithBot (WithTop ℚ)}

/-- The rank of a finite value. -/
abbrev finiteRank (q : ℚ) : WithBot (WithTop ℚ) := ((q : WithTop ℚ) : WithBot (WithTop ℚ))

theorem lt_iff (hx : rank x = some a) (hy : rank y = some b) : lt x y = true ↔ a < b := by
  cases x with
  | nan => cases hx
  | infinity m =>
    cases y with
    | nan => cases hy
    | infinity n => cases m <;> cases n <;> cases hx <;> cases hy <;> simp [lt]
    | finite e => cases m <;> cases hx <;> cases hy <;> simp [lt]
  | finite d =>
    cases hx
    cases y with
    | nan => cases hy
    | infinity n =>
      cases n with
      | false =>
        cases hy
        exact iff_of_true rfl (WithBot.coe_lt_coe.mpr (WithTop.coe_lt_top d.value))
      | true =>
        cases hy
        exact iff_of_false (by simp [lt]) not_lt_bot
    | finite e =>
      cases hy
      simp [lt]

theorem lt_eq_false (hx : rank x = some a) (hy : rank y = some b) (h : b ≤ a) :
    lt x y = false :=
  Bool.eq_false_iff.mpr (mt (lt_iff hx hy).mp h.not_gt)

theorem ne_nan (hx : rank x = some a) : x ≠ .nan := by
  rintro rfl
  cases hx

theorem le_iff (hx : rank x = some a) (hy : rank y = some b) : le x y = true ↔ a ≤ b := by
  have hle : le x y = !lt y x := by
    cases x <;> cases y <;> first | rfl | exact absurd rfl (ne_nan hx) | exact absurd rfl (ne_nan hy)
  rw [hle, Bool.not_eq_true', ← not_lt, ← lt_iff hy hx, Bool.not_eq_true]

/-- Only comparable Numbers are in order. -/
theorem exists_rank_of_le (h : le x y = true) :
    ∃ a b, rank x = some a ∧ rank y = some b ∧ a ≤ b := by
  have hrank : ∀ z : JsNumber, z ≠ .nan → ∃ c, rank z = some c := by
    intro z hz
    cases z with
    | nan => exact absurd rfl hz
    | infinity m => cases m <;> exact ⟨_, rfl⟩
    | finite d => exact ⟨_, rfl⟩
  have hx : x ≠ .nan := by
    rintro rfl
    cases h
  have hy : y ≠ .nan := by
    rintro rfl
    cases x <;> cases h
  obtain ⟨a, ha⟩ := hrank x hx
  obtain ⟨b, hb⟩ := hrank y hy
  exact ⟨a, b, ha, hb, (le_iff ha hb).mp h⟩

theorem min_of_rank (hx : rank x = some a) (hy : rank y = some b) :
    min x y = if lt y x || (!lt x y && negative y) then y else x := by
  cases x <;> cases y <;> first | rfl | exact absurd rfl (ne_nan hx) | exact absurd rfl (ne_nan hy)

theorem max_of_rank (hx : rank x = some a) (hy : rank y = some b) :
    max x y = if lt x y || (!lt y x && negative x) then y else x := by
  cases x <;> cases y <;> first | rfl | exact absurd rfl (ne_nan hx) | exact absurd rfl (ne_nan hy)

theorem rank_min (hx : rank x = some a) (hy : rank y = some b) :
    rank (min x y) = some (a ⊓ b) := by
  rw [min_of_rank hx hy]
  rcases lt_trichotomy a b with h | rfl | h
  · rw [lt_eq_false hy hx h.le, (lt_iff hx hy).mpr h, inf_eq_left.mpr h.le]
    exact hx
  · rw [inf_idem]
    split
    · exact hy
    · exact hx
  · rw [(lt_iff hy hx).mpr h, inf_eq_right.mpr h.le]
    exact hy

theorem rank_max (hx : rank x = some a) (hy : rank y = some b) :
    rank (max x y) = some (a ⊔ b) := by
  rw [max_of_rank hx hy]
  rcases lt_trichotomy a b with h | rfl | h
  · rw [(lt_iff hx hy).mpr h, sup_eq_right.mpr h.le]
    exact hy
  · rw [sup_idem]
    split
    · exact hy
    · exact hx
  · rw [lt_eq_false hx hy h.le, (lt_iff hy hx).mpr h, sup_eq_left.mpr h.le]
    exact hx

/-- The first of two Numbers is the greater one. -/
theorem max_eq_left (hx : rank x = some a) (hy : rank y = some b) (h : b ≤ a)
    (hs : negative x = false) : max x y = x := by
  rw [max_of_rank hx hy, lt_eq_false hx hy h, hs, Bool.and_false, Bool.or_false,
    if_neg Bool.false_ne_true]

/-- The second of two Numbers is the smaller one. -/
theorem min_eq_right (hx : rank x = some a) (hy : rank y = some b) (h : b < a) : min x y = y := by
  rw [min_of_rank hx hy, (lt_iff hy hx).mpr h, Bool.true_or, if_pos rfl]

end Rank

section Integers

/-- A natural number below `2 ^ 53` is its own rounding, and that of no other natural number. -/
theorem round_natCast_eq_iff {m n : ℕ} (hn : n < 2 ^ 53) : binary64.round m = n ↔ m = n := by
  have hrep : ∀ k : ℕ, k ≤ 2 ^ 53 → binary64.Representable k := fun k hk =>
    Format.representable_natCast hk (by decide)
  constructor
  · intro h
    rcases le_or_gt m (2 ^ 53) with hm | hm
    · rw [Format.round_of_representable (hrep m hm)] at h
      exact_mod_cast h
    · have hle := Format.le_round (hrep (2 ^ 53) le_rfl) (q := m) (by exact_mod_cast hm.le)
      rw [h] at hle
      have : 2 ^ 53 ≤ n := by exact_mod_cast hle
      omega
  · rintro rfl
    exact Format.round_of_representable (hrep m hn.le)

/-- The decimals tried up to the length of a small natural number round to it only if they are equal
to it. -/
theorem decimalValue_decimalOfLength {n k : ℕ} (hn : n < 2 ^ 53)
    (hk : (k : ℤ) ≤ Int.log 10 (n : ℚ) + 1) {d : ℕ × ℤ}
    (h : binary64.decimalOfLength n k = some d) : Format.decimalValue d = n := by
  have hround := Format.round_decimalOfLength h
  obtain ⟨e, he⟩ := Int.eq_ofNat_of_zero_le (sub_nonneg.mpr hk)
  have hexp : d.2 = e := by
    simp only [Format.decimalOfLength, Format.nearer] at h
    split_ifs at h <;> (cases h; exact he)
  have hnat : Format.decimalValue d = ((d.1 * 10 ^ e : ℕ) : ℚ) := by
    rw [Format.decimalValue, hexp, zpow_natCast]
    push_cast
    rfl
  rw [hnat] at hround ⊢
  exact_mod_cast (round_natCast_eq_iff hn).mp hround

theorem decimalOfLength_isSome {n k : ℕ} (hn : n < 2 ^ 53)
    (hk : (k : ℤ) = Int.log 10 (n : ℚ) + 1) : (binary64.decimalOfLength n k).isSome := by
  have he : Int.log 10 (n : ℚ) + 1 - k = 0 := by omega
  have hself : Format.decimalValue (⌊(n : ℚ)⌋₊, 0) = n := by simp [Format.decimalValue]
  rw [Format.decimalOfLength, he, zpow_zero, div_one, if_pos]
  · rfl
  · rw [hself]
    exact (round_natCast_eq_iff hn).mpr rfl

/-- The shortest decimal of a small natural number is that number. -/
theorem decimalValue_shortest {n : ℕ} (hn : n < 2 ^ 53) :
    Format.decimalValue (binary64.shortest 17 n) = n := by
  obtain ⟨l, hl, hlog⟩ : ∃ l : ℕ, l < 17 ∧ (l : ℤ) = Int.log 10 (n : ℚ) := by
    refine ⟨Nat.log 10 n, ?_, (Int.log_natCast 10 n).symm⟩
    exact Nat.log_lt_of_lt_pow' (by norm_num) (hn.trans_le (by norm_num))
  have hsome := decimalOfLength_isSome (k := l + 1) hn (by push_cast; omega)
  obtain ⟨d, hd⟩ : ∃ d, (List.range 17).findSome? (fun k => binary64.decimalOfLength n (k + 1)) =
      some d := by
    refine Option.isSome_iff_exists.mp (List.findSome?_isSome_iff.mpr ?_)
    exact ⟨l, List.mem_range.mpr hl, hsome⟩
  rw [Format.shortest, hd, Option.getD_some]
  obtain ⟨before, k, after, hsplit, hk, hnone⟩ := List.findSome?_eq_some_iff.mp hd
  refine decimalValue_decimalOfLength hn ?_ hk
  -- the length `l + 1` would have been tried before a greater one
  by_contra hlt
  have hmem : l ∈ before := by
    have hsorted : (before ++ k :: after).Pairwise (· < ·) := hsplit ▸ List.pairwise_lt_range
    have hin : l ∈ before ++ k :: after := hsplit ▸ List.mem_range.mpr hl
    rcases List.mem_append.mp hin with h | h
    · exact h
    · exfalso
      have hge : k ≤ l := by
        rcases List.mem_cons.mp h with rfl | h
        · exact le_rfl
        · exact (List.rel_of_pairwise_cons (List.pairwise_append.mp hsorted).2.1 h).le
      omega
  rw [hnone l hmem] at hsome
  cases hsome

/-- A decimal is known by its sign and its absolute value. -/
theorem decimal_eq {d e : Decimal} (hs : d.negative = e.negative) (h : d.magnitude = e.magnitude) :
    d = e := by
  obtain ⟨b, c, x, hd⟩ := d
  obtain ⟨b', c', x', he⟩ := e
  obtain rfl : b = b' := hs
  have hpow : ∀ y : ℤ, (10 : ℚ) ^ y ≠ 0 := fun y => zpow_ne_zero y (by norm_num)
  rcases hd with hd | ⟨rfl, rfl⟩ <;> rcases he with he | ⟨rfl, rfl⟩
  · obtain ⟨rfl, rfl⟩ := normal_unique hd he h
    rfl
  · obtain rfl : c = 0 := by simpa [Decimal.magnitude, hpow] using h
    simp at hd
  · obtain rfl : c' = 0 := by simpa [Decimal.magnitude, hpow] using h.symm
    simp at he
  · rfl

theorem magnitude_ofNat (n : ℕ) : (Decimal.ofNat n).magnitude = n := by
  have h := Decimal.magnitude_ofParts false (n, 0)
  rwa [Format.decimalValue, zpow_zero, mul_one] at h

theorem negative_ofNat (n : ℕ) : (Decimal.ofNat n).negative = false :=
  Decimal.negative_ofParts false (n, 0)

/-- A small natural number is read as itself. -/
theorem nearestNumber_natCast {n : ℕ} (hn : n < 2 ^ 53) : nearestNumber false n = .ofNat n := by
  have hbig : (n : ℚ) < 2 ^ 1024 := by
    have hlt : (n : ℚ) < 2 ^ 53 := by exact_mod_cast hn
    exact hlt.trans_le (pow_le_pow_right₀ (by norm_num) (by norm_num))
  rw [nearestNumber, (round_natCast_eq_iff hn).mpr rfl, if_neg hbig.not_ge, ofNat]
  congr 1
  apply decimal_eq
  · rw [Decimal.negative_ofParts, negative_ofNat]
  · rw [Decimal.magnitude_ofParts, decimalValue_shortest hn, magnitude_ofNat]

@[simp] theorem rank_ofNat (n : ℕ) : rank (ofNat n) = some (finiteRank n) := by
  rw [ofNat, rank, Decimal.value, negative_ofNat, if_neg Bool.false_ne_true, magnitude_ofNat]

theorem double_flip (d : Decimal) :
    (⟨!d.negative, d.coefficient, d.exponent, d.normal⟩ : Decimal).double = -d.double := by
  cases hs : d.negative <;> simp [Decimal.double, Decimal.magnitude, hs]

/-- A positive sum is rounded once. -/
theorem add_finite {d e : Decimal} (h : 0 < d.double + e.double) :
    add (.finite d) (.finite e) = nearestNumber false (d.double + e.double) := by
  rw [add, neg, sub, double_flip, sub_neg_eq_add, if_neg h.ne', decide_eq_false h.le.not_gt,
    abs_of_pos h]

@[simp] theorem double_ofNat (n : ℕ) : (Decimal.ofNat n).double = binary64.round n := by
  rw [Decimal.double, negative_ofNat, if_neg Bool.false_ne_true, magnitude_ofNat]

/-- Small natural numbers add up exactly. -/
theorem add_natCast {m n : ℕ} (h : m + n < 2 ^ 53) :
    add (ofNat m) (ofNat n) = ofNat (m + n) := by
  have hsum : (Decimal.ofNat m).double + (Decimal.ofNat n).double = ((m + n : ℕ) : ℚ) := by
    rw [double_ofNat, double_ofNat, (round_natCast_eq_iff (by omega)).mpr rfl,
      (round_natCast_eq_iff (by omega)).mpr rfl]
    push_cast
    rfl
  rcases Nat.eq_zero_or_pos (m + n) with hzero | hpos
  · obtain ⟨rfl, rfl⟩ : m = 0 ∧ n = 0 := by omega
    rw [ofNat, add, neg, sub, double_flip, sub_neg_eq_add, hsum]
    rfl
  · rw [ofNat, ofNat, add_finite (hsum ▸ Nat.cast_pos.mpr hpos), hsum, nearestNumber_natCast h]

theorem add_ofNat {m n : ℕ} (_ : 0 < m) (h : m + n < 2 ^ 53) :
    add (ofNat m) (ofNat n) = ofNat (m + n) := add_natCast h

theorem lt_ofNat (m n : ℕ) : lt (ofNat m) (ofNat n) = decide (m < n) := by
  rw [Bool.eq_iff_iff, lt_iff (rank_ofNat m) (rank_ofNat n), decide_eq_true_iff]
  simp

theorem min_ofNat (m n : ℕ) : min (ofNat m) (ofNat n) = ofNat (Min.min m n) := by
  have hsign : negative (ofNat n) = false := negative_ofNat n
  rw [min_of_rank (rank_ofNat m) (rank_ofNat n), lt_ofNat, hsign, Bool.and_false, Bool.or_false]
  by_cases h : n < m
  · rw [if_pos (decide_eq_true h), Nat.min_eq_right h.le]
  · rw [if_neg (by simpa using h), Nat.min_eq_left (not_lt.mp h)]

/-- A value that is not below a small natural number is read as a Number that is not below it. -/
theorem le_nearestNumber {n : ℕ} (hn : n < 2 ^ 53) {q : ℚ} (h : (n : ℚ) ≤ q) :
    le (ofNat n) (nearestNumber false q) = true := by
  have hrep : binary64.Representable n := Format.representable_natCast hn.le (by decide)
  have hround := Format.le_round hrep h
  have hq : 0 ≤ q := (Nat.cast_nonneg n).trans h
  by_cases hbig : 2 ^ 1024 ≤ binary64.round q
  · rw [nearestNumber, if_pos hbig, le_iff (rank_ofNat n) rfl]
    exact WithBot.coe_le_coe.mpr le_top
  · set d := Decimal.ofParts false (binary64.shortest 17 (binary64.round q)) with hd
    have hneg : d.negative = false := Decimal.negative_ofParts _ _
    have hback : binary64.round d.magnitude = binary64.round q := by
      rw [hd, Decimal.magnitude_ofParts, Format.round_shortest 17 (Format.representable_round hq)]
    rw [nearestNumber, if_neg hbig, le_iff (rank_ofNat n) rfl, ← hd, Decimal.value, hneg,
      if_neg Bool.false_ne_true]
    refine WithBot.coe_le_coe.mpr (WithTop.coe_le_coe.mpr ?_)
    by_contra hlt
    -- the decimal would round to `n` and be the decimal of `n`
    rcases d.magnitude_nonneg.lt_or_eq with hpos | hzero
    · have hle := Format.round_le hrep hpos (not_le.mp hlt).le
      rw [hback] at hle
      have heq : binary64.round q = n := le_antisymm hle hround
      rw [hd, heq, Decimal.magnitude_ofParts, decimalValue_shortest hn] at hlt
      exact hlt le_rfl
    · rw [← hzero, Format.round_of_representable ⟨0, 0, by simp, by decide, by simp⟩] at hback
      rw [← hback] at hround
      exact hlt (hzero ▸ hround)

/-- A sum of natural numbers is not below a small natural number that neither rounding can pass. -/
theorem le_add_ofNat {l m n : ℕ} (hm : l ≤ m) (hl : 0 < l) (h : l + n < 2 ^ 53) :
    le (ofNat (l + n)) (add (ofNat m) (ofNat n)) = true := by
  have hround : (l : ℚ) ≤ binary64.round m :=
    Format.le_round (Format.representable_natCast (show l ≤ 2 ^ 53 by omega) (by decide))
      (by exact_mod_cast hm)
  have hsum : ((l + n : ℕ) : ℚ) ≤ (Decimal.ofNat m).double + (Decimal.ofNat n).double := by
    rw [double_ofNat, double_ofNat, (round_natCast_eq_iff (m := n) (by omega)).mpr rfl]
    push_cast
    linarith
  have hpos : (0 : ℚ) < (Decimal.ofNat m).double + (Decimal.ofNat n).double :=
    (Nat.cast_pos.mpr (by omega)).trans_le hsum
  rw [ofNat.eq_def m, ofNat.eq_def n, add_finite hpos]
  exact le_nearestNumber h hsum

end Integers

end OpenWop.Js.JsNumber
