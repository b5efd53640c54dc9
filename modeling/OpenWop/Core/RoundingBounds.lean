import OpenWop.Core.Rounding

/-!
# Rounding keeps to the same side

A representable value that is not above a value is not above its rounding, and one that is not
below it is not below its rounding. Nothing here names a program.
-/

namespace OpenWop.Rounding

section Nearest

theorem le_roundHalfEven {q : ℚ} {n : ℤ} (h : (n : ℚ) ≤ q) : n ≤ roundHalfEven q := by
  have hfloor := Int.le_floor.mpr h
  rcases roundHalfEven_eq_or q with hr | hr <;> omega

theorem roundHalfEven_intCast (n : ℤ) : roundHalfEven n = n := by
  rw [roundHalfEven, Int.floor_intCast, if_pos (by simp)]

theorem roundHalfEven_le_of_le {q : ℚ} {n : ℤ} (h : q ≤ n) : roundHalfEven q ≤ n := by
  rcases h.lt_or_eq with h | rfl
  · exact roundHalfEven_le h
  · exact (roundHalfEven_intCast n).le

end Nearest

namespace Format

variable {F : Format}

/-- A representable value is a multiple of the unit in the last place of `q`, or it is not above the
power of two at or below `q`. -/
theorem Representable.multiple_or_le {x q : ℚ} (hx : F.Representable x) :
    (∃ n : ℤ, x = n * 2 ^ F.ulpExponent q) ∨
      (F.ulpExponent q = Int.log 2 q - (F.precision - 1) ∧ x ≤ 2 ^ Int.log 2 q) := by
  obtain ⟨m, e, hm, he, rfl⟩ := hx
  rcases le_or_gt (F.ulpExponent q) e with hle | hlt
  · left
    obtain ⟨k, hk⟩ := Int.eq_ofNat_of_zero_le (sub_nonneg.mpr hle)
    refine ⟨m * 2 ^ k, ?_⟩
    have hsplit : e = k + F.ulpExponent q := by omega
    rw [hsplit, zpow_add₀ (by norm_num), zpow_natCast]
    push_cast
    ring
  · right
    have hmax : F.ulpExponent q = Int.log 2 q - (F.precision - 1) := by
      unfold ulpExponent at hlt ⊢
      omega
    refine ⟨hmax, ?_⟩
    have hexp : (F.precision : ℤ) + e ≤ Int.log 2 q := by omega
    calc (m : ℚ) * 2 ^ e ≤ 2 ^ F.precision * 2 ^ e := by gcongr; exact_mod_cast hm
      _ = 2 ^ ((F.precision : ℤ) + e) := by rw [zpow_add₀ (by norm_num), zpow_natCast]
      _ ≤ 2 ^ Int.log 2 q := zpow_le_zpow_right₀ (by norm_num) hexp

/-- The power of two at or below a value is a multiple of its unit in the last place. -/
theorem zpow_log_eq {q : ℚ} (h : F.ulpExponent q = Int.log 2 q - (F.precision - 1)) :
    (2 : ℚ) ^ Int.log 2 q = (2 ^ (F.precision - 1) : ℤ) * 2 ^ F.ulpExponent q := by
  have hpos := F.precision_pos
  have hsplit : Int.log 2 q = (F.precision - 1 : ℕ) + F.ulpExponent q := by omega
  push_cast
  conv_lhs => rw [hsplit, zpow_add₀ (by norm_num), zpow_natCast]

theorem le_round {x q : ℚ} (hx : F.Representable x) (h : x ≤ q) : x ≤ F.round q := by
  -- a multiple of the unit stays on its side
  have hmultiple : ∀ n : ℤ, n * 2 ^ F.ulpExponent q ≤ q → n * 2 ^ F.ulpExponent q ≤ F.round q := by
    intro n hn
    have hint := le_roundHalfEven ((le_div_iff₀ (by positivity)).mpr hn)
    rw [round]
    gcongr
  rcases hx.multiple_or_le (q := q) with ⟨n, rfl⟩ | ⟨hulp, hle⟩
  · exact hmultiple n h
  · rcases le_or_gt q 0 with hq | hq
    · have hzero : x = 0 := by
        obtain ⟨m, e, -, -, rfl⟩ := hx
        exact le_antisymm (h.trans hq) (by positivity)
      rw [hzero] at h ⊢
      simpa using hmultiple 0 (by simpa using h)
    · refine hle.trans ?_
      rw [zpow_log_eq hulp]
      refine hmultiple _ ?_
      rw [← zpow_log_eq hulp]
      exact_mod_cast Int.zpow_log_le_self (b := 2) (by norm_num) hq

theorem round_le {x q : ℚ} (hx : F.Representable x) (hq : 0 < q) (h : q ≤ x) : F.round q ≤ x := by
  rcases hx.multiple_or_le (q := q) with ⟨n, rfl⟩ | ⟨-, hle⟩
  · have hint := roundHalfEven_le_of_le ((div_le_iff₀ (by positivity)).mpr h)
    rw [round]
    gcongr
  · have hlog : (2 : ℚ) ^ Int.log 2 q ≤ q := by
      exact_mod_cast Int.zpow_log_le_self (b := 2) (by norm_num) hq
    obtain rfl : q = x := le_antisymm h (hle.trans hlog)
    exact (round_of_representable hx).le

/-- A value below half of the least one is rounded to zero. -/
theorem round_eq_zero {x : ℚ} (hx : 0 ≤ x) (h : x < 2 ^ (F.minExponent - 1)) : F.round x = 0 := by
  rcases hx.lt_or_eq with hpos | rfl
  · have hlog : Int.log 2 x < F.minExponent - 1 :=
      (Int.lt_zpow_iff_log_lt (by norm_num) hpos).mp (by exact_mod_cast h)
    have hulp : F.ulpExponent x = F.minExponent := by
      have := F.precision_pos
      unfold ulpExponent
      omega
    have hhalf : x / 2 ^ F.minExponent < 1 / 2 := by
      rw [div_lt_iff₀ (by positivity)]
      refine h.trans_eq ?_
      rw [zpow_sub₀ (by norm_num)]
      ring
    have hfloor : ⌊x / 2 ^ F.minExponent⌋ = 0 :=
      Int.floor_eq_zero_iff.mpr ⟨by positivity, by linarith⟩
    rw [round, hulp, roundHalfEven, hfloor, if_pos (by simpa using hhalf)]
    simp
  · simp [round, roundHalfEven]

/-- A natural number with no more bits than the precision is representable. -/
theorem representable_natCast {n : ℕ} (h : n ≤ 2 ^ F.precision) (hF : F.minExponent ≤ 0) :
    F.Representable n :=
  ⟨n, 0, h, hF, by simp⟩

end Format

end OpenWop.Rounding
