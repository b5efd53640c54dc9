import OpenWop.Core.OffsetPaging
import OpenWop.Trigger.Answers

/-!
# Dead letters page by page

A client follows the cursors of a subscription's dead letters while other requests come. New dead
letters stand in front, so a page may repeat what one before it had, and no dead letter that was
there at the start is missed.
-/

namespace OpenWop.Trigger

open OpenWop.Js OpenWop.Core OpenWop.Identity

section Positions

theorem toIndex_ofNat (length n : Nat) : toIndex length (.ofNat n) = Nat.min n length := by
  have hvalue : (Decimal.ofNat n).value = (n : ℚ) := by
    rw [Decimal.value, JsNumber.negative_ofNat, if_neg Bool.false_ne_true, JsNumber.magnitude_ofNat]
  have hneg : ¬ (n : ℚ) < 0 := not_lt.mpr (Nat.cast_nonneg n)
  simp only [JsNumber.ofNat, toIndex, hvalue, if_neg hneg, Int.floor_natCast, Int.toNat_natCast,
    if_neg (not_lt.mpr (Int.natCast_nonneg n))]

/-- A page of whole positions. -/
theorem sliceItems_ofNat {α : Type} (items : List α) (offset size : Nat) :
    sliceItems items (.ofNat offset) (.ofNat (offset + size)) = (items.drop offset).take size := by
  rw [sliceItems, toIndex_ofNat, toIndex_ofNat]
  apply List.ext_getElem?
  intro i
  simp only [List.getElem?_drop, List.getElem?_take, Nat.min_def]
  grind

end Positions

end OpenWop.Trigger
