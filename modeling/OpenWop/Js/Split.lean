import OpenWop.Core.Replace
import OpenWop.Js.Text

/-!
# Splitting and joining

`s.split(x).join(y)` puts `y` for every occurrence of `x`.
-/

namespace OpenWop.Js

open OpenWop.Replace

theorem join_cons_pieces (y : JsString) (a : UInt16) {parts : List JsString} (h : parts ≠ []) :
    join y (parts.modifyHead (a :: ·)) = a :: join y parts := by
  match parts, h with
  | [part], _ => rfl
  | part :: next :: parts, _ => simp [join]

/-- Splitting at a word and joining with another replaces every occurrence. -/
theorem join_pieces (x y before s : JsString) (k : Nat) :
    join y (pieces x k s) = replaceFrom (fun _ _ => true) x y before k s := by
  induction s generalizing before k with
  | nil => cases k <;> rfl
  | cons a s ih =>
    cases k with
    | succ k => exact ih _ k
    | zero =>
      rw [pieces, replaceFrom, Bool.and_true]
      split
      · rw [join, List.nil_append, ih]
        exact pieces_ne_nil x (x.length - 1) s
      · rw [join_cons_pieces y a (pieces_ne_nil x 0 s), ih]

end OpenWop.Js
