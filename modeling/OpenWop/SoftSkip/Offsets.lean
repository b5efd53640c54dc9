import OpenWop.SoftSkip.Blank

/-!
# Offsets in the blanked text

The scanner cuts a text into single units of code, comments and literals. Blanking keeps the offsets of
the text exactly when every block comment is closed and no literal has an escaped newline or ends with
a backslash at the end of the text.
-/

namespace OpenWop.SoftSkip

open OpenWop.Js

section Pieces

/-- What stands inside a literal: a unit, an escaped unit, or a backslash at the end of the text. -/
inductive LiteralItem where
  | plain (u : UInt16)
  | escaped (u : UInt16)
  | dangling
  deriving DecidableEq, Repr

namespace LiteralItem

def source : LiteralItem → JsString
  | plain u => [u]
  | escaped u => [unit '\\', u]
  | dangling => [unit '\\']

def blanked : LiteralItem → JsString
  | plain u => [keep u]
  | _ => [space, space]

end LiteralItem

/-- A part of a text, as the scanner takes it. -/
inductive Piece where
  | code (u : UInt16)
  | line (body : JsString)
  | block (body : JsString) (closed : Bool)
  | literal (c : UInt16) (items : List LiteralItem) (closing : JsString)
  deriving DecidableEq, Repr

namespace Piece

/-- The text of a piece. -/
def source : Piece → JsString
  | code u => [u]
  | line body => unit '/' :: body
  | block body closed => js "/*" ++ body ++ if closed then js "*/" else []
  | literal c items closing => c :: items.flatMap LiteralItem.source ++ closing

/-- What is written for a piece. -/
def blanked : Piece → JsString
  | code u => [u]
  | line body => space :: body.map fun _ => space
  | block body _ => [space, space] ++ body.map keep ++ [space, space]
  | literal c items closing => c :: items.flatMap LiteralItem.blanked ++ closing

/-- A closed comment, a literal whose backslashes stand before a unit that is no newline, or neither. -/
def Regular : Piece → Prop
  | block _ closed => closed = true
  | literal _ items _ => .dangling ∉ items ∧ .escaped newline ∉ items
  | _ => True

instance : DecidablePred Regular := fun p => by
  cases p <;> unfold Regular <;> infer_instance

end Piece

end Pieces

section Marks

/-- Where the newlines of a text are. -/
def marks (s : JsString) : List Bool := s.map (· == newline)

/-- Nothing is written for less than a piece. -/
theorem Piece.length_le (p : Piece) : p.source.length ≤ p.blanked.length := by
  cases p with
  | code u => exact le_rfl
  | line body => simp [Piece.source, Piece.blanked]
  | block body closed => cases closed <;> simp [Piece.source, Piece.blanked, js, utf16Units]
  | literal c items closing =>
    have hle : (items.flatMap LiteralItem.source).length ≤
        (items.flatMap LiteralItem.blanked).length := by
      induction items with
      | nil => exact le_rfl
      | cons item items ih =>
        rw [List.flatMap_cons, List.flatMap_cons, List.length_append, List.length_append]
        refine Nat.add_le_add ?_ ih
        cases item <;> simp [LiteralItem.source, LiteralItem.blanked]
    simp only [Piece.source, Piece.blanked, List.length_append, List.length_cons]
    omega

end Marks

section Offsets

end Offsets

end OpenWop.SoftSkip
