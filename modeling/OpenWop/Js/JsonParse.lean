import OpenWop.Js.GrammarUnique
import OpenWop.Js.LineFeeds

/-!
# JSON.parse

The value of a text is read off its tree; a text without a tree has none. Of the members of one
name the last one counts, at the place of the first. Nothing here names a program.
-/

namespace OpenWop.Js

namespace JsonTree

mutual

/-- The value `JSON.parse` makes of a tree. -/
def parsed : JsonTree → Json
  | .null => .null
  | .bool b => .bool b
  | .num l => .num l.value
  | .str s => .str s
  | .arr items => .arr (parsedItems items)
  | .obj members => .obj (parsedMembers [] members)

def parsedItems : List JsonTree → List Json
  | [] => []
  | t :: ts => parsed t :: parsedItems ts

/-- The members after those before them. -/
def parsedMembers (before : Record JsString Json) : List (JsString × JsonTree) →
    Record JsString Json
  | [] => before
  | (k, t) :: ms => parsedMembers (Record.set before k (parsed t)) ms

end

end JsonTree

open Classical in
/-- `JSON.parse(text)`, nothing where it throws. -/
noncomputable def jsonParse (text : JsString) : Option Json :=
  if h : ∃ t, Grammar.Text text t then some h.choose.parsed else none

theorem jsonParse_of_text {text : JsString} {t : JsonTree} (h : Grammar.Text text t) :
    jsonParse text = some t.parsed := by
  have hex : ∃ t, Grammar.Text text t := ⟨t, h⟩
  rw [jsonParse, dif_pos hex, text_unique hex.choose_spec h]

theorem jsonParse_of_not_text {text : JsString} (h : ∀ t, ¬ Grammar.Text text t) :
    jsonParse text = none := dif_neg fun ⟨t, ht⟩ => h t ht

/-- Texts of the same trees have one value. -/
theorem jsonParse_congr {text text' : JsString}
    (h : ∀ t, Grammar.Text text t ↔ Grammar.Text text' t) : jsonParse text = jsonParse text' := by
  by_cases hex : ∃ t, Grammar.Text text' t
  · obtain ⟨t, ht⟩ := hex
    rw [jsonParse_of_text ht, jsonParse_of_text ((h t).mpr ht)]
  · rw [jsonParse_of_not_text fun t ht => hex ⟨t, ht⟩,
      jsonParse_of_not_text fun t ht => hex ⟨t, (h t).mp ht⟩]

@[simp] theorem jsonParse_nil : jsonParse [] = none :=
  jsonParse_of_not_text fun _ => Grammar.not_text_nil

section LineFeeds

theorem jsonParse_feed_feed (a b : JsString) :
    jsonParse (a ++ (unit '\n' :: unit '\n' :: b)) = jsonParse (a ++ (unit '\n' :: b)) :=
  jsonParse_congr fun _ => Grammar.text_feed_feed a b

theorem jsonParse_feed_cons (text : JsString) :
    jsonParse (unit '\n' :: text) = jsonParse text :=
  jsonParse_congr fun _ => Grammar.text_feed_cons text

theorem jsonParse_concat_feed (text : JsString) :
    jsonParse (text ++ [unit '\n']) = jsonParse text :=
  jsonParse_congr fun _ => Grammar.text_concat_feed text

theorem join_append_of_ne_nil {sep : JsString} {a b : List JsString} (ha : a ≠ []) (hb : b ≠ []) :
    join sep (a ++ b) = join sep a ++ (sep ++ join sep b) := by
  induction a with
  | nil => exact absurd rfl ha
  | cons v a ih =>
    cases a with
    | nil =>
      obtain ⟨w, b, rfl⟩ := List.exists_cons_of_ne_nil hb
      change v ++ sep ++ join sep (w :: b) = v ++ (sep ++ join sep (w :: b))
      rw [List.append_assoc]
    | cons w a =>
      have hrest := ih (List.cons_ne_nil w a)
      change v ++ sep ++ join sep (w :: a ++ b) = v ++ sep ++ join sep (w :: a) ++ _
      rw [hrest, ← List.append_assoc]

/-- An empty line among the lines of a text says nothing. -/
theorem jsonParse_empty_line (a b : List JsString) :
    jsonParse (join (js "\n") (a ++ [] :: b)) = jsonParse (join (js "\n") (a ++ b)) := by
  rcases List.eq_nil_or_concat a with rfl | ⟨a', v, ha⟩
  · cases b with
    | nil => rfl
    | cons w b => exact jsonParse_feed_cons _
  have hne : a ≠ [] := by
    rw [ha]
    simp
  rw [join_append_of_ne_nil hne (List.cons_ne_nil _ _)]
  cases b with
  | nil =>
    rw [List.append_nil]
    exact jsonParse_concat_feed _
  | cons w b =>
    rw [join_append_of_ne_nil hne (List.cons_ne_nil _ _)]
    exact jsonParse_feed_feed _ _

end LineFeeds

end OpenWop.Js
