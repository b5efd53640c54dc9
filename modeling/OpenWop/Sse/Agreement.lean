import OpenWop.Sse.Frames

/-!
# The two event stream readers

Both readers make groups of `data` values between blank lines. The client takes a `data` line
without a colon for an empty value, which is one more line feed in the JSON text and says nothing.
It leaves what follows the last line feed out, where the other reader takes it for a line.
-/

namespace OpenWop.Sse

open OpenWop.Js
open OpenWop.Core (splitMatches)

section Groups

/-- The value of a line, if it is a `data:` line. -/
def dataOf (l : JsString) : List JsString :=
  if startsWith l (js "data:") then [dataValue l] else []

/-- The JSON values of a group of `data` values. -/
noncomputable def groupValues (values : List JsString) : List Json :=
  jsonValues (join (js "\n") values)

/-- The `data` values between blank lines, after `open` ones and before `tail`. -/
def groups (tail : List JsString) (before : List JsString) : List JsString → List (List JsString)
  | [] => [before ++ tail]
  | l :: lines =>
    if l = [] then before :: groups tail [] lines else groups tail (before ++ dataOf l) lines

/-- The `data` values after the last blank line. -/
def openData (before : List JsString) (lines : List JsString) : List JsString :=
  lines.foldl (fun values l => if l = [] then [] else values ++ dataOf l) before

theorem openData_blank (before lines : List JsString) :
    openData before ([] :: lines) = openData [] lines := rfl

theorem openData_line {l : JsString} (h : l ≠ []) (before lines : List JsString) :
    openData before (l :: lines) = openData (before ++ dataOf l) lines := by
  rw [openData, List.foldl_cons, if_neg h]
  rfl

/-- The groups that are closed do not depend on the tail. -/
theorem exists_groups_eq (before lines : List JsString) :
    ∃ closed, ∀ tail, groups tail before lines = closed ++ [openData before lines ++ tail] := by
  induction lines generalizing before with
  | nil => exact ⟨[], fun _ => rfl⟩
  | cons l lines ih =>
    by_cases hl : l = []
    · obtain ⟨closed, hclosed⟩ := ih []
      refine ⟨before :: closed, fun tail => ?_⟩
      rw [groups, if_pos hl, hclosed, hl, openData_blank]
      rfl
    · obtain ⟨closed, hclosed⟩ := ih (before ++ dataOf l)
      refine ⟨closed, fun tail => ?_⟩
      rw [groups, if_neg hl, hclosed, openData_line hl]

theorem groupValues_nil : groupValues [] = [] := rfl

/-- A blank line before the first value of a group closes nothing. -/
theorem groups_cons_values {before : List JsString} {l : JsString} (h : before = [] ∨ l ≠ [])
    (tail lines : List JsString) : (groups tail before (l :: lines)).flatMap groupValues =
      (groups tail (before ++ dataOf l) lines).flatMap groupValues := by
  by_cases hl : l = []
  · have hbefore : before = [] := h.resolve_right (not_not_intro hl)
    subst hl hbefore
    rfl
  · rw [groups, if_neg hl]

end Groups

section Frames

theorem frameData_eq (frame : JsString) :
    frameData frame = join (js "\n") ((splitMatches eolLength 0 frame).flatMap dataOf) := by
  have hlines : ∀ lines : List JsString, (lines.filter fun l => startsWith l (js "data:")).map
      dataValue = lines.flatMap dataOf := by
    intro lines
    induction lines with
    | nil => rfl
    | cons l lines ih =>
      rw [List.filter_cons, List.flatMap_cons, ← ih, dataOf]
      split
      · rfl
      · rfl
  rw [frameData, hlines]

theorem modifyHead_nil_append (frames : List (List JsString)) :
    frames.modifyHead ([] ++ ·) = frames := by
  cases frames with
  | nil => rfl
  | cons f frames => rfl

theorem modifyHead_line (before : List JsString) (l : JsString) (frames : List (List JsString)) :
    ((frames.modifyHead (l :: ·)).map (List.flatMap dataOf)).modifyHead (before ++ ·) =
      (frames.map (List.flatMap dataOf)).modifyHead (before ++ dataOf l ++ ·) := by
  cases frames with
  | nil => rfl
  | cons f frames =>
    change (before ++ (dataOf l ++ f.flatMap dataOf)) :: _ = (before ++ dataOf l ++ _) :: _
    rw [List.append_assoc]

/-- Frames and groups have the same values: a blank line in a frame is its first line. -/
theorem framesOf_values (rest : JsString) (before lines : List JsString)
    (h : before = [] ∨ lines.head? ≠ some []) :
    (((framesOf rest lines).map (List.flatMap dataOf)).modifyHead (before ++ ·)).flatMap
      groupValues = (groups (dataOf rest) before lines).flatMap groupValues := by
  fun_induction framesOf rest lines generalizing before with
  | case1 =>
    change groupValues (before ++ (dataOf rest ++ [])) ++ [] =
      groupValues (before ++ dataOf rest) ++ []
    rw [List.append_nil (dataOf rest)]
  | case2 l =>
    have hl : before = [] ∨ l ≠ [] := h.imp_right fun hne hl => hne (by rw [hl]; rfl)
    rw [groups_cons_values hl]
    change groupValues (before ++ (dataOf l ++ (dataOf rest ++ []))) ++ [] =
      groupValues (before ++ dataOf l ++ dataOf rest) ++ []
    rw [List.append_nil (dataOf rest), List.append_assoc]
  | case3 l lines ih =>
    have hl : before = [] ∨ l ≠ [] := h.imp_right fun hne hl => hne (by rw [hl]; rfl)
    have hrest := ih [] (Or.inl rfl)
    rw [modifyHead_nil_append] at hrest
    rw [groups_cons_values hl]
    change groupValues (before ++ (dataOf l ++ [])) ++ _ = groupValues (before ++ dataOf l) ++ _
    rw [List.append_nil]
    exact congrArg (groupValues (before ++ dataOf l) ++ ·) hrest
  | case4 l b lines hb ih =>
    have hl : before = [] ∨ l ≠ [] := h.imp_right fun hne hl => hne (by rw [hl]; rfl)
    have hrest := ih (before ++ dataOf l) (Or.inr fun hhead => hb (Option.some.inj hhead))
    rw [groups_cons_values hl, ← hrest, modifyHead_line]

/-- The other reader's values are those of the groups, with what follows the last line feed. -/
theorem streamValues_eq (text : JsString) :
    streamValues text = (groups (dataOf (unterminated text)) [] (terminatedLines text)).flatMap
      groupValues := by
  have hframes : streamValues text = ((splitMatches blankLength 0 text).map
      (splitMatches eolLength 0)).flatMap fun lines => groupValues (lines.flatMap dataOf) := by
    rw [streamValues, List.flatMap_map]
    simp only [frameData_eq, groupValues]
  rw [hframes, frames_eq, ← framesOf_values _ _ _ (Or.inl rfl), modifyHead_nil_append,
    List.flatMap_map]

end Frames

section Client

/-- The values with empty ones put in between. -/
inductive Padded : List JsString → List JsString → Prop
  | nil : Padded [] []
  | cons (v : JsString) {p q : List JsString} : Padded p q → Padded (v :: p) (v :: q)
  | pad {p q : List JsString} : Padded p q → Padded ([] :: p) q

theorem Padded.concat {p q : List JsString} (h : Padded p q) (v : JsString) :
    Padded (p ++ [v]) (q ++ [v]) := by
  induction h with
  | nil => exact .cons v .nil
  | cons w _ ih => exact .cons w ih
  | pad _ ih => exact .pad ih

theorem Padded.concat_pad {p q : List JsString} (h : Padded p q) : Padded (p ++ [[]]) q := by
  induction h with
  | nil => exact .pad .nil
  | cons w _ ih => exact .cons w ih
  | pad _ ih => exact .pad ih

theorem jsonValues_congr {data data' : JsString} (h : jsonParse data = jsonParse data') :
    jsonValues data = jsonValues data' := by
  have hnone : ∀ d, jsonParse d = none → jsonValues d = [] := by
    intro d hd
    rw [jsonValues, hd]
    split <;> rfl
  by_cases hd : data = []
  · rw [hnone data (hd ▸ jsonParse_nil), hnone data' (h ▸ hd ▸ jsonParse_nil)]
  · by_cases hd' : data' = []
    · rw [hnone data (h.trans (hd' ▸ jsonParse_nil)), hnone data' (hd' ▸ jsonParse_nil)]
    · rw [jsonValues, jsonValues, if_neg hd, if_neg hd', h]

/-- Empty values say nothing. -/
theorem Padded.groupValues_eq {p q : List JsString} (h : Padded p q) :
    groupValues p = groupValues q := by
  have hbefore : ∀ before, groupValues (before ++ p) = groupValues (before ++ q) := by
    induction h with
    | nil => exact fun _ => rfl
    | cons v _ ih =>
      intro before
      have hv := ih (before ++ [v])
      rwa [List.append_assoc, List.append_assoc] at hv
    | pad _ ih =>
      intro before
      exact (jsonValues_congr (jsonParse_empty_line before _)).trans (ih before)
  exact hbefore []

theorem fieldOf_dataLine {l : JsString} (h : startsWith l (js "data:") = true) :
    fieldOf l = (js "data", dataValue l) := by
  obtain ⟨rest, rfl⟩ := startsWith_iff.mp h
  have hcolon : indexOf (js "data:" ++ rest) (js ":") = some 4 :=
    indexOf_append (c := unit ':') (s := js "data") (t := rest) (by decide)
  rw [fieldOf, hcolon]
  rfl

/-- A `data` field without a colon has an empty value. -/
theorem fieldOf_bare {l : JsString} (hfield : (fieldOf l).1 = js "data")
    (h : startsWith l (js "data:") = false) : (fieldOf l).2 = [] := by
  by_cases hmem : unit ':' ∈ l
  · obtain ⟨front, rest, rfl, hfront⟩ := List.eq_append_cons_of_mem hmem
    have hcolon : indexOf (front ++ unit ':' :: rest) (js ":") = some front.length :=
      indexOf_append hfront
    have hname : (fieldOf (front ++ unit ':' :: rest)).1 = front := by
      rw [fieldOf, hcolon]
      exact List.take_left
    have hlead : startsWith (front ++ unit ':' :: rest) (js "data:") = true := by
      rw [← hname, hfield]
      exact startsWith_append (js "data:") rest
    exact absurd (h.symm.trans hlead) Bool.false_ne_true
  · have hcolon : indexOf l (js ":") = none := indexOf_of_not_mem hmem
    rw [fieldOf, hcolon]
    rfl

/-- The values of the events of a client. -/
noncomputable def Fields.values (f : Fields) : List Json :=
  f.events.flatMap fun e => jsonValues e.data

theorem flushEvent_pendingData (f : Fields) : f.flushEvent.pendingData = [] := by
  rw [Fields.flushEvent]
  split
  · next h => exact h
  · rfl

theorem values_flushEvent (f : Fields) :
    f.flushEvent.values = f.values ++ groupValues f.pendingData := by
  rw [Fields.flushEvent]
  split
  · next h =>
    rw [h, groupValues_nil, List.append_nil]
    rfl
  · rw [Fields.values, List.flatMap_append]
    exact congrArg (f.values ++ ·) (List.append_nil _)

theorem line_nil (f : Fields) : f.line [] = f.flushEvent := if_pos rfl

/-- A line that is not blank closes no event and adds what it has of data. -/
theorem line_data {f : Fields} {before : List JsString} {l : JsString} (hl : l ≠ [])
    (h : Padded f.pendingData before) : (f.line l).values = f.values ∧
      Padded (f.line l).pendingData (before ++ dataOf l) := by
  rw [Fields.line, if_neg hl]
  by_cases hdata : startsWith l (js "data:") = true
  · have hcomment : startsWith l (js ":") = false := by
      obtain ⟨rest, rfl⟩ := startsWith_iff.mp hdata
      rfl
    rw [hcomment, fieldOf_dataLine hdata, dataOf, if_pos hdata]
    exact ⟨rfl, h.concat _⟩
  · have hnone : dataOf l = [] := if_neg hdata
    rw [hnone, List.append_nil]
    split
    · exact ⟨rfl, h⟩
    · dsimp only
      split
      · exact ⟨rfl, h⟩
      · split
        · next hfield =>
          rw [fieldOf_bare hfield (by simpa using hdata)]
          exact ⟨rfl, h.concat_pad⟩
        · split
          · exact ⟨rfl, h⟩
          · exact ⟨rfl, h⟩

/-- The client's values are those of the groups, without what follows the last line feed. -/
theorem values_lines {f : Fields} {before : List JsString} (h : Padded f.pendingData before)
    (lines : List JsString) : (lines.foldl Fields.line f).flushEvent.values =
      f.values ++ (groups [] before lines).flatMap groupValues := by
  induction lines generalizing f before with
  | nil =>
    rw [List.foldl_nil, values_flushEvent, h.groupValues_eq]
    change f.values ++ groupValues before = f.values ++ (groupValues (before ++ []) ++ [])
    rw [List.append_nil, List.append_nil]
  | cons l lines ih =>
    rw [List.foldl_cons]
    by_cases hl : l = []
    · have hpending : Padded f.flushEvent.pendingData [] := by
        rw [flushEvent_pendingData]
        exact .nil
      rw [hl, line_nil, ih hpending, values_flushEvent, h.groupValues_eq, groups, if_pos rfl,
        List.append_assoc]
      rfl
    · obtain ⟨hvalues, hpadded⟩ := line_data hl h
      rw [ih hpadded, hvalues, groups, if_neg hl]

end Client

section Agreement

/-- What follows the last line feed is no `data:` line, or the JSON values of the last frame are
the same with and without it. -/
def TailSilent (text : JsString) : Prop :=
  startsWith (unterminated text) (js "data:") = false ∨
    groupValues (openData [] (terminatedLines text) ++ [dataValue (unterminated text)]) =
      groupValues (openData [] (terminatedLines text))

theorem tailSilent_iff {text : JsString} : TailSilent text ↔
    groupValues (openData [] (terminatedLines text) ++ dataOf (unterminated text)) =
      groupValues (openData [] (terminatedLines text)) := by
  rw [TailSilent, dataOf]
  cases hdata : startsWith (unterminated text) (js "data:") with
  | true => simp
  | false => simp

/-- The two readers find the same JSON values in a body exactly where its unterminated tail is
silent. -/
theorem readers_agree_iff (chunks : List (List UInt8)) :
    (∃ result, subscribe ⟨200, some ⟨chunks, .done⟩⟩ = .ok result ∧
      (result.events.flatMap fun e => jsonValues e.data) =
        streamValues (decodeText chunks.flatten)) ↔ TailSilent (decodeText chunks.flatten) := by
  let text := decodeText chunks.flatten
  have hclient : ((readEvents chunks).flatMap fun e => jsonValues e.data) =
      (groups [] [] (terminatedLines text)).flatMap groupValues := by
    rw [readEvents_eq]
    exact values_lines .nil _
  obtain ⟨closed, hclosed⟩ := exists_groups_eq [] (terminatedLines text)
  have hsubscribe : subscribe ⟨200, some ⟨chunks, .done⟩⟩ =
      .ok ⟨readEvents chunks, 200, .server⟩ := rfl
  rw [hsubscribe, tailSilent_iff]
  constructor
  · rintro ⟨result, hresult, hvalues⟩
    rw [← Except.ok.inj hresult, hclient, streamValues_eq, hclosed, hclosed, List.append_nil,
      List.flatMap_append, List.flatMap_append] at hvalues
    have htail := List.append_cancel_left hvalues
    simpa using htail.symm
  · intro htail
    refine ⟨_, rfl, ?_⟩
    rw [hclient, streamValues_eq, hclosed, hclosed, List.append_nil, List.flatMap_append,
      List.flatMap_append, List.flatMap_singleton, List.flatMap_singleton]
    exact congrArg _ htail.symm

end Agreement

section Dropped

/-- A frame whose server dropped the line feeds after it. -/
def droppedEnd : List UInt8 := utf8 (js "data: \x7b\x7d")

theorem jsonValues_empty_object : jsonValues (js "\x7b\x7d") = [.obj []] := by
  have hws : Grammar.Ws [] := fun _ h => absurd h List.not_mem_nil
  have htext : Grammar.Text (js "\x7b\x7d") (.obj []) :=
    @Grammar.Element.value [] [] _ _ hws (Grammar.Value.emptyObj hws) hws
  rw [jsonValues, jsonParse_of_text htext]
  rfl

/-- The client drops the event, the other reader keeps it. -/
theorem droppedEnd_readers_differ :
    subscribe ⟨200, some ⟨[droppedEnd], .done⟩⟩ = .ok ⟨[], 200, .server⟩ ∧
      streamValues (decodeText [droppedEnd].flatten) = [.obj []] := by
  have htext : decodeText [droppedEnd].flatten = js "data: \x7b\x7d" := by decide
  have hlines : terminatedLines (js "data: \x7b\x7d") = [] := by decide
  have hevents : readEvents [droppedEnd] = [] := by
    rw [readEvents_eq, eventsOf, htext, hlines]
    rfl
  have hframes : splitMatches blankLength 0 (js "data: \x7b\x7d") = [js "data: \x7b\x7d"] := by
    decide
  have hdata : frameData (js "data: \x7b\x7d") = js "\x7b\x7d" := by decide
  constructor
  · change Except.ok (⟨readEvents [droppedEnd], 200, .server⟩ : SseSubscribeResult) = _
    rw [hevents]
  · rw [htext, streamValues, hframes, List.flatMap_singleton, hdata, jsonValues_empty_object]

end Dropped

end OpenWop.Sse
