import OpenWop.Core.SplitMatches
import OpenWop.Js.JsonParse
import OpenWop.Sse.Chunks

/-!
# Reading a whole event stream

The other reader takes the whole text, cuts it into frames at blank lines and reads the `data:`
lines of each. Its frames are the lines the client reads, grouped, with what follows the last line
feed as one line more.
-/

namespace OpenWop.Sse

open OpenWop.Js
open OpenWop.Core (splitMatches splitMatches_match splitMatches_append splitMatches_of_none)

section Patterns

/-- The length of a match of `/\r?\n/`. -/
def eolLength (s : JsString) : Nat :=
  if startsWith s (js "\r\n") then 2 else if startsWith s (js "\n") then 1 else 0

/-- The length of a match of `/\r?\n\r?\n/`. -/
def blankLength (s : JsString) : Nat :=
  if eolLength s = 0 ∨ eolLength (s.drop (eolLength s)) = 0 then 0
  else eolLength s + eolLength (s.drop (eolLength s))

end Patterns

section Source

/-- The value of a `data:` line. -/
def dataValue (l : JsString) : JsString :=
  let value := l.drop 5
  if startsWith value (js " ") then value.drop 1 else value

/-- The `data` of a frame. -/
def frameData (frame : JsString) : JsString :=
  join (js "\n") (((splitMatches eolLength 0 frame).filter fun l => startsWith l (js "data:")).map
    dataValue)

/-- The JSON values a `data` text is parsed to: the items of an array, else the one value. -/
noncomputable def jsonValues (data : JsString) : List Json :=
  if data = [] then []
  else match jsonParse data with
    | none => []
    | some (.arr items) => items
    | some value => [value]

/-- The values parsed from a text, frame by frame. -/
noncomputable def streamValues (text : JsString) : List Json :=
  (splitMatches blankLength 0 text).flatMap fun frame => jsonValues (frameData frame)

/-- `e && typeof e === 'object'`. -/
def isObjectValue : Json → Bool
  | .arr _ => true
  | .obj _ => true
  | _ => false

/-- `await res.text()`: an abort leaves the text empty. -/
def responseText (body : Body) : Except JsString JsString :=
  match body.ending with
  | .done => .ok (decodeText body.chunks.flatten)
  | .aborted _ => .ok []
  | .failed message => .error message

/-- `streamEvents`, from the response on: the status and the events, or `null`. -/
noncomputable def streamEvents (res : Response) : Option (Nat × List Json) :=
  match res.body with
  | none => some (res.status, [])
  | some body =>
    if res.status ≠ 200 then some (res.status, [])
    else match responseText body with
      | .ok text => some (res.status, (streamValues text).filter isObjectValue)
      | .error _ => none

end Source

section Ends

/-- A line end. -/
def IsEol (e : JsString) : Prop := e = js "\n" ∨ e = js "\r\n"

theorem IsEol.ne_nil {e : JsString} (h : IsEol e) : e ≠ [] := by
  rcases h with rfl | rfl
  · decide
  · decide

theorem IsEol.of_suffix {e f back : JsString} {u : UInt16} (h : IsEol e)
    (heq : e = f ++ u :: back) : IsEol (u :: back) := by
  cases f with
  | nil =>
    rw [List.nil_append] at heq
    rwa [← heq]
  | cons v f =>
    rcases h with rfl | rfl
    · exact absurd (List.cons.inj heq).2 (by simp)
    · cases f with
      | nil => exact Or.inl (List.cons.inj heq).2.symm
      | cons v' f => exact absurd (List.cons.inj (List.cons.inj heq).2).2 (by simp)

theorem eolLength_append {e : JsString} (h : IsEol e) (rest : JsString) :
    eolLength (e ++ rest) = e.length := by
  rcases h with rfl | rfl
  · rfl
  · rfl

/-- Where there is no match there is no line end, and where there is one it is a line end. -/
theorem eolLength_cases (s : JsString) :
    eolLength s = 0 ∨ ∃ e rest, IsEol e ∧ s = e ++ rest := by
  rw [eolLength]
  split
  · next h =>
    obtain ⟨rest, rfl⟩ := startsWith_iff.mp h
    exact Or.inr ⟨_, rest, Or.inr rfl, rfl⟩
  · split
    · next h =>
      obtain ⟨rest, rfl⟩ := startsWith_iff.mp h
      exact Or.inr ⟨_, rest, Or.inl rfl, rfl⟩
    · exact Or.inl rfl

/-- A match starts at a line feed, or at a carriage return before one. -/
theorem eolLength_cons_eq_zero {u : UInt16} {s : JsString} (hfeed : u ≠ unit '\n')
    (hreturn : u = unit '\r' → s.head? ≠ some (unit '\n')) : eolLength (u :: s) = 0 := by
  rcases eolLength_cases (u :: s) with h | ⟨e, rest, rfl | rfl, heq⟩
  · exact h
  · exact absurd (List.cons.inj heq).1 hfeed
  · obtain ⟨hu, hs⟩ := List.cons.inj heq
    refine absurd ?_ (hreturn hu)
    rw [hs]
    rfl

theorem blankLength_of_eolLength {s : JsString} (h : eolLength s = 0) : blankLength s = 0 :=
  if_pos (Or.inl h)

theorem blankLength_single {e rest : JsString} (he : IsEol e) (hrest : eolLength rest = 0) :
    blankLength (e ++ rest) = 0 := by
  rw [blankLength, eolLength_append he, List.drop_left]
  exact if_pos (Or.inr hrest)

theorem blankLength_double {e e' rest : JsString} (he : IsEol e) (he' : IsEol e') :
    blankLength (e ++ (e' ++ rest)) = (e ++ e').length := by
  have hpos := List.length_pos_of_ne_nil he.ne_nil
  have hpos' := List.length_pos_of_ne_nil he'.ne_nil
  rw [blankLength, eolLength_append he, List.drop_left, eolLength_append he', List.length_append]
  exact if_neg (by omega)

end Ends

section Lines

/-- A line before its line end. -/
structure IsLine (w e : JsString) : Prop where
  eol : IsEol e
  plain : unit '\n' ∉ w
  whole : e = js "\n" → w.getLast? ≠ some (unit '\r')

theorem isLine_nil {e : JsString} (he : IsEol e) : IsLine [] e :=
  ⟨he, List.not_mem_nil, fun _ h => nomatch h⟩

theorem withoutCr_concat (w : JsString) : withoutCr (w ++ js "\r") = w := by
  have hend : endsWith (w ++ js "\r") (js "\r") = true := endsWith_iff.mpr ⟨w, rfl⟩
  exact List.append_cancel_right (dropSuffix_append hend)

theorem withoutCr_of_last {w : JsString} (h : w.getLast? ≠ some (unit '\r')) :
    withoutCr w = w := by
  refine if_neg fun hend => h ?_
  obtain ⟨front, rfl⟩ := endsWith_iff.mp hend
  exact List.getLast?_concat

theorem terminatedLines_line {w e : JsString} (h : IsLine w e) (rest : JsString) :
    terminatedLines (w ++ (e ++ rest)) = w :: terminatedLines rest := by
  rcases h.eol with rfl | rfl
  · exact (terminatedLines_cut h.plain rest).trans
      (congrArg (· :: terminatedLines rest) (withoutCr_of_last (h.whole rfl)))
  · have hcut : w ++ (js "\r\n" ++ rest) = w ++ js "\r" ++ unit '\n' :: rest := by
      rw [List.append_assoc]
      rfl
    have hplain : unit '\n' ∉ w ++ js "\r" := by
      rw [List.mem_append, not_or]
      exact ⟨h.plain, by decide⟩
    rw [hcut, terminatedLines_cut hplain, withoutCr_concat]

theorem unterminated_line {w e : JsString} (h : IsLine w e) (rest : JsString) :
    unterminated (w ++ (e ++ rest)) = unterminated rest := by
  rcases h.eol with rfl | rfl
  · exact unterminated_cut h.plain rest
  · have hcut : w ++ (js "\r\n" ++ rest) = w ++ js "\r" ++ unit '\n' :: rest := by
      rw [List.append_assoc]
      rfl
    have hplain : unit '\n' ∉ w ++ js "\r" := by
      rw [List.mem_append, not_or]
      exact ⟨h.plain, by decide⟩
    rw [hcut, unterminated_cut hplain]

/-- A text with a line feed starts with a line. -/
theorem exists_line {text : JsString} (h : unit '\n' ∈ text) :
    ∃ w e rest, text = w ++ (e ++ rest) ∧ IsLine w e := by
  obtain ⟨front, rest, rfl, hfront⟩ := List.eq_append_cons_of_mem h
  by_cases hlast : front.getLast? = some (unit '\r')
  · obtain ⟨w, rfl⟩ := List.getLast?_eq_some_iff.mp hlast
    refine ⟨w, js "\r\n", rest, ?_, Or.inr rfl, fun hw => hfront ?_, fun heq => ?_⟩
    · rw [List.append_assoc]
      rfl
    · exact List.mem_append_left _ hw
    · exact absurd heq (by decide)
  · exact ⟨front, js "\n", rest, rfl, Or.inl rfl, hfront, fun _ => hlast⟩

/-- A text that starts with no line end starts with no blank line. -/
theorem head_terminatedLines_ne {text : JsString} (h : eolLength text = 0) :
    (terminatedLines text).head? ≠ some [] := by
  intro hhead
  by_cases hmem : unit '\n' ∈ text
  · obtain ⟨w, e, rest, rfl, hline⟩ := exists_line hmem
    rw [terminatedLines_line hline, List.head?_cons, Option.some.injEq] at hhead
    rw [hhead, List.nil_append, eolLength_append hline.eol] at h
    exact hline.eol.ne_nil (List.length_eq_zero_iff.mp h)
  · rw [terminatedLines_of_not_mem hmem] at hhead
    exact nomatch hhead

end Lines

section Splitting

/-- No match starts within a line. -/
theorem eolLength_within {w e : JsString} (h : IsLine w e) (rest : JsString) :
    ∀ front u back, w = front ++ u :: back → eolLength (u :: (back ++ (e ++ rest))) = 0 := by
  intro front u back heq
  have hplain := h.plain
  have hwhole := h.whole
  rw [heq] at hplain hwhole
  refine eolLength_cons_eq_zero ?_ ?_
  · rintro rfl
    exact hplain (List.mem_append_right _ (List.mem_cons_self ..))
  · rintro rfl
    cases back with
    | nil =>
      rcases h.eol with rfl | rfl
      · exact absurd List.getLast?_concat (hwhole rfl)
      · exact (by decide : some (unit '\r') ≠ some (unit '\n'))
    | cons v back =>
      rw [List.cons_append, List.head?_cons]
      intro hv
      rw [Option.some.inj hv] at hplain
      exact hplain (List.mem_append_right _
        (List.mem_cons_of_mem _ (List.mem_cons_self ..)))

theorem eolLength_plain {text : JsString} (h : unit '\n' ∉ text) :
    ∀ front u back, text = front ++ u :: back → eolLength (u :: back) = 0 := by
  rintro front u back rfl
  rw [List.mem_append, List.mem_cons, not_or, not_or] at h
  refine eolLength_cons_eq_zero (Ne.symm h.2.1) fun _ hhead => ?_
  exact h.2.2 (List.mem_of_mem_head? hhead)

/-- `/\r?\n/` cuts after a line. -/
theorem split_line {w e : JsString} (h : IsLine w e) (rest : JsString) :
    splitMatches eolLength 0 (w ++ (e ++ rest)) = w :: splitMatches eolLength 0 rest := by
  rw [splitMatches_append (eolLength_within h rest),
    splitMatches_match h.eol.ne_nil (eolLength_append h.eol rest)]
  change (w ++ []) :: _ = _
  rw [List.append_nil]

/-- `/\r?\n\r?\n/` cuts after a line before a blank one. -/
theorem split_blank {w e e' : JsString} (h : IsLine w e) (he' : IsEol e') (rest : JsString) :
    splitMatches blankLength 0 (w ++ (e ++ (e' ++ rest))) =
      w :: splitMatches blankLength 0 rest := by
  have hmatch : blankLength (e ++ e' ++ rest) = (e ++ e').length := by
    rw [List.append_assoc, blankLength_double h.eol he']
  have hne : e ++ e' ≠ [] := List.append_ne_nil_of_left_ne_nil h.eol.ne_nil e'
  rw [splitMatches_append fun front u back heq =>
      blankLength_of_eolLength (eolLength_within h (e' ++ rest) front u back heq),
    ← List.append_assoc, splitMatches_match hne hmatch]
  change (w ++ []) :: _ = _
  rw [List.append_nil]

/-- It does not cut after a line before another one. -/
theorem split_open {w e rest : JsString} (h : IsLine w e) (hrest : eolLength rest = 0) :
    splitMatches blankLength 0 (w ++ (e ++ rest)) =
      (splitMatches blankLength 0 rest).modifyHead ((w ++ e) ++ ·) := by
  rw [← List.append_assoc]
  refine splitMatches_append fun front u back heq => ?_
  rcases List.append_eq_append_iff.mp heq with ⟨f, -, he⟩ | ⟨f, hw, he⟩
  · exact blankLength_single (h.eol.of_suffix he) hrest
  cases f with
  | nil =>
    rw [List.nil_append] at he
    rw [← List.cons_append, he]
    exact blankLength_single h.eol hrest
  | cons v f =>
    obtain ⟨rfl, hback⟩ := List.cons.inj he
    have hcut : back ++ rest = f ++ (e ++ rest) := by
      rw [hback]
      exact List.append_assoc ..
    rw [hcut]
    exact blankLength_of_eolLength (eolLength_within h rest front u f hw)

end Splitting

section Frames

/-- Lines grouped into frames: a line closes its frame where a blank one follows, which is left out.
What follows the last line feed belongs to the last frame. -/
def framesOf (rest : JsString) : List JsString → List (List JsString)
  | [] => [[rest]]
  | [l] => [[l, rest]]
  | l :: b :: lines =>
    if b = [] then [l] :: framesOf rest lines else (framesOf rest (b :: lines)).modifyHead (l :: ·)

theorem framesOf_closed (rest l : JsString) (lines : List JsString) :
    framesOf rest (l :: [] :: lines) = [l] :: framesOf rest lines := by
  rw [framesOf, if_pos rfl]

theorem framesOf_open {rest l : JsString} {lines : List JsString} (h : lines.head? ≠ some []) :
    framesOf rest (l :: lines) = (framesOf rest lines).modifyHead (l :: ·) := by
  cases lines with
  | nil => rfl
  | cons b lines =>
    rw [framesOf, if_neg fun hb => h (by rw [hb]; rfl)]

/-- The lines of the frames of a text are its lines, grouped. -/
theorem frames_eq (text : JsString) :
    (splitMatches blankLength 0 text).map (splitMatches eolLength 0) =
      framesOf (unterminated text) (terminatedLines text) := by
  induction hn : text.length using Nat.strong_induction_on generalizing text with
  | _ n ih =>
    by_cases hmem : unit '\n' ∈ text
    · obtain ⟨w, e, rest, rfl, hline⟩ := exists_line hmem
      have hpos := List.length_pos_of_ne_nil hline.eol.ne_nil
      rw [unterminated_line hline, terminatedLines_line hline]
      rcases eolLength_cases rest with hopen | ⟨e', rest, he', rfl⟩
      · have hrest := ih rest.length (by simp at hn; omega) rest rfl
        have hne : splitMatches blankLength 0 rest ≠ [] := Core.splitMatches_ne_nil 0 rest
        obtain ⟨f, fs, hf⟩ := List.exists_cons_of_ne_nil hne
        rw [framesOf_open (head_terminatedLines_ne hopen), ← hrest, split_open hline hopen, hf]
        change splitMatches eolLength 0 (w ++ e ++ f) :: _ = (w :: _) :: _
        rw [List.append_assoc, split_line hline]
      · have hrest := ih rest.length (by simp at hn; omega) rest rfl
        have hnil : splitMatches eolLength 0 w = [w] :=
          splitMatches_of_none (eolLength_plain hline.plain)
        rw [split_blank hline he', List.map_cons, hnil, hrest,
          ← List.nil_append (e' ++ rest), terminatedLines_line (isLine_nil he'),
          unterminated_line (isLine_nil he'), framesOf_closed]
    · have hblank : splitMatches blankLength 0 text = [text] :=
        splitMatches_of_none fun front u back heq =>
          blankLength_of_eolLength (eolLength_plain hmem front u back heq)
      rw [hblank, List.map_singleton, splitMatches_of_none (eolLength_plain hmem),
        unterminated_of_not_mem hmem, terminatedLines_of_not_mem hmem]
      rfl

end Frames

end OpenWop.Sse
