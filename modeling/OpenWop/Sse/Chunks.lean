import OpenWop.Sse.Reader

/-!
# Chunk boundaries

After any chunks the buffer is what follows the last line feed of the text decoded so far, and the
fields are those of its lines. So a body is read alike however it is cut.
-/

namespace OpenWop.Sse

open OpenWop.Js

section Lines

theorem getLastD_cons_of_ne_nil {line : JsString} {lines : List JsString} (h : lines ≠ []) :
    (line :: lines).getLastD [] = lines.getLastD [] := by
  obtain ⟨w, ws, rfl⟩ := List.exists_cons_of_ne_nil h
  rfl

theorem splitOn_eq_concat (text : JsString) :
    splitOn text (unit '\n') = (splitOn text (unit '\n')).dropLast ++ [unterminated text] := by
  have hne := splitOn_ne_nil text (unit '\n')
  rw [unterminated, List.getLastD_eq_getLast?, List.getLast?_eq_some_getLast hne,
    Option.getD_some, List.dropLast_append_getLast]

/-- The rest of a text has no line feed. -/
theorem unterminated_not_mem (text : JsString) : unit '\n' ∉ unterminated text := by
  intro h
  have hmem : unterminated text ∈ splitOn text (unit '\n') := by
    rw [splitOn_eq_concat]
    exact List.mem_append_right _ (List.mem_singleton_self _)
  exact (exists_mem_splitOn.mp ⟨_, hmem, h⟩).2 rfl

/-- More text goes on with the rest. -/
theorem splitOn_append_text (a b : JsString) : splitOn (a ++ b) (unit '\n') =
    (splitOn a (unit '\n')).dropLast ++ splitOn (unterminated a ++ b) (unit '\n') := by
  refine splitOn_induction (motive := fun s ws => splitOn (s ++ b) (unit '\n') =
    ws.dropLast ++ splitOn (ws.getLastD [] ++ b) (unit '\n')) ?_ ?_ a
  · intro s _
    rfl
  · intro s t hs ih
    have hcut : s ++ unit '\n' :: t ++ b = s ++ unit '\n' :: (t ++ b) := by simp
    have hne := splitOn_ne_nil t (unit '\n')
    rw [hcut, splitOn_append hs, ih, List.dropLast_cons_of_ne_nil hne, List.cons_append,
      getLastD_cons_of_ne_nil hne]

theorem terminatedLines_append (a b : JsString) :
    terminatedLines (a ++ b) = terminatedLines a ++ terminatedLines (unterminated a ++ b) := by
  rw [terminatedLines, splitOn_append_text, List.dropLast_append_of_ne_nil (splitOn_ne_nil _ _),
    List.map_append]
  rfl

theorem unterminated_append (a b : JsString) :
    unterminated (a ++ b) = unterminated (unterminated a ++ b) := by
  rw [unterminated, splitOn_append_text, List.getLastD_eq_getLast?,
    List.getLast?_append_of_ne_nil _ (splitOn_ne_nil _ _), ← List.getLastD_eq_getLast?]
  rfl

/-- Text without a line feed ends no line. -/
theorem terminatedLines_of_not_mem {text : JsString} (h : unit '\n' ∉ text) :
    terminatedLines text = [] := by
  rw [terminatedLines, splitOn_of_not_mem h]
  rfl

theorem unterminated_of_not_mem {text : JsString} (h : unit '\n' ∉ text) :
    unterminated text = text := by
  rw [unterminated, splitOn_of_not_mem h]
  rfl

theorem terminatedLines_cut {line : JsString} (h : unit '\n' ∉ line) (rest : JsString) :
    terminatedLines (line ++ unit '\n' :: rest) = withoutCr line :: terminatedLines rest := by
  rw [terminatedLines, splitOn_append h, List.dropLast_cons_of_ne_nil (splitOn_ne_nil _ _)]
  rfl

theorem unterminated_cut {line : JsString} (h : unit '\n' ∉ line) (rest : JsString) :
    unterminated (line ++ unit '\n' :: rest) = unterminated rest := by
  rw [unterminated, splitOn_append h, getLastD_cons_of_ne_nil (splitOn_ne_nil _ _)]
  rfl

end Lines

section Draining

/-- The inner loop goes through the lines of the buffer and leaves what follows them. -/
theorem drain_eq (buffer : JsString) (f : Fields) :
    drain buffer f = (unterminated buffer, (terminatedLines buffer).foldl Fields.line f) := by
  fun_induction drain buffer f with
  | case1 buffer f h =>
    have hnot : unit '\n' ∉ buffer := by
      intro hmem
      obtain ⟨front, rest, rfl, hfront⟩ := List.eq_append_cons_of_mem hmem
      exact absurd ((indexOf_append hfront).symm.trans h) (Option.some_ne_none _)
    rw [unterminated_of_not_mem hnot, terminatedLines_of_not_mem hnot, List.foldl_nil]
  | case2 buffer f nlIdx h ih =>
    obtain ⟨front, rest, rfl, hfront, rfl⟩ := indexOf_eq_some (c := unit '\n') h
    have hrest : (front ++ unit '\n' :: rest).drop (front.length + 1) = rest := by
      rw [← List.drop_drop, List.drop_left]
      rfl
    have htake : (front ++ unit '\n' :: rest).take front.length = front := List.take_left
    rw [hrest, htake] at ih ⊢
    rw [ih, unterminated_cut hfront, terminatedLines_cut hfront, List.foldl_cons]
    rfl

/-- What is read of the bytes so far, all at once. -/
def Reading.of (bytes : List UInt8) : Reading :=
  let (text, decoder) := TextDecoder.fresh.stream bytes
  ⟨decoder, unterminated text, (terminatedLines text).foldl Fields.line Fields.start⟩

theorem chunk_of (bytes value : List UInt8) :
    (Reading.of bytes).chunk value = Reading.of (bytes ++ value) := by
  let text := (TextDecoder.fresh.stream bytes).1
  let next := ((TextDecoder.fresh.stream bytes).2.stream value).1
  have hchunk : (Reading.of bytes).chunk value =
      ⟨((TextDecoder.fresh.stream bytes).2.stream value).2,
        (drain (unterminated text ++ next)
          ((terminatedLines text).foldl Fields.line Fields.start)).1,
        (drain (unterminated text ++ next)
          ((terminatedLines text).foldl Fields.line Fields.start)).2⟩ := rfl
  have hof : Reading.of (bytes ++ value) = ⟨((TextDecoder.fresh.stream bytes).2.stream value).2,
      unterminated (text ++ next),
      (terminatedLines (text ++ next)).foldl Fields.line Fields.start⟩ := by
    rw [Reading.of, TextDecoder.stream_append]
  rw [hchunk, hof, drain_eq, unterminated_append text, terminatedLines_append text,
    List.foldl_append]

theorem foldl_chunk (chunks : List (List UInt8)) :
    chunks.foldl Reading.chunk Reading.start = Reading.of chunks.flatten := by
  induction chunks using List.reverseRecOn with
  | nil => rfl
  | append_singleton chunks value ih =>
    rw [List.foldl_append, ih, List.foldl_cons, List.foldl_nil, chunk_of, List.flatten_append,
      List.flatten_singleton]

end Draining

section Whole

/-- The lines of a body are those of its bytes decoded at once. -/
theorem terminatedLines_decodeText (bytes : List UInt8) :
    terminatedLines (decodeText bytes) = terminatedLines (TextDecoder.fresh.stream bytes).1 := by
  obtain ⟨last, heq, hlast⟩ := decodeText_eq bytes
  have hnot : unit '\n' ∉ unterminated (TextDecoder.fresh.stream bytes).1 ++ last := by
    rw [List.mem_append, not_or]
    refine ⟨unterminated_not_mem _, ?_⟩
    rcases hlast with rfl | rfl
    · exact List.not_mem_nil
    · decide
  rw [heq, terminatedLines_append, terminatedLines_of_not_mem hnot, List.append_nil]

/-- The events of a body do not depend on how it is cut into chunks. -/
theorem readEvents_eq (chunks : List (List UInt8)) :
    readEvents chunks = eventsOf chunks.flatten := by
  rw [readEvents, foldl_chunk, eventsOf, terminatedLines_decodeText]
  rfl

end Whole

end OpenWop.Sse
