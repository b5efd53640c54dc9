import OpenWop.Log.Paging
import Mathlib.Data.List.Pairwise
import Mathlib.Tactic.Linarith

/-!
# What the two readers collect

One page moves the cursor to the last event read, and what is after that cursor is what the page
left. The reader that starts without a cursor collects the log; the one that starts after
sequence 0 misses its first event.
-/

namespace OpenWop.Log

open OpenWop.Js

section Cursor

variable {log : List RunEvent} {cursor : Option ℚ}

@[simp] theorem runEvent?_item (e : RunEvent) : e.item.runEvent? = some e := rfl

@[simp] theorem sequence?_item (e : RunEvent) : e.item.sequence? = some e.sequence := rfl

theorem filterMap_runEvent?_item (events : List RunEvent) :
    (events.map RunEvent.item).filterMap PolledItem.runEvent? = events := by
  rw [List.filterMap_map]
  exact List.filterMap_some

theorem filterMap_sequence?_item (events : List RunEvent) :
    (events.map RunEvent.item).filterMap PolledItem.sequence? = events.map RunEvent.sequence := by
  rw [List.filterMap_map, ← List.filterMap_eq_map]
  rfl

theorem null_not_mem_items (events : List RunEvent) : PolledItem.null ∉ events.map RunEvent.item := by
  simp [RunEvent.item]

theorem sorted_eventsAfter (h : WellSequenced log) (cursor : Option ℚ) :
    (eventsAfter log cursor).Pairwise fun a b => a.sequence < b.sequence := by
  cases cursor with
  | none => exact h.sorted
  | some after => exact h.sorted.filter _

/-- A log is what stands up to a cursor and what is after it. -/
theorem append_eventsAfter (h : log.Pairwise fun a b => a.sequence < b.sequence) (after : ℚ) :
    log.filter (fun a => a.sequence ≤ after) ++ eventsAfter log (some after) = log := by
  induction log with
  | nil => rfl
  | cons a log ih =>
    rw [List.pairwise_cons] at h
    have ih := ih h.2
    rw [eventsAfter] at ih ⊢
    by_cases ha : after < a.sequence
    · have hlater : ∀ b ∈ a :: log, after < b.sequence := by
        intro b hb
        rcases List.mem_cons.mp hb with rfl | hb
        · exact ha
        · exact ha.trans (h.1 b hb)
      rw [List.filter_eq_nil_iff.mpr fun b hb => by simpa using hlater b hb,
        List.filter_eq_self.mpr fun b hb => by simpa using hlater b hb, List.nil_append]
    · rw [List.filter_cons_of_pos (by simpa using ha), List.filter_cons_of_neg (by simpa using ha),
        List.cons_append, ih]

theorem exists_append_eventsAfter (h : WellSequenced log) (cursor : Option ℚ) :
    ∃ before, log = before ++ eventsAfter log cursor ∧
      ∀ a ∈ before, ∀ e ∈ eventsAfter log cursor, a.sequence < e.sequence := by
  cases cursor with
  | none => exact ⟨[], rfl, by simp⟩
  | some after =>
    refine ⟨_, (append_eventsAfter h.sorted after).symm, fun a ha e he => ?_⟩
    have ha := (List.mem_filter.mp ha).2
    have he := (List.mem_filter.mp he).2
    rw [decide_eq_true_eq] at ha he
    exact ha.trans_lt he

/-- After the last event of a page comes what the page left. -/
theorem eventsAfter_page (h : WellSequenced log) {page rest : List RunEvent} {e : RunEvent}
    (hpage : eventsAfter log cursor = page ++ e :: rest) :
    eventsAfter log (some e.sequence) = rest := by
  have hsorted := sorted_eventsAfter h cursor
  rw [hpage, List.pairwise_append, List.pairwise_cons] at hsorted
  obtain ⟨_, ⟨hrest, _⟩, hbefore⟩ := hsorted
  obtain ⟨before, hlog, hlt⟩ := exists_append_eventsAfter h cursor
  rw [hpage] at hlog hlt
  have hfirst : before.filter (fun a => e.sequence < a.sequence) = [] := by
    rw [List.filter_eq_nil_iff]
    exact fun a ha => by simpa using (hlt a ha e (by simp)).le
  have hsecond : page.filter (fun a => e.sequence < a.sequence) = [] := by
    rw [List.filter_eq_nil_iff]
    exact fun a ha => by simpa using (hbefore a ha e (by simp)).le
  rw [eventsAfter, hlog, List.filter_append, List.filter_append, hfirst, hsecond,
    List.filter_cons_of_neg (by simp), List.filter_eq_self.mpr fun a ha => by simpa using hrest a ha]
  rfl

/-- No event of a log is after its last sequence. -/
theorem eventsAfter_of_lastSequence_le (h : WellSequenced log) {after : ℚ}
    (hafter : lastSequence log ≤ after) : eventsAfter log (some after) = [] := by
  rw [eventsAfter, List.filter_eq_nil_iff]
  intro a ha
  rcases List.eq_nil_or_concat' log with rfl | ⟨init, last, rfl⟩
  · cases ha
  · have hlast : a.sequence ≤ last.sequence := by
      have hsorted := h.sorted
      rw [List.pairwise_append] at hsorted
      rcases List.mem_append.mp ha with ha | ha
      · exact (hsorted.2.2 a ha last (by simp)).le
      · rw [List.mem_singleton.mp ha]
    rw [lastSequence, List.getLast?_append_of_ne_nil _ (by simp)] at hafter
    simpa using hlast.trans hafter

/-- The sequences of a log are not negative. -/
theorem sequence_nonneg (h : WellSequenced log) {e : RunEvent} (he : e ∈ log) : 0 ≤ e.sequence := by
  cases log with
  | nil => cases he
  | cons a log =>
    have ha := h.fromZero a rfl
    rcases List.mem_cons.mp he with rfl | he
    · exact ha.ge
    · have hlt := (List.pairwise_cons.mp h.sorted).1 e he
      rw [ha] at hlt
      exact hlt.le

theorem foldl_max_concat {s e : ℚ} {init : List ℚ} (hs : s ≤ e) (hinit : ∀ a ∈ init, a ≤ e) :
    (init ++ [e]).foldl max s = e := by
  induction init generalizing s with
  | nil => exact max_eq_right hs
  | cons a init ih =>
    rw [List.forall_mem_cons] at hinit
    exact ih (max_le hs hinit.1) hinit.2

end Cursor

section Runs

variable {log : List RunEvent} {size : Nat → Option ℚ → Nat}

/-- A page of a log that is not read through has a last event, and moves the cursor there. -/
theorem exists_last_of_page (h : WellSequenced log) (hsize : ∀ page cursor, 0 < size page cursor)
    (page : Nat) {cursor : Option ℚ} (hne : eventsAfter log cursor ≠ []) :
    ∃ init e, (eventsAfter log cursor).take (size page cursor) = init ++ [e] ∧
      (∀ a ∈ init, a.sequence < e.sequence) ∧
      (init ++ [e]) ++ eventsAfter log (some e.sequence) = eventsAfter log cursor := by
  have hpage : (eventsAfter log cursor).take (size page cursor) ≠ [] := by
    rw [Ne, List.take_eq_nil_iff, not_or]
    exact ⟨(hsize page cursor).ne', hne⟩
  obtain ⟨init, e, htake⟩ := (List.eq_nil_or_concat' _).resolve_left hpage
  have hsplit := List.take_append_drop (size page cursor) (eventsAfter log cursor)
  rw [htake, List.append_assoc, List.singleton_append] at hsplit
  have hsorted := sorted_eventsAfter h cursor
  rw [← hsplit, List.pairwise_append] at hsorted
  refine ⟨init, e, htake, fun a ha => hsorted.2.2 a ha e (by simp), ?_⟩
  rw [eventsAfter_page h hsplit.symm, List.append_assoc, List.singleton_append]
  exact hsplit

/-- From a cursor on, the budget witness reads what is after it. -/
theorem readEventsFrom_serve (h : WellSequenced log) (hsize : ∀ page cursor, 0 < size page cursor)
    (left page : Nat) (after : ℚ) (out : List RunEvent) (hfits : Fits log size left page (some after)) :
    readEventsFrom (serve log size) left page after out = some (out ++ eventsAfter log (some after)) := by
  induction left generalizing page after out with
  | zero =>
    rw [Fits] at hfits
    rw [readEventsFrom, hfits, List.append_nil]
  | succ left ih =>
    by_cases hne : eventsAfter log (some after) = []
    · simp [readEventsFrom, serve, hne]
    · obtain ⟨init, e, htake, hinit, hsplit⟩ := exists_last_of_page h hsize page hne
      rw [Fits, htake] at hfits
      have hnext := ih (page + 1) e.sequence (out ++ (init ++ [e])) (hfits e (by simp))
      have hafter : after ≤ e.sequence := by
        have hmem : e ∈ eventsAfter log (some after) := by rw [← hsplit]; simp
        exact (by simpa using (List.mem_filter.mp hmem).2 : after < e.sequence).le
      have hmax : (init ++ [e]).foldl (fun a e => max a e.sequence) after = e.sequence := by
        rw [← List.foldl_map (f := RunEvent.sequence) (g := max), List.map_append]
        exact foldl_max_concat hafter (by simpa using fun a ha => (hinit a ha).le)
      have hbatch : ((init ++ [e]).map RunEvent.item).filterMap PolledItem.runEvent? = init ++ [e] :=
        filterMap_runEvent?_item _
      rw [readEventsFrom, serve, htake]
      simp only [ne_eq, not_true_eq_false, if_false]
      split
      · next hitems => cases hitems
      · next hitems => simp at hitems
      · next batch _ hitems =>
        rw [← Option.some.inj hitems, hbatch, hmax, hnext, ← hsplit, List.append_assoc]

theorem nextCursor_page {after : ℚ} {init : List RunEvent} {e : RunEvent}
    (hinit : ∀ a ∈ init, a.sequence < e.sequence) :
    nextCursor after ((init ++ [e]).map RunEvent.item) = e.sequence := by
  rw [nextCursor, filterMap_sequence?_item]
  cases init with
  | nil => rfl
  | cons a init =>
    rw [List.forall_mem_cons] at hinit
    rw [List.cons_append, List.map_cons, List.map_append]
    exact foldl_max_concat hinit.1.le (by simpa using fun a ha => (hinit.2 a ha).le)

/-- One page of the major-2 reader on a host that serves a log. -/
theorem memoryPagesFrom_succ (left page : Nat) (after : ℚ) (out : List PolledItem)
    {events : List RunEvent}
    (hevents : (eventsAfter log (sentCursor after)).take (size page (sentCursor after)) = events) :
    memoryPagesFrom (serve log size) (left + 1) page after out =
      if nextCursor after (events.map RunEvent.item) ≤ after ∨
          lastSequence log ≤ nextCursor after (events.map RunEvent.item) then
        some (out ++ events.map RunEvent.item)
      else memoryPagesFrom (serve log size) left (page + 1)
        (nextCursor after (events.map RunEvent.item)) (out ++ events.map RunEvent.item) := by
  rw [memoryPagesFrom, serve, hevents]
  simp only [if_true, Option.getD_some, null_not_mem_items, if_false]

/-- From a cursor on, the major-2 reader collects what is after it. -/
theorem memoryPagesFrom_serve (h : WellSequenced log) (hsize : ∀ page cursor, 0 < size page cursor)
    (left page : Nat) (after : ℚ) (out : List PolledItem)
    (hafter : ∀ e ∈ eventsAfter log (sentCursor after), after < e.sequence)
    (hfits : Fits log size left page (sentCursor after)) :
    memoryPagesFrom (serve log size) left page after out =
      some (out ++ (eventsAfter log (sentCursor after)).map RunEvent.item) := by
  induction left generalizing page after out with
  | zero =>
    rw [Fits] at hfits
    rw [memoryPagesFrom, hfits, List.map_nil, List.append_nil]
  | succ left ih =>
    by_cases hne : eventsAfter log (sentCursor after) = []
    · have hempty : (eventsAfter log (sentCursor after)).take (size page (sentCursor after)) = [] := by
        rw [hne, List.take_nil]
      rw [memoryPagesFrom_succ left page after out hempty, hne]
      exact if_pos (Or.inl le_rfl)
    · obtain ⟨init, e, htake, hinit, hsplit⟩ := exists_last_of_page h hsize page hne
      have hmem : e ∈ eventsAfter log (sentCursor after) := by rw [← hsplit]; simp
      have hlog : e ∈ log := by
        obtain ⟨before, hbefore, _⟩ := exists_append_eventsAfter h (sentCursor after)
        rw [hbefore]
        exact List.mem_append_right _ hmem
      have hcursor : sentCursor e.sequence = some e.sequence :=
        if_neg (sequence_nonneg h hlog).not_gt
      rw [memoryPagesFrom_succ left page after out htake, nextCursor_page hinit]
      split
      · next hstop =>
        -- The page holds the last event of the log, so nothing is left.
        have hlast : lastSequence log ≤ e.sequence := hstop.resolve_left (hafter e hmem).not_ge
        rw [eventsAfter_of_lastSequence_le h hlast, List.append_nil] at hsplit
        rw [hsplit]
      · rw [Fits, htake] at hfits
        have hlater : ∀ a ∈ eventsAfter log (sentCursor e.sequence), e.sequence < a.sequence := by
          rw [hcursor]
          exact fun a ha => by simpa using (List.mem_filter.mp ha).2
        rw [ih (page + 1) e.sequence _ hlater (by rw [hcursor]; exact hfits e (by simp)), hcursor,
          ← hsplit, @List.map_append _ _ _ (init ++ [e]), List.append_assoc]

end Runs

section Whole

/-- The reader's answer rests on its first pages only: it asks for no other. -/
def Bounded {β : Type} (read : Poll → β) : Prop :=
  ∀ poll poll' : Poll, (∀ page < pageCap, poll page = poll' page) → read poll = read poll'

theorem readEventsFrom_congr {poll poll' : Poll} {left page : Nat} {after : ℚ} {out : List RunEvent}
    (h : ∀ p < page + left, poll p = poll' p) :
    readEventsFrom poll left page after out = readEventsFrom poll' left page after out := by
  induction left generalizing page after out with
  | zero => rfl
  | succ left ih =>
    rw [readEventsFrom, readEventsFrom, h page (by omega)]
    have hnext : ∀ after out, readEventsFrom poll left (page + 1) after out =
        readEventsFrom poll' left (page + 1) after out :=
      fun after out => ih fun p hp => h p (by omega)
    simp only [hnext]

theorem memoryPagesFrom_congr {poll poll' : Poll} {left page : Nat} {after : ℚ}
    {out : List PolledItem} (h : ∀ p < page + left, poll p = poll' p) :
    memoryPagesFrom poll left page after out = memoryPagesFrom poll' left page after out := by
  induction left generalizing page after out with
  | zero => rfl
  | succ left ih =>
    rw [memoryPagesFrom, memoryPagesFrom, h page (by omega)]
    have hnext : ∀ after out, memoryPagesFrom poll left (page + 1) after out =
        memoryPagesFrom poll' left (page + 1) after out :=
      fun after out => ih fun p hp => h p (by omega)
    simp only [hnext]

theorem bounded_readEvents : Bounded readEvents := fun _ _ h =>
  readEventsFrom_congr fun p hp => h p (by omega)

theorem bounded_memoryWrittenEvents : Bounded memoryWrittenEvents := fun _ _ h =>
  congrArg (Option.map (List.filter PolledItem.isMemoryWritten))
    (memoryPagesFrom_congr fun p hp => h p (by omega))

variable {log : List RunEvent} {size : Nat → Option ℚ → Nat}

/-- The budget witness reads the log without its first event. -/
theorem readEvents_serve (h : WellSequenced log) (hsize : ∀ page cursor, 0 < size page cursor)
    (hfits : Fits log size pageCap 0 (some 0)) : readEvents (serve log size) = some log.tail := by
  rw [readEvents, readEventsFrom_serve h hsize pageCap 0 0 [] hfits, List.nil_append]
  cases log with
  | nil => rfl
  | cons e log =>
    have he := h.fromZero e rfl
    have hlater := (List.pairwise_cons.mp h.sorted).1
    rw [he] at hlater
    rw [eventsAfter, List.filter_cons_of_neg (by simp [he]),
      List.filter_eq_self.mpr fun a ha => by simpa using hlater a ha, List.tail_cons]

/-- The major-2 reader reads the whole log. -/
theorem memoryWrittenEvents_serve (h : WellSequenced log)
    (hsize : ∀ page cursor, 0 < size page cursor) (hfits : Fits log size pageCap 0 none) :
    memoryWrittenEvents (serve log size) =
      some ((log.map RunEvent.item).filter PolledItem.isMemoryWritten) := by
  have hcursor : sentCursor (-1) = none := if_pos (by decide)
  have hafter : ∀ e ∈ eventsAfter log (sentCursor (-1)), -1 < e.sequence := by
    rw [hcursor]
    intro e he
    linarith [sequence_nonneg h he]
  rw [memoryWrittenEvents, memoryPagesFrom_serve h hsize pageCap 0 (-1) [] hafter
    (by rw [hcursor]; exact hfits), hcursor]
  rfl

/-- Both readers ask for boundedly many pages, the major-2 reader collects every log, and the
budget witness exactly the empty one. -/
theorem collects_iff (h : WellSequenced log) (hsize : ∀ page cursor, 0 < size page cursor)
    (hbudget : Fits log size pageCap 0 (some 0)) (hmemory : Fits log size pageCap 0 none) :
    Bounded readEvents ∧ Bounded memoryWrittenEvents ∧
      ((readEvents (serve log size) = some log ∧ memoryWrittenEvents (serve log size) =
        some ((log.map RunEvent.item).filter PolledItem.isMemoryWritten)) ↔ log = []) := by
  refine ⟨bounded_readEvents, bounded_memoryWrittenEvents, ?_⟩
  rw [readEvents_serve h hsize hbudget, memoryWrittenEvents_serve h hsize hmemory]
  cases log with
  | nil => simp
  | cons e log => simp [List.tail_cons]

theorem fits_of_eventsAfter_eq_nil {left page : Nat} {cursor : Option ℚ}
    (h : eventsAfter log cursor = []) : Fits log size left page cursor := by
  cases left with
  | zero => exact h
  | succ left =>
    rw [Fits, h, List.take_nil]
    exact fun e he => by cases he

/-- A run that starts. -/
def runStarted : RunEvent := { type := js "run.started", sequence := 0 }

/-- The budget witness does not see the run start. -/
theorem readEvents_runStarted : readEvents (serve [runStarted] fun _ _ => 1) = some [] := by
  rfl

/-- A log of one event, in pages of one. -/
theorem runStarted_not_collected :
    ¬ (readEvents (serve [runStarted] fun _ _ => 1) = some [runStarted] ∧
      memoryWrittenEvents (serve [runStarted] fun _ _ => 1) =
        some (([runStarted].map RunEvent.item).filter PolledItem.isMemoryWritten)) := by
  have hafter : eventsAfter [runStarted] (some 0) = [] := by simp [eventsAfter, runStarted]
  have hsequenced : WellSequenced [runStarted] :=
    ⟨List.pairwise_singleton _ _, fun e he => by rw [← Option.some.inj he]; rfl⟩
  have hmemory : Fits [runStarted] (fun _ _ => 1) pageCap 0 none := by
    intro e he
    rw [← Option.some.inj he]
    exact fits_of_eventsAfter_eq_nil hafter
  have hcollects := collects_iff hsequenced (fun _ _ => Nat.one_pos)
    (fits_of_eventsAfter_eq_nil hafter) hmemory
  exact fun h => absurd (hcollects.2.2.mp h) (by simp)

end Whole

end OpenWop.Log
