import OpenWop.Js.Text
import Mathlib.Data.List.Basic
import Mathlib.Data.List.Pairwise

/-!
# The delivery isolation verdict

The leg holds the attempts of a number of subscriptions open and watches when the attempt of a
further one arrives. Its counts are taken at three moments of the run, and the verdict is read off
them.
-/

namespace OpenWop.Webhook.Isolation

open OpenWop.Js

section Observation

/-- What the leg saw; times are milliseconds. -/
structure IsolationObservation where
  floor : Int
  terminalAt : Int
  /-- None where the healthy attempt did not arrive within the window. -/
  healthyAt : Option Int
  openAtHealthy : Int
  arrivedAtTerminal : Int
  openAtTerminal : Int
  arrivedByVerdict : Int
  peakOpen : Int
  /-- None stands for `Infinity`. -/
  earliestClose : Option Int
  windowMs : Int
  delayMs : Int
  deriving DecidableEq, Repr

/-- The verdicts. -/
inductive IsolationVerdict where
  | pass (detail : JsString)
  | fail (message detail : JsString)
  | blockedAfterPeak (message detail : JsString)
  | blocked (message detail : JsString)
  deriving DecidableEq, Repr

/-- The text of an integer. -/
def intText (n : Int) : JsString := if n < 0 then js "-" ++ decimal n.natAbs else decimal n.natAbs

variable (o : IsolationObservation)

/-- `${t - o.terminalAt}ms after the run was seen terminal`. -/
def afterTerminal (t : Int) : JsString :=
  intText (t - o.terminalAt) ++ js "ms after the run was seen terminal"

/-- `isolationDetail`. -/
def isolationDetail : JsString :=
  let healthy := match o.healthyAt with
    | none => js "the healthy attempt did not arrive within " ++ intText o.windowMs ++ js "ms of that"
    | some t => js "the healthy attempt arrived " ++ afterTerminal o t ++ js ", with " ++
      intText o.openAtHealthy ++ js " held open"
  let closed := match o.earliestClose with
    | some t => js "the first held attempt was closed by the host " ++ afterTerminal o t
    | none => js "no held attempt was closed by the host"
  js "at terminal, " ++ intText o.arrivedAtTerminal ++ js " held attempt(s) had arrived and " ++
    intText o.openAtTerminal ++ js " were open; by the verdict, " ++ intText o.arrivedByVerdict ++
    js " had arrived, at most " ++ intText o.peakOpen ++ js " open at once; " ++ healthy ++ js "; " ++
    closed

/-- `o.earliestClose < t`. -/
def closedBefore (t : Int) : Bool := o.earliestClose.any (· < t)

/-- The message of a healthy attempt that waited while the floor was open. -/
def waitedMessage : JsString :=
  js "with " ++ intText o.floor ++ js " subscriptions' attempts unanswered, a further subscription's " ++
    js "attempt MUST still start; it waited for the host to release one"

/-- The message where the host released the held attempts early. -/
def releasedMessage : JsString :=
  let released := match o.earliestClose with
    | some t => intText (o.terminalAt - t) ++ js "ms "
    | none => []
  js "unjudged: " ++ intText o.floor ++ js " held attempts were open at once, but the host closed " ++
    js "held attempts " ++ released ++ js "before the run was terminal (its delivery timeout is " ++
    js "shorter than this leg's " ++ intText o.delayMs ++ js "ms delay), so " ++ intText o.floor ++
    js " attempts were not outstanding when the healthy delivery fell due"

/-- The message where the held attempts arrived late. -/
def lateMessage : JsString :=
  js "unjudged: only " ++ intText o.arrivedAtTerminal ++ js " of the " ++ intText o.floor ++
    js " held attempts had arrived when the healthy delivery fell due, and the healthy attempt " ++
    js "started before any held attempt finished, so it did not wait for one; the held run.started " ++
    js "deliveries arrived late, and the contention §A.2 names was not established"

/-- The message of a dispatcher below the floor. -/
def boundedMessage : JsString :=
  js "the host never had " ++ intText o.floor ++ js " subscriptions' attempts outstanding at once, and " ++
    match o.healthyAt with
    | none => js "the healthy attempt did not start within " ++ intText o.windowMs ++
      js "ms while the held attempts stayed open"
    | some _ => js "the healthy attempt started only after a held attempt finished"

/-- `isolationVerdict`. -/
def isolationVerdict : IsolationVerdict :=
  let detail := isolationDetail o
  if o.healthyAt.isSome ∧ o.floor ≤ o.openAtHealthy then .pass detail
  else if o.floor ≤ o.openAtTerminal then .fail (waitedMessage o) detail
  else if o.floor ≤ o.arrivedAtTerminal ∨ closedBefore o o.terminalAt then
    .blockedAfterPeak (releasedMessage o) detail
  else if o.healthyAt.any fun t => !closedBefore o t then .blocked (lateMessage o) detail
  else .fail (boundedMessage o) detail

end Observation

section Receiver

/-- A held attempt. -/
structure Held where
  webhookId : JsString
  openedAt : Int
  closedAt : Option Int
  deriving DecidableEq, Repr

/-- What the leg sees happen. -/
inductive LegEvent where
  /-- An attempt of a subscription that is held. -/
  | held (webhookId : JsString)
  /-- The host closes the socket of a held attempt. -/
  | hostCloses (webhookId : JsString)
  /-- An attempt of the healthy subscription. -/
  | healthy
  /-- The run is seen terminal. -/
  | terminal
  deriving DecidableEq, Repr

/-- What the leg reads when the run is seen terminal. -/
structure TerminalRead where
  terminalAt : Int
  openAtTerminal : Int
  arrivedAtTerminal : Int
  deriving DecidableEq, Repr

/-- The variables of the leg. -/
structure LegState where
  held : List Held := []
  healthyAt : Option Int := none
  openAtHealthy : Int := -1
  peakOpen : Int := 0
  terminalRead : Option TerminalRead := none
  deriving DecidableEq, Repr

/-- `openCount()`. -/
def openCount (held : List Held) : Int := (held.filter fun h => h.closedAt = none).length

/-- What the leg does at an event of that time. -/
def LegState.step (s : LegState) (t : Int) : LegEvent → LegState
  | .held webhookId =>
    -- A retry of a held attempt is answered and not counted.
    if s.held.any fun h => h.webhookId = webhookId then s
    else
      let held := s.held ++ [{ webhookId := webhookId, openedAt := t, closedAt := none }]
      { s with held := held, peakOpen := max s.peakOpen (openCount held) }
  | .hostCloses webhookId =>
    { s with held := s.held.map fun h =>
        if h.webhookId = webhookId ∧ h.closedAt = none then { h with closedAt := some t } else h }
  | .healthy =>
    if s.healthyAt = none then { s with healthyAt := some t, openAtHealthy := openCount s.held } else s
  | .terminal =>
    if s.terminalRead = none then
      { s with terminalRead := some { terminalAt := t, openAtTerminal := openCount s.held
                                      arrivedAtTerminal := s.held.length } }
    else s

/-- The state after a trace. -/
def LegState.run (s : LegState) (trace : List (Int × LegEvent)) : LegState :=
  trace.foldl (fun s e => s.step e.1 e.2) s

/-- `Math.min(...)` over the close times; none where there is no close. -/
def earliestClose (held : List Held) : Option Int := (held.filterMap Held.closedAt).min?

/-- The observation of a trace in which the run was seen terminal. -/
def observe (floor windowMs delayMs : Int) (trace : List (Int × LegEvent)) :
    Option IsolationObservation :=
  let s := LegState.run {} trace
  s.terminalRead.map fun read =>
    { floor := floor, terminalAt := read.terminalAt, healthyAt := s.healthyAt
      openAtHealthy := s.openAtHealthy, arrivedAtTerminal := read.arrivedAtTerminal
      openAtTerminal := read.openAtTerminal, arrivedByVerdict := s.held.length
      peakOpen := s.peakOpen, earliestClose := earliestClose s.held
      windowMs := windowMs, delayMs := delayMs }

end Receiver

section Moments

/-- The held attempts at the first event of that kind, or at the end of the trace. -/
def heldAt (event : LegEvent) (trace : List (Int × LegEvent)) : List Held :=
  (LegState.run {} (trace.takeWhile fun e => e.2 ≠ event)).held

/-- The healthy attempt arrives. -/
def HealthyArrives (trace : List (Int × LegEvent)) : Prop := ∃ e ∈ trace, e.2 = .healthy

/-- A held attempt has finished when the healthy attempt arrives. -/
def FinishedBefore (trace : List (Int × LegEvent)) : Prop :=
  ∃ h ∈ heldAt .healthy trace, h.closedAt ≠ none

/-- The times of a trace do not fall. -/
def Chronological (trace : List (Int × LegEvent)) : Prop := trace.Pairwise fun e e' => e.1 ≤ e'.1

/-- The verdict convicts and acquits with reason. -/
structure Sound (o : IsolationObservation) (trace : List (Int × LegEvent)) : Prop where
  convicts : ∀ message detail, isolationVerdict o = .fail message detail →
    ¬ HealthyArrives trace ∨ FinishedBefore trace
  acquits : ∀ detail, isolationVerdict o = .pass detail →
    HealthyArrives trace ∧ o.floor ≤ openCount (heldAt .healthy trace)

/-- The healthy attempt arrives while fewer attempts than the floor are open and none has finished,
yet the floor is open when the run is seen terminal. -/
def HeldArriveLate (floor : Int) (trace : List (Int × LegEvent)) : Prop :=
  HealthyArrives trace ∧ ¬ FinishedBefore trace ∧ openCount (heldAt .healthy trace) < floor ∧
    floor ≤ openCount (heldAt .terminal trace)

end Moments

section Runs

theorem LegState.run_append (s : LegState) (trace trace' : List (Int × LegEvent)) :
    s.run (trace ++ trace') = (s.run trace).run trace' := List.foldl_append

theorem LegState.run_cons (s : LegState) (e : Int × LegEvent) (trace : List (Int × LegEvent)) :
    s.run (e :: trace) = (s.step e.1 e.2).run trace := rfl

/-- An event of another kind leaves what is latched at the healthy attempt. -/
theorem LegState.step_of_ne_healthy (s : LegState) (t : Int) {e : LegEvent} (h : e ≠ .healthy) :
    (s.step t e).healthyAt = s.healthyAt ∧ (s.step t e).openAtHealthy = s.openAtHealthy := by
  cases e with
  | healthy => exact absurd rfl h
  | held id =>
    rw [step]
    split <;> exact ⟨rfl, rfl⟩
  | hostCloses id => exact ⟨rfl, rfl⟩
  | terminal =>
    rw [step]
    split <;> exact ⟨rfl, rfl⟩

/-- An event of another kind leaves what is read when the run is seen terminal. -/
theorem LegState.step_of_ne_terminal (s : LegState) (t : Int) {e : LegEvent} (h : e ≠ .terminal) :
    (s.step t e).terminalRead = s.terminalRead := by
  cases e with
  | terminal => exact absurd rfl h
  | held id =>
    rw [step]
    split <;> rfl
  | hostCloses id => rfl
  | healthy =>
    rw [step]
    split <;> rfl

theorem LegState.run_of_ne_healthy (s : LegState) {trace : List (Int × LegEvent)}
    (h : ∀ e ∈ trace, e.2 ≠ .healthy) : (s.run trace).healthyAt = s.healthyAt := by
  induction trace generalizing s with
  | nil => rfl
  | cons e trace ih =>
    rw [List.forall_mem_cons] at h
    rw [run_cons, ih _ h.2, (s.step_of_ne_healthy e.1 h.1).1]

theorem LegState.run_of_ne_terminal (s : LegState) {trace : List (Int × LegEvent)}
    (h : ∀ e ∈ trace, e.2 ≠ .terminal) : (s.run trace).terminalRead = s.terminalRead := by
  induction trace generalizing s with
  | nil => rfl
  | cons e trace ih =>
    rw [List.forall_mem_cons] at h
    rw [run_cons, ih _ h.2, s.step_of_ne_terminal e.1 h.1]

/-- What is latched at a healthy attempt stays. -/
theorem LegState.run_of_healthyAt (s : LegState) {t : Int} (h : s.healthyAt = some t)
    (trace : List (Int × LegEvent)) :
    (s.run trace).healthyAt = some t ∧ (s.run trace).openAtHealthy = s.openAtHealthy := by
  induction trace generalizing s with
  | nil => exact ⟨h, rfl⟩
  | cons e trace ih =>
    have hstep : (s.step e.1 e.2).healthyAt = s.healthyAt ∧
        (s.step e.1 e.2).openAtHealthy = s.openAtHealthy := by
      by_cases he : e.2 = .healthy
      · rw [he, step, h, if_neg (by simp)]
        exact ⟨h, rfl⟩
      · exact s.step_of_ne_healthy e.1 he
    have hrest := ih _ (hstep.1.trans h)
    rw [run_cons, hrest.1, hrest.2, hstep.2]
    exact ⟨rfl, rfl⟩

/-- What is read when the run is seen terminal stays. -/
theorem LegState.run_of_terminalRead (s : LegState) {read : TerminalRead}
    (h : s.terminalRead = some read) (trace : List (Int × LegEvent)) :
    (s.run trace).terminalRead = some read := by
  induction trace generalizing s with
  | nil => exact h
  | cons e trace ih =>
    apply ih
    change (s.step e.1 e.2).terminalRead = some read
    by_cases he : e.2 = .terminal
    · rw [he, step, h, if_neg (by simp)]
      exact h
    · rw [s.step_of_ne_terminal e.1 he]
      exact h

/-- A trace splits at its first event of a kind. -/
theorem exists_first {event : LegEvent} {trace : List (Int × LegEvent)}
    (h : ∃ e ∈ trace, e.2 = event) :
    ∃ t after, trace = (trace.takeWhile fun e => e.2 ≠ event) ++ (t, event) :: after := by
  induction trace with
  | nil => simp at h
  | cons e trace ih =>
    obtain ⟨t, kind⟩ := e
    by_cases he : kind = event
    · exact ⟨t, trace, by simp [he]⟩
    · obtain ⟨u, after, hsplit⟩ := ih (by simpa [he] using h)
      refine ⟨u, after, ?_⟩
      rw [List.takeWhile_cons_of_pos (by simpa using he), List.cons_append, ← hsplit]

theorem ne_of_mem_takeWhile {event : LegEvent} {trace : List (Int × LegEvent)} {e : Int × LegEvent}
    (h : e ∈ trace.takeWhile fun e => e.2 ≠ event) : e.2 ≠ event := by
  simpa using List.mem_takeWhile_imp h

/-- The healthy attempt is latched with the attempts open at its arrival. -/
theorem run_healthy {trace : List (Int × LegEvent)} (h : HealthyArrives trace) :
    ∃ t after, trace = (trace.takeWhile fun e => e.2 ≠ .healthy) ++ (t, .healthy) :: after ∧
      (LegState.run {} trace).healthyAt = some t ∧
      (LegState.run {} trace).openAtHealthy = openCount (heldAt .healthy trace) := by
  obtain ⟨t, after, hsplit⟩ := exists_first h
  have hbefore : (LegState.run {} (trace.takeWhile fun e => e.2 ≠ .healthy)).healthyAt = none :=
    LegState.run_of_ne_healthy {} fun e he => ne_of_mem_takeWhile he
  have hstep : ((LegState.run {} (trace.takeWhile fun e => e.2 ≠ .healthy)).step t
      .healthy).healthyAt = some t := by
    rw [LegState.step, if_pos hbefore]
  have hrun : LegState.run {} trace = ((LegState.run {} (trace.takeWhile fun e =>
      e.2 ≠ .healthy)).step t .healthy).run after := by
    conv_lhs => rw [hsplit]
    rw [LegState.run_append, LegState.run_cons]
  have hlatched := LegState.run_of_healthyAt _ hstep after
  refine ⟨t, after, hsplit, ?_, ?_⟩
  · rw [hrun]
    exact hlatched.1
  · rw [hrun, hlatched.2, LegState.step, if_pos hbefore]
    rfl

/-- Without a healthy attempt nothing is latched. -/
theorem run_not_healthy {trace : List (Int × LegEvent)} (h : ¬ HealthyArrives trace) :
    (LegState.run {} trace).healthyAt = none :=
  LegState.run_of_ne_healthy {} fun e he hhealthy => h ⟨e, he, hhealthy⟩

/-- The terminal counts are those of the held attempts when the run is seen terminal. -/
theorem run_terminal {trace : List (Int × LegEvent)} {read : TerminalRead}
    (h : (LegState.run {} trace).terminalRead = some read) :
    read.openAtTerminal = openCount (heldAt .terminal trace) := by
  by_cases hterminal : ∃ e ∈ trace, e.2 = .terminal
  · obtain ⟨t, after, hsplit⟩ := exists_first hterminal
    have hbefore : (LegState.run {} (trace.takeWhile fun e => e.2 ≠ .terminal)).terminalRead = none :=
      LegState.run_of_ne_terminal {} fun e he => ne_of_mem_takeWhile he
    have hrun : LegState.run {} trace = ((LegState.run {} (trace.takeWhile fun e =>
        e.2 ≠ .terminal)).step t .terminal).run after := by
      conv_lhs => rw [hsplit]
      rw [LegState.run_append, LegState.run_cons]
    have hread : ((LegState.run {} (trace.takeWhile fun e => e.2 ≠ .terminal)).step t
        .terminal).terminalRead = some
          { terminalAt := t, openAtTerminal := openCount (heldAt .terminal trace)
            arrivedAtTerminal := (heldAt .terminal trace).length } := by
      rw [LegState.step, if_pos hbefore]
      rfl
    rw [hrun, LegState.run_of_terminalRead _ hread] at h
    rw [← Option.some.inj h]
  · have hnone : (LegState.run {} trace).terminalRead = none :=
      LegState.run_of_ne_terminal {} fun e he hkind => hterminal ⟨e, he, hkind⟩
    rw [hnone] at h
    cases h

/-- A close is from before, or of this event. -/
theorem closed_of_step (s : LegState) {t : Int} {event : LegEvent} {h : Held} {c : Int}
    (hh : h ∈ (s.step t event).held) (hc : h.closedAt = some c) :
    (∃ h' ∈ s.held, h'.closedAt = some c) ∨ t = c := by
  cases event with
  | held id =>
    rw [LegState.step] at hh
    split at hh
    · exact Or.inl ⟨h, hh, hc⟩
    · rcases List.mem_append.mp hh with hh | hh
      · exact Or.inl ⟨h, hh, hc⟩
      · rw [List.mem_singleton.mp hh] at hc
        cases hc
  | hostCloses id =>
    obtain ⟨g, hg, rfl⟩ := List.mem_map.mp hh
    split at hc
    · exact Or.inr (Option.some.inj hc)
    · exact Or.inl ⟨g, hg, hc⟩
  | healthy =>
    rw [LegState.step] at hh
    split at hh <;> exact Or.inl ⟨h, hh, hc⟩
  | terminal =>
    rw [LegState.step] at hh
    split at hh <;> exact Or.inl ⟨h, hh, hc⟩

/-- A close is from before, or has the time of an event since. -/
theorem closed_of_run (s : LegState) {trace : List (Int × LegEvent)} {h : Held} {c : Int}
    (hh : h ∈ (s.run trace).held) (hc : h.closedAt = some c) :
    (∃ h' ∈ s.held, h'.closedAt = some c) ∨ ∃ e ∈ trace, e.1 = c := by
  induction trace generalizing s with
  | nil => exact Or.inl ⟨h, hh, hc⟩
  | cons e trace ih =>
    rcases ih _ hh with ⟨h', hh', hc'⟩ | ⟨e', he', rfl⟩
    · rcases closed_of_step s hh' hc' with hbefore | rfl
      · exact Or.inl hbefore
      · exact Or.inr ⟨e, List.mem_cons_self .., rfl⟩
    · exact Or.inr ⟨e', List.mem_cons_of_mem _ he', rfl⟩

/-- A close earlier than the healthy attempt is from before it. -/
theorem finishedBefore_of_closed {trace : List (Int × LegEvent)} (hchron : Chronological trace)
    {t : Int} {after : List (Int × LegEvent)}
    (hsplit : trace = (trace.takeWhile fun e => e.2 ≠ .healthy) ++ (t, .healthy) :: after)
    {c : Int} (hc : earliestClose (LegState.run {} trace).held = some c) (hlt : c < t) :
    FinishedBefore trace := by
  obtain ⟨h, hh, hclosed⟩ := List.mem_filterMap.mp (List.min?_mem hc)
  have hrun : LegState.run {} trace =
      (LegState.run {} (trace.takeWhile fun e => e.2 ≠ .healthy)).run ((t, .healthy) :: after) := by
    conv_lhs => rw [hsplit]
    rw [LegState.run_append]
  rw [hrun] at hh
  rcases closed_of_run _ hh hclosed with ⟨h', hh', hc'⟩ | ⟨e, he, rfl⟩
  · exact ⟨h', hh', by rw [hc']; simp⟩
  · -- From the healthy attempt on, no event has an earlier time.
    rw [hsplit, Chronological, List.pairwise_append, List.pairwise_cons] at hchron
    rcases List.mem_cons.mp he with rfl | he
    · exact absurd hlt (lt_irrefl _)
    · exact absurd (hchron.2.1.1 e he) (by simpa using hlt)

end Runs

section Verdict

variable {o : IsolationObservation}

theorem fail_cases {message detail : JsString} (h : isolationVerdict o = .fail message detail) :
    ¬ (o.healthyAt.isSome ∧ o.floor ≤ o.openAtHealthy) ∧
      (o.floor ≤ o.openAtTerminal ∨ ∀ t, o.healthyAt = some t → closedBefore o t = true) := by
  unfold isolationVerdict at h
  dsimp only at h
  split at h
  · cases h
  · next hpass =>
    refine ⟨hpass, ?_⟩
    split at h
    · next hopen => exact Or.inl hopen
    · split at h
      · cases h
      · split at h
        · cases h
        · next hlate =>
          right
          intro t ht
          rw [ht, Option.any_some, Bool.not_eq_true', Bool.not_eq_false] at hlate
          exact hlate

theorem pass_cases {detail : JsString} (h : isolationVerdict o = .pass detail) :
    o.healthyAt.isSome ∧ o.floor ≤ o.openAtHealthy := by
  unfold isolationVerdict at h
  dsimp only at h
  split at h
  · next hpass => exact hpass
  · split at h
    · cases h
    · split at h
      · cases h
      · split at h <;> cases h

theorem fail_of_open (hpass : ¬ (o.healthyAt.isSome ∧ o.floor ≤ o.openAtHealthy))
    (hopen : o.floor ≤ o.openAtTerminal) :
    ∃ message detail, isolationVerdict o = .fail message detail :=
  ⟨waitedMessage o, isolationDetail o, by rw [isolationVerdict, if_neg hpass, if_pos hopen]⟩

variable {floor windowMs delayMs : Int} {trace : List (Int × LegEvent)}

/-- What an observation says of its trace. -/
theorem observe_spec (h : observe floor windowMs delayMs trace = some o) :
    o.floor = floor ∧ o.healthyAt = (LegState.run {} trace).healthyAt ∧
      o.openAtHealthy = (LegState.run {} trace).openAtHealthy ∧
      o.openAtTerminal = openCount (heldAt .terminal trace) ∧
      o.earliestClose = earliestClose (LegState.run {} trace).held := by
  obtain ⟨read, hread, rfl⟩ := Option.map_eq_some_iff.mp h
  exact ⟨rfl, rfl, rfl, run_terminal hread, rfl⟩

/-- The verdict on a trace is sound exactly when the held attempts do not arrive late. -/
theorem sound_iff (hchron : Chronological trace)
    (h : observe floor windowMs delayMs trace = some o) :
    Sound o trace ↔ ¬ HeldArriveLate floor trace := by
  obtain ⟨hfloor, hhealthyAt, hopenAtHealthy, hopenAtTerminal, hclose⟩ := observe_spec h
  constructor
  · rintro hsound ⟨hhealthy, hfinished, hfew, hopen⟩
    obtain ⟨t, after, hsplit, hlatched, hcount⟩ := run_healthy hhealthy
    have hpass : ¬ (o.healthyAt.isSome ∧ o.floor ≤ o.openAtHealthy) := by
      rw [hfloor, hopenAtHealthy, hcount]
      omega
    obtain ⟨message, detail, hfail⟩ := fail_of_open hpass (by rw [hfloor, hopenAtTerminal]; exact hopen)
    rcases hsound.convicts message detail hfail with hnever | hbefore
    · exact hnever hhealthy
    · exact hfinished hbefore
  · intro hlate
    constructor
    · intro message detail hfail
      by_cases hhealthy : HealthyArrives trace
      · right
        obtain ⟨t, after, hsplit, hlatched, hcount⟩ := run_healthy hhealthy
        obtain ⟨hpass, hcase⟩ := fail_cases hfail
        rw [hhealthyAt, hlatched, hfloor, hopenAtHealthy, hcount] at hpass
        have hfew : openCount (heldAt .healthy trace) < floor := by
          simpa using hpass
        rcases hcase with hopen | hclosed
        · by_contra hfinished
          rw [hfloor, hopenAtTerminal] at hopen
          exact hlate ⟨hhealthy, hfinished, hfew, hopen⟩
        · have ht := hclosed t (hhealthyAt.trans hlatched)
          rw [closedBefore, hclose] at ht
          obtain ⟨c, hc, hlt⟩ := (Option.any_eq_true _ _).mp ht
          exact finishedBefore_of_closed hchron hsplit hc (of_decide_eq_true hlt)
      · exact Or.inl hhealthy
    · intro detail hpass
      obtain ⟨hsome, hopen⟩ := pass_cases hpass
      by_cases hhealthy : HealthyArrives trace
      · obtain ⟨t, after, hsplit, hlatched, hcount⟩ := run_healthy hhealthy
        rw [hopenAtHealthy, hcount] at hopen
        exact ⟨hhealthy, hopen⟩
      · rw [hhealthyAt, run_not_healthy hhealthy] at hsome
        cases hsome

/-- The floor of 2 is open when the healthy attempt arrives. -/
def earlyTrace : List (Int × LegEvent) :=
  [(0, .held (js "a")), (1, .held (js "b")), (5, .healthy), (9, .terminal)]

theorem earlyTrace_sound : ∃ o, observe 2 20 5 earlyTrace = some o ∧ Sound o earlyTrace := by
  have hobserve : observe 2 20 5 earlyTrace = some
      { floor := 2, terminalAt := 9, healthyAt := some 5, openAtHealthy := 2, arrivedAtTerminal := 2
        openAtTerminal := 2, arrivedByVerdict := 2, peakOpen := 2, earliestClose := none
        windowMs := 20, delayMs := 5 } := by decide
  have hchron : Chronological earlyTrace := by
    unfold Chronological
    decide
  have hopen : openCount (heldAt .healthy earlyTrace) = 2 := by decide
  refine ⟨_, hobserve, (sound_iff hchron hobserve).mpr fun hlate => ?_⟩
  have hfew := hlate.2.2.1
  rw [hopen] at hfew
  exact absurd hfew (lt_irrefl 2)

/-- The healthy attempt arrives while one held attempt is open, the second one comes before the run
is seen terminal. -/
def lateTrace : List (Int × LegEvent) :=
  [(0, .held (js "a")), (5, .healthy), (7, .held (js "b")), (9, .terminal)]

/-- With a floor of 2 the late trace is convicted, though nothing finished before the healthy
attempt. -/
theorem lateTrace_convicted :
    ∃ o, observe 2 20 5 lateTrace = some o ∧
      (∃ message detail, isolationVerdict o = .fail message detail) ∧ HealthyArrives lateTrace ∧
      ¬ FinishedBefore lateTrace := by
  have hobserve : observe 2 20 5 lateTrace = some
      { floor := 2, terminalAt := 9, healthyAt := some 5, openAtHealthy := 1, arrivedAtTerminal := 2
        openAtTerminal := 2, arrivedByVerdict := 2, peakOpen := 2, earliestClose := none
        windowMs := 20, delayMs := 5 } := by decide
  have hheld : heldAt .healthy lateTrace =
      [{ webhookId := js "a", openedAt := 0, closedAt := none }] := by decide
  refine ⟨_, hobserve, fail_of_open (by decide) (by decide),
    ⟨(5, .healthy), by simp [lateTrace], rfl⟩, ?_⟩
  rintro ⟨h, hh, hclosed⟩
  rw [hheld, List.mem_singleton] at hh
  rw [hh] at hclosed
  exact hclosed rfl

end Verdict

end OpenWop.Webhook.Isolation
