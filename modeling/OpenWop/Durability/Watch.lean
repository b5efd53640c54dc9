import Mathlib.Algebra.Order.Floor.Ring
import Mathlib.Algebra.Order.Ring.Rat
import Mathlib.Data.Rat.Floor
import Mathlib.Logic.Relation
import OpenWop.Core.Reachable
import OpenWop.Js.Text

/-!
# Watching a run for its resumption

The watcher asks for the status, then for the log, and judges the two. They come from
two requests, and the host moves at any time between them. The log only grows, so a log
read after a `completed` status that shows no resumption convicts the run at the instant
the status was read.
-/

namespace OpenWop.Durability

open OpenWop.Js OpenWop.Core Relation

/-- What a read of the log shows. -/
structure Observation where
  readable : Bool
  runStarted : Nat
  nodeStarted : Nat
  restored : Nat
  deriving DecidableEq, Repr

structure Watch where
  resumedAfterMs : Option ℚ
  last : Observation
  completedUnresumed : Bool
  waitedMs : ℚ
  transportErrors : Nat

/-- `UNREADABLE`. -/
def unreadable : Observation := ⟨false, 0, 0, 0⟩

/-- `RESTORED_TYPES`. -/
def restoredTypes : List JsString := [js "workflow.restored", js "run.restored-from-snapshot"]

/-- What the types of the events of a readable log count to. -/
def observe (events : List JsString) : Observation where
  readable := true
  runStarted := events.countP (· = js "run.started")
  nodeStarted := events.countP (· = js "node.started")
  restored := events.countP (· ∈ restoredTypes)

structure Read (α : Type) where
  value : α
  failed : Bool

/-- A read that throws has no answer, and the fallback stands for it. -/
def orNull {α : Type} (answer : Option α) (fallback : α) : Read α :=
  answer.elim ⟨fallback, true⟩ fun value => ⟨value, false⟩

/-- What the watcher awaits. -/
inductive Stage where
  | status
  | log (st : Read (Option JsString))
  | sleep
  | done (w : Watch)

structure Watcher where
  t0 : ℚ
  completedUnresumed : Bool
  transportErrors : Nat
  stage : Stage

/-- What one round does once both reads are back. -/
def Watcher.judge (budgetMs : ℚ) (resumed : Observation → Bool) (w : Watcher)
    (st : Read (Option JsString)) (lg : Read Observation) (now : ℚ) : Watcher :=
  let transportErrors :=
    if st.failed || lg.failed then w.transportErrors + 1 else w.transportErrors
  let last := lg.value
  let waitedMs := now - w.t0
  let isResumed := last.readable && resumed last
  let completedUnresumed := w.completedUnresumed ||
    (st.value == some (js "completed") && last.readable && !isResumed)
  { w with
    completedUnresumed, transportErrors
    stage :=
      if isResumed then
        .done ⟨some waitedMs, last, completedUnresumed, waitedMs, transportErrors⟩
      else if budgetMs ≤ waitedMs then
        .done ⟨none, last, completedUnresumed, waitedMs, transportErrors⟩
      else .sleep }

/-- A host that moves on its own. Its log only grows. -/
structure Host (State : Type) where
  step : State → State → Prop
  status : State → JsString
  log : State → List JsString
  grows : ∀ s t, step s t → log s <+: log t

/-- A run of the watch beside the host, with the instants the host went through and the
number of times the watcher was resumed. -/
structure Run (State : Type) where
  host : State
  clock : ℚ
  watcher : Watcher
  instants : List State
  turns : Nat

/-- What happens next. The host moves, time passes, or the watcher's await is over. -/
inductive Event (State : Type) where
  | host (s : State)
  | tick (ms : ℚ)
  | readStatus (answer : Option (Option JsString))
  | readLog (answer : Option Observation)
  | sleep (ms : ℚ)

variable {State : Type}

def Run.start (s : State) (now : ℚ) : Run State where
  host := s
  clock := now
  watcher := ⟨now, false, 0, .status⟩
  instants := [s]
  turns := 0

/-- `watchForResumption`, one await at a time. -/
def Run.next (budgetMs : ℚ) (resumed : Observation → Bool) (r : Run State) :
    Event State → Run State
  | .host s => { r with host := s, instants := r.instants ++ [s] }
  | .tick ms => { r with clock := r.clock + ms }
  | .readStatus answer =>
    { r with
      watcher := { r.watcher with stage := .log (orNull answer none) }
      turns := r.turns + 1 }
  | .readLog answer =>
    match r.watcher.stage with
    | .log st =>
      { r with
        watcher := r.watcher.judge budgetMs resumed st (orNull answer unreadable) r.clock
        turns := r.turns + 1 }
    | _ => r
  | .sleep ms =>
    { r with
      clock := r.clock + ms
      watcher := { r.watcher with stage := .status }
      turns := r.turns + 1 }

/-- What can happen. A read fails, or finds nothing to read, or shows the host as it is;
a sleep takes at least the clock's resolution. -/
def Admits (host : Host State) (resolution : ℚ) (r : Run State) : Event State → Prop
  | .host s => host.step r.host s
  | .tick ms => 0 ≤ ms
  | .readStatus answer =>
    r.watcher.stage = .status ∧ ∀ st, answer = some (some st) → st = host.status r.host
  | .readLog answer =>
    (∃ st, r.watcher.stage = .log st) ∧
      ∀ o, answer = some o → o.readable = true → o = observe (host.log r.host)
  | .sleep ms => r.watcher.stage = .sleep ∧ resolution ≤ ms

/-- The event ends an await of the watcher. -/
def Event.IsTurn : Event State → Prop
  | .host _ | .tick _ => False
  | .readStatus _ | .readLog _ | .sleep _ => True

/-- The watcher awaits nothing more. -/
def Run.Ended (r : Run State) : Prop := ∃ w, r.watcher.stage = .done w

/-- The host is completed and its log shows no resumption. -/
def CompletedUnresumed (host : Host State) (resumed : Observation → Bool) (s : State) : Prop :=
  host.status s = js "completed" ∧ resumed (observe (host.log s)) = false

/-- The log shows resumption. -/
def Resumed (host : Host State) (resumed : Observation → Bool) (s : State) : Prop :=
  resumed (observe (host.log s)) = true

section Judge

variable {budgetMs now : ℚ} {resumed : Observation → Bool} {w : Watcher}
  {st : Read (Option JsString)} {lg : Read Observation}

/-- What a round can do. It finds resumption, or the budget has passed, or it sleeps. -/
theorem judge_cases {j : Watcher} (hj : w.judge budgetMs resumed st lg now = j) :
    (lg.value.readable = true ∧ resumed lg.value = true ∧
      ∃ done, j.stage = .done done ∧ done.last = lg.value ∧
        done.completedUnresumed = j.completedUnresumed) ∨
    (budgetMs ≤ now - w.t0 ∧
      ∃ done, j.stage = .done done ∧ done.resumedAfterMs = none ∧
        done.completedUnresumed = j.completedUnresumed) ∨
    (now - w.t0 < budgetMs ∧ j.stage = .sleep) := by
  subst hj
  by_cases hr : (lg.value.readable && resumed lg.value) = true
  · left
    simp only [Watcher.judge, hr, if_true]
    rw [Bool.and_eq_true] at hr
    exact ⟨hr.1, hr.2, _, rfl, rfl, rfl⟩
  · right
    simp only [Watcher.judge, hr]
    by_cases hb : budgetMs ≤ now - w.t0
    · left
      simp only [hb, if_true]
      exact ⟨trivial, _, rfl, rfl, rfl⟩
    · right
      simp only [hb]
      exact ⟨not_le.mp hb, rfl⟩

/-- A round convicts on a `completed` status and a readable log without resumption. -/
theorem completedUnresumed_judge
    (h : (w.judge budgetMs resumed st lg now).completedUnresumed = true) :
    w.completedUnresumed = true ∨
      st.value = some (js "completed") ∧ lg.value.readable = true ∧ resumed lg.value = false := by
  simp only [Watcher.judge, Bool.or_eq_true, Bool.and_eq_true, beq_iff_eq] at h
  rcases h with h | ⟨⟨hst, hread⟩, hres⟩
  · exact Or.inl h
  · right
    simp only [hread, Bool.true_and, Bool.not_eq_true'] at hres
    exact ⟨hst, hread, hres⟩

end Judge

section Soundness

variable {host : Host State} {resumed : Observation → Bool} {budgetMs resolution : ℚ}
  {r : Run State} {s : State} {now : ℚ}

/-- What the watcher knows of the instants the host went through. -/
structure Sound (host : Host State) (resumed : Observation → Bool) (r : Run State) : Prop where
  here : r.host ∈ r.instants
  latched : r.watcher.completedUnresumed = true →
    ∃ i ∈ r.instants, CompletedUnresumed host resumed i
  pending : ∀ st, r.watcher.stage = .log st → st.value = some (js "completed") →
    ∃ i ∈ r.instants, host.status i = js "completed" ∧ ReflTransGen host.step i r.host
  convicted : ∀ w, r.watcher.stage = .done w →
    w.completedUnresumed = r.watcher.completedUnresumed
  resumed : ∀ w, r.watcher.stage = .done w → w.resumedAfterMs ≠ none →
    ∃ i ∈ r.instants, w.last = observe (host.log i) ∧ Resumed host resumed i

theorem sound_start : Sound host resumed (.start s now) where
  here := List.mem_singleton_self s
  latched h := by cases h
  pending st h := by cases h
  convicted w h := by cases h
  resumed w h := by cases h

theorem Host.log_prefix (host : Host State) {s t : State} (h : ReflTransGen host.step s t) :
    host.log s <+: host.log t := by
  induction h with
  | refl => exact List.prefix_refl _
  | tail _ ht ih => exact ih.trans (host.grows _ _ ht)

theorem Sound.moves (hr : Sound host resumed r) (hs : host.step r.host s) :
    Sound host resumed (r.next budgetMs resumed (.host s)) where
  here := List.mem_append_right _ (List.mem_singleton_self s)
  latched h := by
    obtain ⟨i, hi, hc⟩ := hr.latched h
    exact ⟨i, List.mem_append_left _ hi, hc⟩
  pending st h hst := by
    obtain ⟨i, hi, hc, hsteps⟩ := hr.pending st h hst
    exact ⟨i, List.mem_append_left _ hi, hc, hsteps.tail hs⟩
  convicted := hr.convicted
  resumed w h hw := by
    obtain ⟨i, hi, hc⟩ := hr.resumed w h hw
    exact ⟨i, List.mem_append_left _ hi, hc⟩

theorem Sound.readStatus (hr : Sound host resumed r) {answer : Option (Option JsString)}
    (ha : ∀ st, answer = some (some st) → st = host.status r.host) :
    Sound host resumed (r.next budgetMs resumed (.readStatus answer)) where
  here := hr.here
  latched := hr.latched
  pending st h hst := by
    refine ⟨r.host, hr.here, ?_, .refl⟩
    obtain rfl := Stage.log.inj h
    cases answer with
    | none => cases hst
    | some a => exact (ha _ (congrArg some hst)).symm
  convicted w h := by cases h
  resumed w h := by cases h

/-- The log is read after the status, so it shows at least what the log showed then. -/
theorem Sound.readLog (hr : Sound host resumed r)
    (hstays : ∀ l l', l <+: l' → resumed (observe l) = true → resumed (observe l') = true)
    {st : Read (Option JsString)} {answer : Option Observation}
    (hst : r.watcher.stage = .log st)
    (ha : ∀ o, answer = some o → o.readable = true → o = observe (host.log r.host)) :
    Sound host resumed (r.next budgetMs resumed (.readLog answer)) := by
  have hread : (orNull answer unreadable).value.readable = true →
      (orNull answer unreadable).value = observe (host.log r.host) := by
    cases answer with
    | none => exact fun h => by cases h
    | some o => exact ha o rfl
  simp only [Run.next, hst]
  generalize hj : r.watcher.judge budgetMs resumed st (orNull answer unreadable) r.clock = j
  constructor
  · exact hr.here
  · intro h
    rcases completedUnresumed_judge (hj ▸ h) with h | ⟨hc, hl, hres⟩
    · exact hr.latched h
    · obtain ⟨i, hi, hic, hsteps⟩ := hr.pending st hst hc
      refine ⟨i, hi, hic, ?_⟩
      by_contra hi
      have := hstays _ _ (host.log_prefix hsteps) (by simpa using hi)
      rw [← hread hl, hres] at this
      cases this
  · intro st' h hc
    rcases judge_cases hj with ⟨_, _, w, hw, _⟩ | ⟨_, w, hw, _⟩ | ⟨_, hw⟩
    all_goals
      rw [hw] at h
      cases h
  · intro w h
    rcases judge_cases hj with ⟨_, _, w', hw, _, hc⟩ | ⟨_, w', hw, _, hc⟩ | ⟨_, hw⟩
    · rw [hw] at h
      rwa [← Stage.done.inj h]
    · rw [hw] at h
      rwa [← Stage.done.inj h]
    · rw [hw] at h
      cases h
  · intro w h hne
    rcases judge_cases hj with ⟨hl, hres, w', hw, hlast, _⟩ | ⟨_, w', hw, hnone, _⟩ | ⟨_, hw⟩
    · rw [hw] at h
      rw [← Stage.done.inj h, hlast, hread hl]
      exact ⟨r.host, hr.here, rfl, by rwa [Resumed, ← hread hl]⟩
    · rw [hw] at h
      rw [← Stage.done.inj h] at hne
      exact absurd hnone hne
    · rw [hw] at h
      cases h

theorem Sound.next (hr : Sound host resumed r)
    (hstays : ∀ l l', l <+: l' → resumed (observe l) = true → resumed (observe l') = true)
    {e : Event State} (he : Admits host resolution r e) :
    Sound host resumed (r.next budgetMs resumed e) := by
  cases e with
  | host s => exact hr.moves he
  | tick ms => exact ⟨hr.here, hr.latched, hr.pending, hr.convicted, hr.resumed⟩
  | readStatus answer => exact hr.readStatus he.2
  | readLog answer =>
    obtain ⟨⟨st, hst⟩, ha⟩ := he
    exact hr.readLog hstays hst ha
  | sleep ms =>
    refine ⟨hr.here, hr.latched, fun st h => ?_, fun w h => ?_, fun w h => ?_⟩
    all_goals cases h

end Soundness

section Termination

variable {host : Host State} {resumed : Observation → Bool} {budgetMs resolution : ℚ}
  {r : Run State} {s : State} {now : ℚ}

/-- The awaits of a round that are over. -/
def Stage.position : Stage → Nat
  | .status => 0
  | .log _ => 1
  | .sleep | .done _ => 2

/-- The watcher has slept so many times, and each sleep took its share of the budget. -/
structure Timed (budgetMs resolution : ℚ) (r : Run State) (sleeps : Nat) : Prop where
  turns : r.turns = 3 * sleeps + r.watcher.stage.position
  elapsed : sleeps * resolution ≤ r.clock - r.watcher.t0
  within : sleeps ≤ ⌈budgetMs / resolution⌉₊
  asleep : r.watcher.stage = .sleep → sleeps * resolution < budgetMs

theorem timed_start : Timed budgetMs resolution (.start s now) 0 where
  turns := rfl
  elapsed := by simp [Run.start]
  within := Nat.zero_le _
  asleep h := by cases h

theorem Timed.next (hres : 0 < resolution) {sleeps : Nat}
    (hr : Timed budgetMs resolution r sleeps) {e : Event State}
    (he : Admits host resolution r e) :
    ∃ sleeps, Timed budgetMs resolution (r.next budgetMs resumed e) sleeps := by
  obtain ⟨hturns, helapsed, hwithin, hasleep⟩ := hr
  cases e with
  | host s => exact ⟨sleeps, hturns, helapsed, hwithin, hasleep⟩
  | tick ms =>
    refine ⟨sleeps, hturns, ?_, hwithin, hasleep⟩
    have hms : 0 ≤ ms := he
    simp only [Run.next]
    linarith
  | readStatus answer =>
    refine ⟨sleeps, ?_, helapsed, hwithin, fun h => by cases h⟩
    rw [he.1] at hturns
    simp [Run.next, hturns, Stage.position]
  | readLog answer =>
    obtain ⟨⟨st, hst⟩, _⟩ := he
    rw [hst] at hturns
    refine ⟨sleeps, ?_⟩
    simp only [Run.next, hst]
    generalize hj : r.watcher.judge budgetMs resumed st (orNull answer unreadable) r.clock = j
    have ht0 : j.t0 = r.watcher.t0 := by
      rw [← hj]
      rfl
    rw [← ht0] at helapsed
    rcases judge_cases hj with ⟨_, _, w, hw, _⟩ | ⟨_, w, hw, _⟩ | ⟨hlt, hw⟩
    · exact ⟨by simp [hw, hturns, Stage.position], helapsed, hwithin, fun h => by simp [hw] at h⟩
    · exact ⟨by simp [hw, hturns, Stage.position], helapsed, hwithin, fun h => by simp [hw] at h⟩
    · exact ⟨by simp [hw, hturns, Stage.position], helapsed, hwithin,
        fun _ => helapsed.trans_lt (ht0 ▸ hlt)⟩
  | sleep ms =>
    obtain ⟨hstage, hms⟩ := he
    have hlt : (sleeps : ℚ) < budgetMs / resolution := (lt_div_iff₀ hres).mpr (hasleep hstage)
    rw [hstage] at hturns
    refine ⟨sleeps + 1, ?_, ?_, ?_, fun h => by cases h⟩
    · simp [Run.next, hturns, Stage.position]
      omega
    · simp only [Run.next]
      push_cast
      linarith
    · exact Nat.lt_ceil.mpr hlt

/-- Until the watch has ended, its await can be over. -/
theorem exists_turn (host : Host State) (resolution : ℚ) (r : Run State) :
    r.Ended ∨ ∃ e : Event State, e.IsTurn ∧ Admits host resolution r e := by
  cases hstage : r.watcher.stage with
  | status => exact Or.inr ⟨.readStatus none, trivial, hstage, fun st h => by cases h⟩
  | log st => exact Or.inr ⟨.readLog none, trivial, ⟨st, hstage⟩, fun o h => by cases h⟩
  | sleep => exact Or.inr ⟨.sleep resolution, trivial, hstage, le_rfl⟩
  | done w => exact Or.inl ⟨w, hstage⟩

/-- Each of the watcher's awaits that is over is one turn. -/
theorem turns_next {e : Event State} (he : Admits host resolution r e) (ht : e.IsTurn) :
    (r.next budgetMs resumed e).turns = r.turns + 1 := by
  cases e with
  | host s => cases ht
  | tick ms => cases ht
  | readStatus answer => rfl
  | readLog answer =>
    obtain ⟨⟨st, hst⟩, _⟩ := he
    simp only [Run.next, hst]
  | sleep ms => rfl

/-- A round that finds the budget passed is the last. -/
theorem ended_of_budget {st : Read (Option JsString)} {answer : Option Observation}
    (hst : r.watcher.stage = .log st) (hb : budgetMs ≤ r.clock - r.watcher.t0) :
    (r.next budgetMs resumed (.readLog answer)).Ended := by
  simp only [Run.Ended, Run.next, hst]
  rcases judge_cases rfl with ⟨_, _, w, hw, _⟩ | ⟨_, w, hw, _⟩ | ⟨hlt, _⟩
  · exact ⟨w, hw⟩
  · exact ⟨w, hw⟩
  · exact absurd hb (not_le.mpr hlt)

end Termination

section Watching

variable {host : Host State} {resumed : Observation → Bool} {budgetMs resolution : ℚ}
  {r : Run State} {s : State} {now : ℚ}

/-- A run of the watch that the host and the clock admit. -/
abbrev Watching (host : Host State) (resumed : Observation → Bool) (budgetMs resolution : ℚ)
    (s : State) (now : ℚ) : Run State → Prop :=
  Reachable (Run.next budgetMs resumed) (Admits host resolution) (.start s now)

theorem turns_le (hres : 0 < resolution) (h : Watching host resumed budgetMs resolution s now r) :
    r.turns ≤ 3 * ⌈budgetMs / resolution⌉₊ + 2 := by
  obtain ⟨sleeps, ht⟩ : ∃ sleeps, Timed budgetMs resolution r sleeps :=
    h.invariant (I := fun r => ∃ sleeps, Timed budgetMs resolution r sleeps) ⟨0, timed_start⟩
      fun _ _ ⟨_, ht⟩ he => ht.next hres he
  have hpos : r.watcher.stage.position ≤ 2 := by
    cases r.watcher.stage <;> simp [Stage.position]
  have := ht.turns
  have := ht.within
  omega

/-- What the watch returns is so, and it returns. It convicts a run that was completed while
its log showed no resumption, it reports a resumption the log showed, and on a clock that
each sleep advances it ends within so many awaits, at the first round past its budget. -/
theorem watchForResumption_sound (hres : 0 < resolution)
    (hstays : ∀ l l', l <+: l' → resumed (observe l) = true → resumed (observe l') = true)
    (h : Watching host resumed budgetMs resolution s now r) :
    (∀ w, r.watcher.stage = .done w →
      (w.completedUnresumed = true → ∃ i ∈ r.instants, CompletedUnresumed host resumed i) ∧
      ((∀ i ∈ r.instants, host.status i = js "completed" → Resumed host resumed i) →
        w.completedUnresumed = false) ∧
      (w.resumedAfterMs ≠ none →
        ∃ i ∈ r.instants, w.last = observe (host.log i) ∧ Resumed host resumed i)) ∧
    (r.turns ≤ 3 * ⌈budgetMs / resolution⌉₊ + 2 ∧
      (r.Ended ∨ ∃ e : Event State, e.IsTurn ∧ Admits host resolution r e) ∧
      (∀ e : Event State, Admits host resolution r e → e.IsTurn →
        (r.next budgetMs resumed e).turns = r.turns + 1) ∧
      ∀ st answer, r.watcher.stage = .log st → budgetMs ≤ r.clock - r.watcher.t0 →
        (r.next budgetMs resumed (.readLog answer)).Ended) := by
  have hsound : Sound host resumed r :=
    h.invariant sound_start fun _ _ hs he => hs.next hstays he
  refine ⟨fun w hw => ?_, turns_le hres h, exists_turn host resolution r,
    fun e he ht => turns_next he ht, fun st answer hst hb => ended_of_budget hst hb⟩
  have hconvicts : w.completedUnresumed = true →
      ∃ i ∈ r.instants, CompletedUnresumed host resumed i := by
    intro hc
    rw [hsound.convicted w hw] at hc
    exact hsound.latched hc
  refine ⟨hconvicts, fun hconforms => ?_, hsound.resumed w hw⟩
  by_contra hc
  obtain ⟨i, hi, hstatus, hlog⟩ := hconvicts (by simpa using hc)
  have hresumed : Resumed host resumed i := hconforms i hi hstatus
  rw [Resumed, hlog] at hresumed
  cases hresumed

/-- A count that reaches a bound has reached it in every longer log. -/
theorem observe_runStarted_stays (bound : Nat) (l l' : List JsString) (h : l <+: l')
    (hl : decide (bound ≤ (observe l).runStarted) = true) :
    decide (bound ≤ (observe l').runStarted) = true := by
  rw [decide_eq_true_iff] at hl ⊢
  exact hl.trans (h.sublist.countP_le)

/-- A host that completes after its first start and never moves again. -/
def stuckHost : Host Unit where
  step _ _ := False
  status _ := js "completed"
  log _ := [js "run.started"]
  grows _ _ h := h.elim

/-- It is convicted at the end of its budget. -/
theorem watchForResumption_sound_stuckHost :
    ∃ r : Run Unit, ∃ w, r.watcher.stage = .done w ∧ w.completedUnresumed = true ∧
      ∃ i ∈ r.instants, CompletedUnresumed stuckHost (fun o => 2 ≤ o.runStarted) i := by
  let resumed : Observation → Bool := fun o => 2 ≤ o.runStarted
  let r0 : Run Unit := .start () 0
  let r1 := r0.next 0 resumed (.readStatus (some (some (js "completed"))))
  let r2 := r1.next 0 resumed (.readLog (some (observe [js "run.started"])))
  have h1 : Watching stuckHost resumed 0 1 () 0 r1 :=
    .step .start ⟨rfl, fun _ h => by cases h; rfl⟩
  have h2 : Watching stuckHost resumed 0 1 () 0 r2 :=
    .step h1 ⟨⟨_, rfl⟩, fun _ h _ => by cases h; rfl⟩
  have hbudget : 0 ≤ r1.clock - r1.watcher.t0 := by simp [r1, r0, Run.next, Run.start]
  obtain ⟨w, hw⟩ : r2.Ended := ended_of_budget rfl hbudget
  have hsound : Sound stuckHost resumed r2 :=
    h2.invariant sound_start fun _ _ hs he => hs.next (observe_runStarted_stays 2) he
  have hc : w.completedUnresumed = true := by
    rw [hsound.convicted w hw]
    decide
  exact ⟨r2, w, hw, hc,
    ((watchForResumption_sound one_pos (observe_runStarted_stays 2) h2).1 w hw).1 hc⟩

end Watching

end OpenWop.Durability
