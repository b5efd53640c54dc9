import Mathlib.Data.Set.Card
import OpenWop.Js.Json

/-!
# Usage of the agent under test

Usage is attributed by position: it counts while an invocation of the agent is open and none of
another agent. Two counters stand for the open invocations, which are kept in a map.
-/

namespace OpenWop.Eval

open OpenWop.Js

section Code

/-- An event of the log. -/
structure LogEvent where
  type : JsString
  payload : Record JsString Json
  deriving DecidableEq

/-- `e.payload['invocationId']`, when it is a string. -/
def LogEvent.invocationId (e : LogEvent) : Option JsString :=
  match Record.get? e.payload (js "invocationId") with
  | some (.str id) => some id
  | _ => none

/-- `e.payload['agentId'] === agentId` -/
def LogEvent.isOf (agentId : JsString) (e : LogEvent) : Bool :=
  Record.get? e.payload (js "agentId") = some (.str agentId)

/-- The state of `agentUsage` over the log. -/
structure UsageState where
  opened : Map JsString Bool
  mine : ℤ
  other : ℤ
  bracketed : Bool
  inside : List (Record JsString Json)
  all : List (Record JsString Json)

/-- The state before the log. -/
def UsageState.start : UsageState :=
  { opened := Map.empty, mine := 0, other := 0, bracketed := false, inside := [], all := [] }

/-- One event. -/
def UsageState.step (agentId : JsString) (s : UsageState) (e : LogEvent) : UsageState :=
  match decide (e.type = js "agent.invocation.started"), e.invocationId with
  | true, some id =>
    let isMine := e.isOf agentId
    { s with
      bracketed := true
      opened := s.opened.set id isMine
      mine := if isMine then s.mine + 1 else s.mine
      other := if isMine then s.other else s.other + 1 }
  | _, id =>
    match decide (e.type = js "agent.invocation.completed"), id.bind s.opened.get? with
    | true, some isMine =>
      { s with
        mine := if isMine then s.mine - 1 else s.mine
        other := if isMine then s.other else s.other - 1
        opened := id.elim s.opened s.opened.erase }
    | _, _ =>
      if e.type = js "provider.usage" then
        { s with
          all := s.all ++ [e.payload]
          inside := if 0 < s.mine ∧ s.other = 0 then s.inside ++ [e.payload] else s.inside }
      else s

/-- The state after a log. -/
def usageState (agentId : JsString) (events : List LogEvent) : UsageState :=
  events.foldl (UsageState.step agentId) UsageState.start

/-- `agentUsage` -/
def agentUsage (events : List LogEvent) (agentId : JsString) :
    Bool × List (Record JsString Json) :=
  let s := usageState agentId events
  if s.bracketed then (s.bracketed, s.inside) else (s.bracketed, s.all)

end Code

section Brackets

/-- The event starts that invocation. -/
def LogEvent.Starts (e : LogEvent) (id : JsString) : Prop :=
  e.type = js "agent.invocation.started" ∧ e.invocationId = some id

/-- The event completes that invocation. -/
def LogEvent.Completes (e : LogEvent) (id : JsString) : Prop :=
  e.type = js "agent.invocation.completed" ∧ e.invocationId = some id

instance (e : LogEvent) (id : JsString) : Decidable (e.Starts id) := inferInstanceAs (Decidable (_ ∧ _))

instance (e : LogEvent) (id : JsString) : Decidable (e.Completes id) :=
  inferInstanceAs (Decidable (_ ∧ _))

/-- The event that opened an invocation, of a log with its latest event first. -/
def openedBy (id : JsString) : List LogEvent → Option LogEvent
  | [] => none
  | e :: before =>
    if e.Starts id then some e else if e.Completes id then none else openedBy id before

/-- The event that opened an invocation which is open after the log. -/
def openInvocation (events : List LogEvent) (id : JsString) : Option LogEvent :=
  openedBy id events.reverse

/-- The invocations open after the log that are of the agent, or of other agents. -/
def openInvocations (agentId : JsString) (events : List LogEvent) (isMine : Bool) : Set JsString :=
  {id | (openInvocation events id).map (LogEvent.isOf agentId) = some isMine}

/-- Some invocation of the agent is open after the log, and none of another agent. -/
def Attributed (agentId : JsString) (events : List LogEvent) : Prop :=
  (openInvocations agentId events true).Nonempty ∧ openInvocations agentId events false = ∅

open Classical in
/-- The usage at the positions that count. -/
noncomputable def attributedUsage (agentId : JsString) (events : List LogEvent) :
    List (Record JsString Json) :=
  (List.range events.length).filterMap fun i => events[i]?.bind fun e =>
    if e.type = js "provider.usage" ∧ Attributed agentId (events.take i) then some e.payload else none

/-- All the usage of the log. -/
def allUsage (events : List LogEvent) : List (Record JsString Json) :=
  (events.filter fun e => e.type = js "provider.usage").map LogEvent.payload

open Classical in
/-- The usage the agent is to be given. -/
noncomputable def usageOf (agentId : JsString) (events : List LogEvent) :
    List (Record JsString Json) :=
  if ∃ e ∈ events, ∃ id, e.Starts id then attributedUsage agentId events else allUsage events

end Brackets

section Steps

variable {agentId : JsString} {events : List LogEvent} {e : LogEvent}

theorem usageState_append : usageState agentId (events ++ [e]) =
    (usageState agentId events).step agentId e := by
  rw [usageState, usageState, List.foldl_append, List.foldl_cons, List.foldl_nil]

theorem openInvocation_append (id : JsString) : openInvocation (events ++ [e]) id =
    if e.Starts id then some e else if e.Completes id then none else openInvocation events id := by
  rw [openInvocation, List.reverse_append, List.reverse_singleton, List.singleton_append, openedBy,
    ← openInvocation]

/-- The step of an event that starts an invocation. -/
theorem step_starts {s : UsageState} {id : JsString} (h : e.Starts id) : s.step agentId e =
    { s with
      bracketed := true
      opened := s.opened.set id (e.isOf agentId)
      mine := if e.isOf agentId then s.mine + 1 else s.mine
      other := if e.isOf agentId then s.other else s.other + 1 } := by
  rw [UsageState.step, h.1, h.2]
  rfl

/-- The step of an event that completes an open invocation. -/
theorem step_completes {s : UsageState} {id : JsString} {isMine : Bool} (h : e.Completes id)
    (hopen : s.opened.get? id = some isMine) : s.step agentId e =
    { s with
      mine := if isMine then s.mine - 1 else s.mine
      other := if isMine then s.other else s.other - 1
      opened := s.opened.erase id } := by
  have hstart : decide (e.type = js "agent.invocation.started") = false := by
    rw [h.1]
    decide
  rw [UsageState.step, hstart, h.2, h.1]
  simp [hopen]

/-- The step of any other event. -/
theorem step_other {s : UsageState} (hstarts : ∀ id, ¬ e.Starts id)
    (hcompletes : ∀ id, e.Completes id → s.opened.get? id = none) : s.step agentId e =
    if e.type = js "provider.usage" then
      { s with
        all := s.all ++ [e.payload]
        inside := if 0 < s.mine ∧ s.other = 0 then s.inside ++ [e.payload] else s.inside }
    else s := by
  rw [UsageState.step]
  cases hid : e.invocationId with
  | none => cases decide (e.type = js "agent.invocation.started") <;> simp
  | some id =>
    have hstart : decide (e.type = js "agent.invocation.started") = false :=
      decide_eq_false fun htype => hstarts id ⟨htype, hid⟩
    rw [hstart]
    by_cases htype : e.type = js "agent.invocation.completed"
    · simp [hcompletes id ⟨htype, hid⟩]
    · simp [htype]

/-- An event starts an invocation, completes an open one or does neither. -/
theorem event_cases (s : UsageState) (e : LogEvent) :
    (∃ id, e.Starts id) ∨ (∃ id isMine, e.Completes id ∧ s.opened.get? id = some isMine) ∨
      ((∀ id, ¬ e.Starts id) ∧ ∀ id, e.Completes id → s.opened.get? id = none) := by
  by_cases hstarts : ∃ id, e.Starts id
  · exact .inl hstarts
  · by_cases hcompletes : ∃ id isMine, e.Completes id ∧ s.opened.get? id = some isMine
    · exact .inr (.inl hcompletes)
    · refine .inr (.inr ⟨fun id hid => hstarts ⟨id, hid⟩, fun id hid => ?_⟩)
      rw [Option.eq_none_iff_forall_ne_some]
      exact fun isMine hopen => hcompletes ⟨id, isMine, hid, hopen⟩

theorem LogEvent.Starts.not_completes {id id' : JsString} (h : e.Starts id) : ¬ e.Completes id' := by
  intro h'
  have hne : js "agent.invocation.started" ≠ js "agent.invocation.completed" := by decide
  exact hne (h.1.symm.trans h'.1)

theorem LogEvent.Starts.id_eq {id id' : JsString} (h : e.Starts id) (h' : e.Starts id') : id' = id :=
  Option.some.inj (h'.2.symm.trans h.2)

theorem LogEvent.Completes.id_eq {id id' : JsString} (h : e.Completes id) (h' : e.Completes id') :
    id' = id :=
  Option.some.inj (h'.2.symm.trans h.2)

/-- The map holds the open invocations. -/
theorem get?_opened (agentId : JsString) (events : List LogEvent) (id : JsString) :
    (usageState agentId events).opened.get? id =
      (openInvocation events id).map (LogEvent.isOf agentId) := by
  induction events using List.reverseRecOn with
  | nil => rfl
  | append_singleton events e ih =>
    rw [usageState_append, openInvocation_append]
    rcases event_cases (usageState agentId events) e with
      ⟨id', hstarts⟩ | ⟨id', isMine, hcompletes, hopen⟩ | ⟨hstarts, hcompletes⟩
    · rw [step_starts hstarts, Map.get?_set]
      by_cases heq : id = id'
      · subst heq
        rw [if_pos rfl, if_pos hstarts, Option.map_some]
      · rw [if_neg heq, if_neg fun h => heq (hstarts.id_eq h), if_neg hstarts.not_completes, ih]
    · have hnot : ¬ e.Starts id := fun h => h.not_completes hcompletes
      rw [step_completes hcompletes hopen, Map.get?_erase, if_neg hnot]
      by_cases heq : id = id'
      · subst heq
        rw [if_pos rfl, if_pos hcompletes, Option.map_none]
      · rw [if_neg heq, if_neg fun h => heq (hcompletes.id_eq h), ih]
    · rw [step_other hstarts hcompletes, if_neg (hstarts id)]
      have hsame : (if e.type = js "provider.usage" then
          { usageState agentId events with
            all := (usageState agentId events).all ++ [e.payload]
            inside := if 0 < (usageState agentId events).mine ∧ (usageState agentId events).other = 0
              then (usageState agentId events).inside ++ [e.payload]
              else (usageState agentId events).inside }
          else usageState agentId events).opened = (usageState agentId events).opened := by
        split <;> rfl
      rw [hsame, ih]
      split
      · next hc =>
        rw [← ih, hcompletes id hc, Option.map_none]
      · rfl

end Steps

section Counters

variable {agentId : JsString} {events : List LogEvent} {e : LogEvent}

/-- The counter of the agent, or of other agents. -/
def UsageState.counter (s : UsageState) : Bool → ℤ
  | true => s.mine
  | false => s.other

/-- The counters are the numbers of open invocations. -/
def Counted (agentId : JsString) (events : List LogEvent) : Prop :=
  ∀ isMine, (usageState agentId events).counter isMine =
    ((openInvocations agentId events isMine).ncard : ℤ)

/-- No event starts an invocation that is open. -/
def NoRestart (events : List LogEvent) : Prop :=
  ∀ before e id, before ++ [e] <+: events → e.Starts id → openInvocation before id = none

theorem finite_openInvocations (agentId : JsString) (events : List LogEvent) (isMine : Bool) :
    (openInvocations agentId events isMine).Finite := by
  refine (List.finite_toSet (usageState agentId events).opened.keys).subset fun id hid => ?_
  refine Map.get?_isSome_iff.mp ?_
  rw [get?_opened, show (openInvocation events id).map _ = some isMine from hid, Option.isSome_some]

theorem openInvocations_starts {id : JsString} (h : e.Starts id) (isMine : Bool) :
    openInvocations agentId (events ++ [e]) isMine =
      if e.isOf agentId = isMine then insert id (openInvocations agentId events isMine)
      else openInvocations agentId events isMine \ {id} := by
  ext id'
  by_cases heq : id' = id
  · subst heq
    have hread : openInvocation (events ++ [e]) id' = some e := by
      rw [openInvocation_append, if_pos h]
    split
    · next hmine => simp [openInvocations, hread, hmine]
    · next hmine => simp [openInvocations, hread, hmine]
  · have hread : openInvocation (events ++ [e]) id' = openInvocation events id' := by
      rw [openInvocation_append, if_neg fun h' => heq (h.id_eq h'), if_neg h.not_completes]
    split <;> simp [openInvocations, hread, heq]

theorem openInvocations_completes {id : JsString} (h : e.Completes id) (isMine : Bool) :
    openInvocations agentId (events ++ [e]) isMine =
      openInvocations agentId events isMine \ {id} := by
  ext id'
  have hnot : ¬ e.Starts id' := fun h' => h'.not_completes h
  by_cases heq : id' = id
  · subst heq
    simp [openInvocations, openInvocation_append, hnot, h]
  · have hother : ¬ e.Completes id' := fun h' => heq (h.id_eq h')
    simp [openInvocations, openInvocation_append, hnot, hother, heq]

theorem openInvocations_other (hstarts : ∀ id, ¬ e.Starts id)
    (hcompletes : ∀ id, e.Completes id → (usageState agentId events).opened.get? id = none)
    (isMine : Bool) :
    openInvocations agentId (events ++ [e]) isMine = openInvocations agentId events isMine := by
  ext id
  rw [openInvocations, openInvocations, Set.mem_ofPred_eq, Set.mem_ofPred_eq, openInvocation_append,
    if_neg (hstarts id)]
  split
  · next h => rw [← get?_opened, hcompletes id h, Option.map_none]
  · rfl

theorem counter_starts {s : UsageState} {id : JsString} (h : e.Starts id) (isMine : Bool) :
    (s.step agentId e).counter isMine =
      if e.isOf agentId = isMine then s.counter isMine + 1 else s.counter isMine := by
  rw [step_starts h]
  cases isMine <;> cases e.isOf agentId <;> rfl

theorem counter_completes {s : UsageState} {id : JsString} {wasMine : Bool} (h : e.Completes id)
    (hopen : s.opened.get? id = some wasMine) (isMine : Bool) :
    (s.step agentId e).counter isMine =
      if wasMine = isMine then s.counter isMine - 1 else s.counter isMine := by
  rw [step_completes h hopen]
  cases isMine <;> cases wasMine <;> rfl

theorem counter_other {s : UsageState} (hstarts : ∀ id, ¬ e.Starts id)
    (hcompletes : ∀ id, e.Completes id → s.opened.get? id = none) (isMine : Bool) :
    (s.step agentId e).counter isMine = s.counter isMine := by
  rw [step_other hstarts hcompletes]
  split <;> cases isMine <;> rfl

/-- One event that starts no open invocation. -/
theorem Counted.step (h : Counted agentId events)
    (hfresh : ∀ id, e.Starts id → openInvocation events id = none) :
    Counted agentId (events ++ [e]) := by
  intro isMine
  rw [usageState_append]
  rcases event_cases (usageState agentId events) e with
    ⟨id, hstarts⟩ | ⟨id, wasMine, hcompletes, hopen⟩ | ⟨hstarts, hcompletes⟩
  · have hout : id ∉ openInvocations agentId events isMine := by
      intro hid
      rw [openInvocations, Set.mem_ofPred_eq, hfresh id hstarts] at hid
      cases hid
    rw [counter_starts hstarts, openInvocations_starts hstarts, h isMine]
    split
    · rw [Set.ncard_insert_of_notMem hout (finite_openInvocations ..)]
      rfl
    · rw [Set.sdiff_singleton_eq_self hout]
  · rw [counter_completes hcompletes hopen, openInvocations_completes hcompletes, h isMine]
    rw [get?_opened] at hopen
    split
    · next hmine =>
      have hin : id ∈ openInvocations agentId events isMine := hmine ▸ hopen
      rw [← Set.ncard_sdiff_singleton_add_one hin (finite_openInvocations ..)]
      simp
    · next hmine =>
      rw [Set.sdiff_singleton_eq_self]
      intro hid
      exact hmine (Option.some.inj (hopen.symm.trans hid))
  · rw [counter_other hstarts hcompletes, openInvocations_other hstarts hcompletes, h isMine]

/-- An open invocation that is started again is counted twice. -/
theorem not_counted_restart (h : Counted agentId events) {id : JsString} (hstarts : e.Starts id)
    (hopen : openInvocation events id ≠ none) : ¬ Counted agentId (events ++ [e]) := by
  intro h'
  obtain ⟨e₀, he₀⟩ := Option.ne_none_iff_exists'.mp hopen
  have hin : id ∈ openInvocations agentId events (e₀.isOf agentId) := by
    rw [openInvocations, Set.mem_ofPred_eq, he₀, Option.map_some]
  have hcount := h (e₀.isOf agentId)
  have hcount' := h' (e₀.isOf agentId)
  rw [usageState_append, counter_starts hstarts, openInvocations_starts hstarts] at hcount'
  split at hcount'
  · rw [Set.insert_eq_of_mem hin, hcount] at hcount'
    omega
  · rw [hcount, ← Set.ncard_sdiff_singleton_add_one hin (finite_openInvocations ..)] at hcount'
    omega

theorem NoRestart.of_prefix {before : List LogEvent} (h : NoRestart events)
    (hbefore : before <+: events) : NoRestart before :=
  fun before' e id hle => h before' e id (hle.trans hbefore)

theorem counted_of_noRestart (h : NoRestart events) : Counted agentId events := by
  induction events using List.reverseRecOn with
  | nil =>
    intro isMine
    have hempty : openInvocations agentId [] isMine = ∅ := by
      ext id
      simp [openInvocations, openInvocation, openedBy]
    rw [hempty, Set.ncard_empty]
    cases isMine <;> rfl
  | append_singleton events e ih =>
    exact (ih (h.of_prefix (List.prefix_append ..))).step fun id hid =>
      h events e id (List.prefix_refl _) hid

/-- The counters are right after every event exactly when no open invocation is started again. -/
theorem forall_counted_iff :
    (∀ before, before <+: events → Counted agentId before) ↔ NoRestart events := by
  constructor
  · intro h before e id hprefix hstarts
    by_contra hopen
    exact not_counted_restart (h before ((List.prefix_append ..).trans hprefix)) hstarts hopen
      (h _ hprefix)
  · exact fun h before hprefix => counted_of_noRestart (h.of_prefix hprefix)

end Counters

section Usage

variable {agentId : JsString} {events : List LogEvent} {e : LogEvent}

/-- Right counters tell what is attributed. -/
theorem Counted.attributed_iff (h : Counted agentId events) :
    (0 < (usageState agentId events).mine ∧ (usageState agentId events).other = 0) ↔
      Attributed agentId events := by
  have hmine : (usageState agentId events).mine = _ := h true
  have hother : (usageState agentId events).other = _ := h false
  rw [hmine, hother, Attributed, Int.natCast_pos, Set.ncard_pos (finite_openInvocations ..),
    Int.natCast_eq_zero, Set.ncard_eq_zero (finite_openInvocations ..)]

open Classical in
theorem attributedUsage_append : attributedUsage agentId (events ++ [e]) =
    attributedUsage agentId events ++
      if e.type = js "provider.usage" ∧ Attributed agentId events then [e.payload] else [] := by
  have hbefore : ∀ i ∈ List.range events.length,
      ((events ++ [e])[i]?.bind fun e' => if e'.type = js "provider.usage" ∧
        Attributed agentId ((events ++ [e]).take i) then some e'.payload else none) =
      (events[i]?.bind fun e' => if e'.type = js "provider.usage" ∧
        Attributed agentId (events.take i) then some e'.payload else none) := by
    intro i hi
    have hlt := List.mem_range.mp hi
    rw [List.getElem?_append_left hlt, List.take_append_of_le_length hlt.le]
  rw [attributedUsage, attributedUsage, List.length_append, List.length_singleton, List.range_succ,
    List.filterMap_append, List.filterMap_congr hbefore, List.filterMap_cons, List.filterMap_nil,
    List.getElem?_concat_length, Option.bind_some, List.take_left]
  congr 1
  split <;> simp_all

theorem allUsage_append : allUsage (events ++ [e]) =
    allUsage events ++ if e.type = js "provider.usage" then [e.payload] else [] := by
  rw [allUsage, allUsage, List.filter_append, List.map_append]
  congr 1
  split <;> simp_all

/-- What an event adds to the lists of usage. -/
theorem usage_step (s : UsageState) (e : LogEvent) :
    (s.step agentId e).all = s.all ++ (if e.type = js "provider.usage" then [e.payload] else []) ∧
      (s.step agentId e).inside = s.inside ++
        if e.type = js "provider.usage" ∧ 0 < s.mine ∧ s.other = 0 then [e.payload] else [] := by
  rcases event_cases s e with
    ⟨id, hstarts⟩ | ⟨id, wasMine, hcompletes, hopen⟩ | ⟨hstarts, hcompletes⟩
  · have hne : js "agent.invocation.started" ≠ js "provider.usage" := by decide
    rw [step_starts hstarts, hstarts.1]
    simp [hne]
  · have hne : js "agent.invocation.completed" ≠ js "provider.usage" := by decide
    rw [step_completes hcompletes hopen, hcompletes.1]
    simp [hne]
  · rw [step_other hstarts hcompletes]
    by_cases htype : e.type = js "provider.usage"
    · by_cases hinner : 0 < s.mine ∧ s.other = 0 <;> simp [htype, hinner]
    · simp [htype]

theorem usageState_all (agentId : JsString) (events : List LogEvent) :
    (usageState agentId events).all = allUsage events := by
  induction events using List.reverseRecOn with
  | nil => rfl
  | append_singleton events e ih => rw [usageState_append, allUsage_append, (usage_step _ e).1, ih]

theorem usageState_bracketed (agentId : JsString) (events : List LogEvent) :
    (usageState agentId events).bracketed = true ↔ ∃ e ∈ events, ∃ id, e.Starts id := by
  induction events using List.reverseRecOn with
  | nil => simp [usageState, UsageState.start]
  | append_singleton events e ih =>
    have hsplit : (∃ e' ∈ events ++ [e], ∃ id, e'.Starts id) ↔
        (∃ e' ∈ events, ∃ id, e'.Starts id) ∨ ∃ id, e.Starts id := by
      simp [or_and_right, exists_or]
    rw [usageState_append, hsplit, ← ih]
    rcases event_cases (usageState agentId events) e with
      ⟨id, hstarts⟩ | ⟨id, wasMine, hcompletes, hopen⟩ | ⟨hstarts, hcompletes⟩
    · rw [step_starts hstarts]
      exact iff_of_true rfl (.inr ⟨id, hstarts⟩)
    · rw [step_completes hcompletes hopen]
      exact (or_iff_left fun ⟨id', h'⟩ => h'.not_completes hcompletes).symm
    · rw [step_other hstarts hcompletes, or_iff_left fun ⟨id', h'⟩ => hstarts id' h']
      split <;> rfl

/-- With right counters the usage inside is what is attributed. -/
theorem usageState_inside (h : NoRestart events) :
    (usageState agentId events).inside = attributedUsage agentId events := by
  induction events using List.reverseRecOn with
  | nil => rfl
  | append_singleton events e ih =>
    have hbefore : NoRestart events := h.of_prefix (List.prefix_append ..)
    have hcounted : Counted agentId events := counted_of_noRestart hbefore
    have hattributed := hcounted.attributed_iff
    rw [usageState_append, attributedUsage_append, (usage_step _ e).2, ih hbefore]
    by_cases hinner : Attributed agentId events
    · simp [hinner, hattributed.mpr hinner]
    · simp [hinner, mt hattributed.mp hinner]

end Usage

section Claims

/-- The counters follow the open invocations after every event, and the usage is the attributed one,
exactly when the log starts no invocation that is open. -/
theorem agentUsage_iff (agentId : JsString) (events : List LogEvent) :
    ((∀ before, before <+: events →
        (usageState agentId before).mine = (openInvocations agentId before true).ncard ∧
          (usageState agentId before).other = (openInvocations agentId before false).ncard) ∧
      (agentUsage events agentId).2 = usageOf agentId events) ↔ NoRestart events := by
  have hcounted : ∀ before, Counted agentId before ↔
      (usageState agentId before).mine = (openInvocations agentId before true).ncard ∧
        (usageState agentId before).other = (openInvocations agentId before false).ncard :=
    fun before => Bool.forall_bool.trans and_comm
  have hall : (∀ before, before <+: events → Counted agentId before) ↔ NoRestart events :=
    forall_counted_iff
  rw [← hall]
  constructor
  · exact fun h before hprefix => (hcounted before).mpr (h.1 before hprefix)
  · intro h
    refine ⟨fun before hprefix => (hcounted before).mp (h before hprefix), ?_⟩
    have hbracketed := usageState_bracketed agentId events
    rw [agentUsage, usageOf]
    split
    · next hb =>
      rw [if_pos (hbracketed.mp hb), usageState_inside (forall_counted_iff.mp h)]
    · next hb =>
      rw [if_neg fun hs => hb (hbracketed.mpr hs), usageState_all]

/-- The brackets of one invocation of an agent. -/
def bracketEvent (type : JsString) : LogEvent where
  type := type
  payload := [(js "agentId", .str (js "a")), (js "invocationId", .str (js "x"))]

/-- A log that starts an invocation twice and completes it before its usage. -/
def restartedLog : List LogEvent :=
  [bracketEvent (js "agent.invocation.started"), bracketEvent (js "agent.invocation.started"),
    bracketEvent (js "agent.invocation.completed"), ⟨js "provider.usage", []⟩]

/-- Usage after the end of the only invocation is attributed to it. -/
theorem restartedLog_attributed : (usageState (js "a") (restartedLog.take 3)).mine = 1 ∧
    (∀ id, openInvocation (restartedLog.take 3) id = none) ∧
    agentUsage restartedLog (js "a") = (true, [[]]) := by
  refine ⟨by decide, fun id => ?_, by decide⟩
  have hcompletes : (bracketEvent (js "agent.invocation.completed")).Completes (js "x") := by decide
  rw [show restartedLog.take 3 = restartedLog.take 2 ++
    [bracketEvent (js "agent.invocation.completed")] from rfl, openInvocation_append,
    if_neg fun h => h.not_completes hcompletes]
  split
  · rfl
  · next hid =>
    have hne : id ≠ js "x" := fun h => hid (h ▸ hcompletes)
    have hstarts : (bracketEvent (js "agent.invocation.started")).Starts (js "x") := by decide
    have hother : ¬ (bracketEvent (js "agent.invocation.started")).Starts id :=
      fun h => hne (hstarts.id_eq h)
    rw [openInvocation, show (restartedLog.take 2).reverse =
      [bracketEvent (js "agent.invocation.started"),
        bracketEvent (js "agent.invocation.started")] from rfl, openedBy, openedBy, if_neg hother,
      if_neg hstarts.not_completes, if_neg hother, if_neg hstarts.not_completes, openedBy]

end Claims

end OpenWop.Eval
