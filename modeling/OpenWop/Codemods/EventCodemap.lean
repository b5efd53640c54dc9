import OpenWop.Codemods.Walk

/-!
# Event types by the codemap

The codemod renames the event types of a document from the v1 to the v2 vocabulary, by the rows of
the codemap. The other members should stay, two v1 types should not become one, and a second run
should change nothing. It is so where no member is named `__proto__`.
-/

namespace OpenWop.Codemods.EventCodemap

open OpenWop.Js OpenWop.Evidence OpenWop.Codemods

section Source

/-- `id`. -/
def codemodId : JsString := js "openwop.codemod.event-type-codemap"

/-- `map.rows`: the v1 name and the v2 name of each row. -/
def rowNames : List (String × String) := [
  ("run.started", "run.started"),
  ("run.completed", "run.completed"),
  ("run.failed", "run.failed"),
  ("run.cancelled", "run.cancelled"),
  ("run.resuming", "run.resume-started"),
  ("run.paused", "run.paused"),
  ("run.resumed", "run.resumed"),
  ("run.restored-from-snapshot", "run.restored-from-snapshot"),
  ("run.dead_lettered", "run.dead-lettered"),
  ("node.started", "node.started"),
  ("node.completed", "node.completed"),
  ("node.failed", "node.failed"),
  ("node.suspended", "node.suspended"),
  ("node.suspend-failed", "node.suspend-failed"),
  ("node.resumed", "node.resumed"),
  ("node.retried", "node.retried"),
  ("node.skipped", "node.skipped"),
  ("node.cancelled", "node.cancelled"),
  ("approval.requested", "approval.requested"),
  ("approval.received", "approval.received"),
  ("approval.granted", "approval.granted"),
  ("approval.rejected", "approval.rejected"),
  ("approval.overridden", "approval.overridden"),
  ("clarification.requested", "clarification.requested"),
  ("clarification.resolved", "clarification.resolved"),
  ("interrupt.requested", "interrupt.requested"),
  ("interrupt.resolved", "interrupt.resolved"),
  ("channel.written", "channel.written"),
  ("channel.presence", "channel.presence"),
  ("context.summarized", "context.summarized"),
  ("artifact.created", "artifact.created"),
  ("output.chunk", "output.chunk"),
  ("variable.changed", "variable.changed"),
  ("log.appended", "log.appended"),
  ("version.pinned", "version.pinned"),
  ("workflow.restored", "workflow.restored"),
  ("workflow.loopback-limit", "workflow.loopback-limit"),
  ("workflow.stalled", "workflow.stalled"),
  ("cap.breached", "cap.breached"),
  ("lease.acquired", "lease.acquired"),
  ("lease.renewed", "lease.renewed"),
  ("lease.lost", "lease.lost"),
  ("lease.handed-off", "lease.handed-off"),
  ("replay.diverged", "replay.diverged"),
  ("replay.divergedAtRefusal", "replay.diverged-at-refusal"),
  ("agent.reasoned", "agent.reasoned"),
  ("agent.reasoning.delta", "agent.reasoning-delta"),
  ("provider.usage", "provider.usage"),
  ("prompt.composed", "prompt.composed"),
  ("agent.promptResolved", "agent.prompt-resolved"),
  ("model.capability.substituted", "model.capability-substituted"),
  ("model.capability.insufficient", "model.capability-insufficient"),
  ("envelope.retry.attempted", "envelope.retry-attempted"),
  ("envelope.retry.exhausted", "envelope.retry-exhausted"),
  ("envelope.refusal", "envelope.refusal"),
  ("envelope.truncated", "envelope.truncated"),
  ("envelope.nlToFormat.engaged", "envelope.nl-to-format-engaged"),
  ("envelope.recovery.applied", "envelope.recovery-applied"),
  ("agent.toolCalled", "agent.tool-called"),
  ("agent.toolReturned", "agent.tool-returned"),
  ("agent.handoff", "agent.handoff"),
  ("agent.decided", "agent.decided"),
  ("agent.verified", "agent.verified"),
  ("agent.invocation.started", "agent.invocation-started"),
  ("agent.invocation.completed", "agent.invocation-completed"),
  ("eval.started", "eval.started"),
  ("eval.scored", "eval.scored"),
  ("eval.completed", "eval.completed"),
  ("deployment.promoted", "deployment.promoted"),
  ("deployment.rolled-back", "deployment.rolled-back"),
  ("deployment.canary.adjusted", "deployment.canary-adjusted"),
  ("deployment.state.changed", "deployment.state-changed"),
  ("roster.run.initiated", "roster.run-initiated"),
  ("tool.session.opened", "tool.session-opened"),
  ("tool.session.closed", "tool.session-closed"),
  ("egress.decided", "egress.decided"),
  ("trigger.subscription.state.changed", "trigger.subscription-state-changed"),
  ("trigger.delivery.attempted", "trigger.delivery-attempted"),
  ("budget.reserved", "budget.reserved"),
  ("budget.consumed", "budget.consumed"),
  ("budget.threshold.crossed", "budget.threshold-crossed"),
  ("budget.exhausted", "budget.exhausted"),
  ("runOrchestrator.decided", "orchestrator.decided"),
  ("node.dispatched", "node.dispatched"),
  ("core.dispatch.fanOut", "dispatch.fanned-out"),
  ("core.dispatch.join", "dispatch.joined"),
  ("conversation.opened", "conversation.opened"),
  ("conversation.exchanged", "conversation.exchanged"),
  ("conversation.closed", "conversation.closed"),
  ("memory.compacted", "memory.compacted"),
  ("memory.written", "memory.written"),
  ("agent.memory.consolidated", "agent.memory-consolidated"),
  ("commitment.fired", "commitment.fired"),
  ("workspace.updated", "workspace.updated"),
  ("core.workflowChain.event", "workflow-chain.event"),
  ("core.workflowChain.confidence-escalated", "workflow-chain.confidence-escalated"),
  ("connector.authorized", "connector.authorized"),
  ("connector.auth_expired", "connector.auth-expired"),
  ("authorization.decided", "authorization.decided"),
  ("proposal.created", "proposal.created"),
  ("proposal.activated", "proposal.activated"),
  ("goal.evaluated", "goal.evaluated"),
  ("goal.closed", "goal.closed"),
  ("import.applied", "import.applied"),
  ("voice.speech_start", "voice.speech-start"),
  ("voice.transcript", "voice.transcript"),
  ("voice.endpoint_candidate", "voice.endpoint-candidate"),
  ("voice.turn_commit", "voice.turn-commit"),
  ("voice.synthesis_chunk", "voice.synthesis-chunk"),
  ("voice.barge_in", "voice.barge-in"),
  ("voice.cancelled", "voice.cancelled"),
  ("compensation.requested", "compensation.requested"),
  ("compensation.started", "compensation.started"),
  ("compensation.completed", "compensation.completed"),
  ("compensation.failed", "compensation.failed"),
  ("compensation.paused", "compensation.paused"),
  ("compensation.manual_intervention_required", "compensation.manual-intervention-required")
]

/-- `V1_TO_V2`. -/
def v1ToV2 : Record JsString JsString := rowNames.map fun r => (js r.1, js r.2)

/-- `V2`. -/
def v2Names : List JsString := v1ToV2.map Prod.snd

/-- `RESERVED.test(type)`: `^(openwop|core|community|vendor|private|local)\.`. -/
def reserved (type : JsString) : Bool :=
  [js "openwop.", js "core.", js "community.", js "vendor.", js "private.", js "local."].any
    (startsWith type)

/-- `rename(type, path)`. -/
def rename (type path : JsString) : Except Thrown JsString :=
  match Record.get? v1ToV2 type with
  | some name => .ok name
  | none =>
    if type ∈ v2Names then .ok type
    else if reserved type then
      .error (.error (codemodId ++ js ": " ++ path ++ js ".type " ++ quote type ++
        js " is a reserved-prefix name with no codemap row; refusing to guess"))
    else .ok type

/-- The renamed value of a taken member. -/
def rewrite (path : JsString) : Json → Except Thrown Json
  | .str type => (rename type path).map .str
  | v => .ok v

end Source

section Rows

/-- The row is that pair in code units. -/
def Spells (r : String × String) (p : JsString × JsString) : Prop := (js r.1, js r.2) = p

theorem spells_ofList {v1 v2 : String} {cs ds : List Char} (h1 : v1 = String.ofList cs)
    (h2 : v2 = String.ofList ds) :
    Spells (v1, v2) (cs.flatMap utf16Units, ds.flatMap utf16Units) := by
  rw [Spells, h1, h2, js, js, String.toList_ofList, String.toList_ofList]

/-- Each name is in one row, the new names are dotted, and one that replaces another name is not
replaced itself. -/
structure WellFormed (rows : List (JsString × JsString)) : Prop where
  distinct_v1 : (rows.map Prod.fst).Nodup
  distinct_v2 : (rows.map Prod.snd).Nodup
  renamed : ∀ r ∈ rows,
    includes r.2 (js ".") = true ∧ (r.1 = r.2 ∨ r.2 ∉ rows.map Prod.fst)

theorem wellFormed_of_spells {rows : List (JsString × JsString)}
    (h : List.Forall₂ Spells rowNames rows) (hrows : WellFormed rows) : WellFormed v1ToV2 := by
  have heq : v1ToV2 = rows := by
    rw [v1ToV2]
    clear hrows
    generalize rowNames = names at h
    induction h with
    | nil => rfl
    | cons hr _ ih => rw [List.map_cons, ih, hr]
  rwa [heq]

theorem wellFormed_v1ToV2 : WellFormed v1ToV2 := by
  apply wellFormed_of_spells
  · dsimp only [rowNames]
    -- the texts are read as lists of characters once, which the kernel compares quickly
    repeat apply List.Forall₂.cons (spells_ofList rfl rfl)
    exact .nil
  · constructor <;> decide +kernel

end Rows

section Rename

variable {type name path : JsString}

/-- A type is renamed by its row, or stays. -/
theorem rename_ok : rename type path = .ok name ↔ (type, name) ∈ v1ToV2 ∨
    type ∉ Record.keys v1ToV2 ∧ name = type ∧ (type ∈ v2Names ∨ reserved type = false) := by
  have hmem : (type, name) ∈ v1ToV2 ↔ Record.get? v1ToV2 type = some name :=
    ⟨Record.get?_of_mem wellFormed_v1ToV2.distinct_v1, Record.mem_of_get?⟩
  rw [hmem, ← Record.get?_eq_none_iff, rename]
  cases Record.get? v1ToV2 type with
  | some t => simp
  | none =>
    by_cases hnew : type ∈ v2Names
    · simp only [hnew, if_true, Except.ok.injEq, reduceCtorEq, true_or, and_true, true_and,
        false_or]
      exact eq_comm
    · by_cases hreserved : reserved type = true
      · simp only [hnew, hreserved, if_true, if_false, reduceCtorEq, or_self, and_false,
          Bool.true_eq_false]
      · simp only [hnew, hreserved, Bool.false_eq_true, if_false, Except.ok.injEq, reduceCtorEq,
          or_true, and_true, true_and, false_or]
        exact eq_comm

/-- What a dotted type is renamed to is dotted and stays. -/
theorem rename_again (hdot : includes type (js ".") = true) (h : rename type path = .ok name) :
    includes name (js ".") = true ∧ rename name path = .ok name := by
  rcases rename_ok.mp h with hrow | ⟨hold, rfl, hname⟩
  · obtain ⟨hdotted, hrenamed⟩ := wellFormed_v1ToV2.renamed _ hrow
    refine ⟨hdotted, rename_ok.mpr ?_⟩
    rcases hrenamed with heq | hnew
    · left
      rwa [← show type = name from heq] at hrow ⊢
    · exact Or.inr ⟨hnew, rfl, Or.inl (List.mem_map_of_mem (f := Prod.snd) hrow)⟩
  · exact ⟨hdot, h⟩

/-- A type of the v1 vocabulary: a v1 name of the codemap, or no name of it. -/
def IsV1 (type : JsString) : Prop := type ∈ Record.keys v1ToV2 ∨ type ∉ v2Names

/-- Two v1 types are not renamed to one. -/
theorem rename_inj {type' path' : JsString} (hv1 : IsV1 type) (hv1' : IsV1 type')
    (h : rename type path = .ok name) (h' : rename type' path' = .ok name) : type = type' := by
  rcases rename_ok.mp h with hrow | ⟨hold, rfl, -⟩
  · rcases rename_ok.mp h' with hrow' | ⟨hold', rfl, -⟩
    · exact congrArg Prod.fst (List.inj_on_of_nodup_map wellFormed_v1ToV2.distinct_v2 hrow hrow' rfl)
    · exact absurd (List.mem_map_of_mem (f := Prod.snd) hrow) (hv1'.resolve_left hold')
  · rcases rename_ok.mp h' with hrow' | ⟨hold', rfl, -⟩
    · exact absurd (List.mem_map_of_mem (f := Prod.snd) hrow') (hv1.resolve_left hold)
    · rfl

end Rename

section Codemod

/-- `k === 'type' && typeof val === 'string' && val.includes('.')`. -/
def isEventType (k : JsString) : Json → Bool
  | .str type => k = js "type" && includes type (js ".")
  | _ => false

theorem rewrite_ok {path : JsString} {type : JsString} {w : Json} :
    rewrite path (.str type) = .ok w ↔ ∃ name, rename type path = .ok name ∧ .str name = w :=
  map_ok

/-- Every dotted `type` is taken. -/
def rule : Rule where
  takes := isEventType
  rewrite path _ v := rewrite path v
  uniform path path' _ v w h := by
    cases v with
    | str type =>
      obtain ⟨name, hname, hw⟩ := rewrite_ok.mp h
      exact rewrite_ok.mpr ⟨name, rename_ok.mpr (rename_ok.mp hname), hw⟩
    | null | bool _ | num _ | arr _ | obj _ => exact h
  scalar _ _ v _ h _ := by
    cases v with
    | arr items => cases h
    | obj members => cases h
    | null | bool _ | num _ | str _ => rfl
  alike _ v v' h h' := by
    cases v <;> cases h <;> cases v' <;> cases h' <;> rfl

theorem takes_iff {k : JsString} {v : Json} : rule.takes k v = true ↔
    k = js "type" ∧ ∃ type, v = .str type ∧ includes type (js ".") = true := by
  cases v with
  | str type => simp [rule, isEventType]
  | null | bool _ | num _ | arr _ | obj _ => simp [rule, isEventType]

/-- What is thrown for a document of another kind. -/
def refusal : JsString :=
  codemodId ++ js ": input must be an event, an array of events, or an object containing them"

/-- `transform(doc)`. -/
def transform (doc : Json) : Except Thrown Json := transformWith rule refusal doc

end Codemod

section Property

/-- The type is replaced by its v2 name, and stays where it has none. -/
def Written (_name : JsString) (v w : Json) : Prop :=
  ∃ type name, v = .str type ∧ w = .str name ∧
    ((type, name) ∈ v1ToV2 ∨ type ∉ Record.keys v1ToV2 ∧ name = type)

/-- What the codemod makes of the document: only event types are renamed, two v1 types do not
become one, and a second run changes nothing. -/
structure Renames (doc : Json) : Prop where
  rewritten : ∀ out, transform doc = .ok out →
    Rewritten rule Written doc out ∧ transform out = .ok out
  injective : ∀ type type' name path path', IsV1 type → IsV1 type' →
    rename type path = .ok name → rename type' path' = .ok name → type = type'

/-- A dotted type of the document has a reserved prefix and is in no row. -/
def HasUnmapped (doc : Json) : Prop :=
  ∃ members, HasObject doc members ∧ ∃ type, (js "type", .str type) ∈ members ∧
    includes type (js ".") = true ∧ reserved type = true ∧
    type ∉ Record.keys v1ToV2 ∧ type ∉ v2Names

end Property

section Correct

/-- The codemod refuses these documents only. -/
theorem refused_iff {doc : Json} : Refused rule doc ↔ HasUnmapped doc := by
  constructor
  · rintro ⟨members, hin, ⟨k, v⟩, hm, htakes, hno⟩
    obtain ⟨rfl, type, rfl, hdot⟩ := takes_iff.mp htakes
    have hrename : ∀ name, rename type (js "$") ≠ .ok name := fun name hname =>
      hno _ (rewrite_ok.mpr ⟨name, hname, rfl⟩)
    have hold : type ∉ Record.keys v1ToV2 := by
      intro hmem
      obtain ⟨row, hrow, rfl⟩ := List.mem_map.mp hmem
      exact hrename row.2 (rename_ok.mpr (Or.inl hrow))
    have hother : ¬ (type ∈ v2Names ∨ reserved type = false) := fun h =>
      hrename type (rename_ok.mpr (Or.inr ⟨hold, rfl, h⟩))
    rw [not_or, Bool.not_eq_false] at hother
    exact ⟨members, hin, type, hm, hdot, hother.2, hold, hother.1⟩
  · rintro ⟨members, hin, type, hm, hdot, hreserved, hold, hnew⟩
    refine ⟨members, hin, _, hm, takes_iff.mpr ⟨rfl, type, rfl, hdot⟩, fun w hw => ?_⟩
    obtain ⟨name, hname, -⟩ := rewrite_ok.mp hw
    rcases rename_ok.mp hname with hrow | ⟨-, -, h | h⟩
    · exact hold (List.mem_map_of_mem (f := Prod.fst) hrow)
    · exact hnew h
    · rw [hreserved] at h
      cases h

/-- On a document that is not refused the codemod does what it should exactly where no member is
named `__proto__`. -/
theorem renames_iff (doc : Json) (hdoc : Enumerated doc) :
    Renames doc ↔ HasUnmapped doc ∨ NoProto doc := by
  have hwritten : ∀ k v w, rule.takes k v = true → rule.rewrite (js "$") k v = .ok w →
      Written k v w ∧ rule.takes k w = true ∧ rule.rewrite (js "$") k w = .ok w := by
    intro k v w htakes hw
    obtain ⟨rfl, type, rfl, hdot⟩ := takes_iff.mp htakes
    obtain ⟨name, hname, rfl⟩ := rewrite_ok.mp hw
    obtain ⟨hdot', hname'⟩ := rename_again hdot hname
    refine ⟨⟨type, name, rfl, rfl, ?_⟩, takes_iff.mpr ⟨rfl, name, rfl, hdot'⟩,
      rewrite_ok.mpr ⟨name, hname', rfl⟩⟩
    exact (rename_ok.mp hname).imp_right fun h => ⟨h.1, h.2.1⟩
  have hconforms : Renames doc ↔ Conforms rule refusal Written doc :=
    ⟨Renames.rewritten, fun h => ⟨h, fun _ _ _ _ _ => rename_inj⟩⟩
  rw [hconforms, conforms_iff hdoc fun k v w htakes hw _ => (hwritten k v w htakes hw).2,
    refused_iff]
  refine or_congr_right (and_iff_left fun members hin m hm htakes w hw => ?_)
  exact (hwritten m.1 m.2 w htakes hw).1

/-- A log with a v1 name, a v2 name and a vendor event. -/
theorem renames_log : Renames (.arr [.obj [(js "type", .str (js "run.dead_lettered"))],
    .obj [(js "type", .str (js "run.dead-lettered"))],
    .obj [(js "type", .str (js "acme.deployed"))]]) := by
  have hobject : ∀ {members}, HasObject (.arr [.obj [(js "type", .str (js "run.dead_lettered"))],
      .obj [(js "type", .str (js "run.dead-lettered"))],
      .obj [(js "type", .str (js "acme.deployed"))]]) members →
        ∃ type, members = [(js "type", .str type)] := by
    rintro members (_ | ⟨hv, hin⟩)
    simp only [List.mem_cons, List.not_mem_nil, or_false] at hv
    rcases hv with rfl | rfl | rfl <;> rcases hin with _ | _ | ⟨hm, hin⟩
    all_goals first | exact ⟨_, rfl⟩ | (obtain rfl := List.mem_singleton.mp hm; cases hin)
  refine (renames_iff _ fun members hin => ?_).mpr (Or.inr fun members hin => ?_)
  · obtain ⟨type, rfl⟩ := hobject hin
    exact ⟨List.pairwise_singleton _ _, List.nodup_singleton _⟩
  · obtain ⟨type, rfl⟩ := hobject hin
    rw [Record.keys_cons, Record.keys_nil, List.mem_singleton]
    exact (by decide : js "__proto__" ≠ js "type")

/-- A v2 log with a member named `__proto__` comes back without it. -/
theorem not_renames_proto :
    ¬ Renames (.obj [(js "type", .str (js "run.started")), (js "__proto__", .obj [])]) := by
  intro h
  have hout : transform (.obj [(js "type", .str (js "run.started")), (js "__proto__", .obj [])]) =
      .ok (.obj [(js "type", .str (js "run.started"))]) := by decide +kernel
  obtain ⟨⟨-, hmembers⟩, -⟩ := h.rewritten _ hout
  exact hmembers

end Correct

end OpenWop.Codemods.EventCodemap
