import OpenWop.Replay.CacheKey

/-!
# What a cache key determines

The preimage of a request of the domain is the canonical JSON of an object of optional members,
so two preimages are one text exactly when the members agree, the tools name by name.
-/

namespace OpenWop.Replay

open OpenWop.Js OpenWop.Ledger

section Present

/-- The members whose value is there. -/
def present (fields : List (JsString × Option Json)) : List (JsString × Json) :=
  fields.flatMap fun f => optionalMember f.1 f.2

theorem keys_present (fields : List (JsString × Option Json)) :
    (Record.keys (present fields)).Sublist (fields.map Prod.fst) := by
  induction fields with
  | nil => exact List.Sublist.refl _
  | cons f fields ih =>
    obtain ⟨name, value⟩ := f
    cases value with
    | none => exact ih.cons name
    | some v => exact ih.cons_cons name

/-- A name reads as its own value. -/
theorem get?_present {fields : List (JsString × Option Json)} (h : (fields.map Prod.fst).Nodup)
    {f : JsString × Option Json} (hf : f ∈ fields) : Record.get? (present fields) f.1 = f.2 := by
  induction fields with
  | nil => cases hf
  | cons g fields ih =>
    obtain ⟨name, value⟩ := g
    rw [List.map_cons, List.nodup_cons] at h
    rcases List.mem_cons.mp hf with rfl | hmem
    · cases value with
      | none =>
        exact Record.get?_eq_none_iff.mpr fun hm => h.1 ((keys_present fields).subset hm)
      | some v =>
        change Record.get? ((name, v) :: present fields) name = some v
        rw [Record.get?_cons, if_pos rfl]
    · have hne : ¬ name = f.1 := by
        intro he
        apply h.1
        exact List.mem_map.mpr ⟨f, hmem, he.symm⟩
      cases value with
      | none => exact ih h.2 hmem
      | some v =>
        change Record.get? ((name, v) :: present fields) f.1 = f.2
        rw [Record.get?_cons, if_neg hne]
        exact ih h.2 hmem

/-- Objects of optional members are one value exactly when the members agree. -/
theorem normalize_present_iff {names : List JsString} (h : names.Nodup)
    (value value' : JsString → Option Json) :
    Json.normalize (.obj (present (names.map fun k => (k, value k)))) =
        Json.normalize (.obj (present (names.map fun k => (k, value' k)))) ↔
      ∀ k ∈ names, (value k).map Json.normalize = (value' k).map Json.normalize := by
  have hnames : ∀ value : JsString → Option Json,
      (names.map fun k => (k, value k)).map Prod.fst = names := by
    intro value
    rw [List.map_map]
    exact List.map_id' names
  have hread : ∀ (value : JsString → Option Json), ∀ k ∈ names,
      Record.get? (present (names.map fun k => (k, value k))) k = value k := fun value k hk =>
    get?_present (by rw [hnames]; exact h) (List.mem_map_of_mem hk (f := fun k => (k, value k)))
  have hnodup : ∀ value : JsString → Option Json,
      (Record.keys (Json.normalizeMembers (present (names.map fun k => (k, value k))))).Nodup := by
    intro value
    have hkeys := keys_present (names.map fun k => (k, value k))
    rw [hnames] at hkeys
    rw [Json.keys_normalizeMembers]
    exact h.sublist hkeys
  rw [Json.normalize, Json.normalize, Json.obj.injEq,
    Json.sortBy_fst_eq_iff (hnodup value) (hnodup value')]
  simp only [Json.get?_normalizeMembers]
  constructor
  · intro hall k hk
    have hk' := hall k
    rwa [hread value k hk, hread value' k hk] at hk'
  · intro hall k
    by_cases hk : k ∈ names
    · rw [hread value k hk, hread value' k hk, hall k hk]
    · have habsent : ∀ value : JsString → Option Json,
          Record.get? (present (names.map fun k => (k, value k))) k = none := by
        intro value
        refine Record.get?_eq_none_iff.mpr fun hm => hk ?_
        have hmem := (keys_present _).subset hm
        rwa [hnames] at hmem
      rw [habsent, habsent]

end Present

section Tools

/-- A tool keeps its name in normal form. -/
theorem toolName_normalize {tool : Json} (h : IsTool tool) :
    toolName tool.normalize = toolName tool := by
  obtain ⟨members, name, rfl, hnodup, hname⟩ := h
  have hmem : (js "name", Json.str name) ∈
      sortBy (codeUnitOrder.on Prod.fst) (Json.normalizeMembers members) := by
    rw [mem_sortBy]
    apply Record.mem_of_get?
    rw [Json.get?_normalizeMembers, hname]
    rfl
  have hkeys : (Record.keys (sortBy (codeUnitOrder.on Prod.fst)
      (Json.normalizeMembers members))).Nodup := by
    rw [← Json.keys_normalizeMembers] at hnodup
    exact ((sortBy_perm _ (Json.normalizeMembers members)).map Prod.fst).nodup_iff.mpr hnodup
  rw [toolName, toolName, Json.normalize, Json.member?, Json.member?,
    Record.get?_of_mem hkeys hmem, hname]

/-- Sorted tools are one list of values exactly when they agree name by name. -/
theorem sortBy_toolName_iff {tools tools' : List Json} (h : ∀ t ∈ tools, IsTool t)
    (h' : ∀ t ∈ tools', IsTool t) :
    (sortBy (codeUnitOrder.on toolName) tools).map Json.normalize =
        (sortBy (codeUnitOrder.on toolName) tools').map Json.normalize ↔
      ∀ name, (tools.filter fun t => toolName t = name).map Json.normalize =
        (tools'.filter fun t => toolName t = name).map Json.normalize := by
  have hsort : ∀ ts : List Json, (∀ t ∈ ts, IsTool t) →
      (sortBy (codeUnitOrder.on toolName) ts).map Json.normalize =
        sortBy (codeUnitOrder.on toolName) (ts.map Json.normalize) := by
    intro ts hts
    refine List.map_insertionSort _ _ _ ts fun a ha b hb => ?_
    change codeUnitOrder.compare (toolName a) (toolName b) ≤ 0 ↔
      codeUnitOrder.compare (toolName a.normalize) (toolName b.normalize) ≤ 0
    rw [toolName_normalize (hts a ha), toolName_normalize (hts b hb)]
  have hfilter : ∀ ts : List Json, (∀ t ∈ ts, IsTool t) → ∀ name,
      (ts.map Json.normalize).filter (fun t => toolName t = name) =
        (ts.filter fun t => toolName t = name).map Json.normalize := by
    intro ts hts name
    rw [List.filter_map]
    refine congrArg _ (List.filter_congr fun t ht => ?_)
    rw [Function.comp_apply, toolName_normalize (hts t ht)]
  rw [hsort tools h, hsort tools' h',
    sortBy_on_eq_iff (fun _ _ => compareCodeUnits_eq_zero) toolName]
  refine forall_congr' fun name => ?_
  rw [hfilter tools h, hfilter tools' h']

/-- The member `request.tools`. -/
def toolsField (raw : Record JsString Json) : Option Json :=
  match toolsOf raw with
  | [] => none
  | tools => some (.arr (sortBy (codeUnitOrder.on toolName) tools))

theorem carriedTools_eq (raw : Record JsString Json) :
    carriedTools raw = optionalMember (js "tools") (toolsField raw) := by
  rw [carriedTools, toolsField, toolsOf]
  cases Record.get? raw (js "tools") with
  | none => rfl
  | some v =>
    cases v with
    | arr tools => cases tools <;> rfl
    | _ => rfl

theorem isTool_of_mem_toolsOf {raw : Record JsString Json} (h : InDomain raw) {t : Json}
    (ht : t ∈ toolsOf raw) : IsTool t := by
  rw [toolsOf] at ht
  cases hraw : Record.get? raw (js "tools") with
  | none =>
    rw [hraw] at ht
    cases ht
  | some v =>
    obtain ⟨tools, rfl, htools⟩ := h.tools v hraw
    rw [hraw] at ht
    exact htools t ht

/-- The member `request.tools` determines the tools name by name. -/
theorem toolsField_iff {raw raw' : Record JsString Json} (h : InDomain raw) (h' : InDomain raw') :
    (toolsField raw).map Json.normalize = (toolsField raw').map Json.normalize ↔
      SameTools raw raw' := by
  rw [SameTools, ← sortBy_toolName_iff (fun t => isTool_of_mem_toolsOf h)
    (fun t => isTool_of_mem_toolsOf h')]
  have hfield : ∀ tools : List Json, ((match tools with
      | [] => none
      | tools => some (Json.arr (sortBy (codeUnitOrder.on toolName) tools))).map Json.normalize) =
      match (sortBy (codeUnitOrder.on toolName) tools).map Json.normalize with
      | [] => none
      | tools => some (.arr tools) := by
    intro tools
    cases tools with
    | nil => rfl
    | cons t ts =>
      have hne : (sortBy (codeUnitOrder.on toolName) (t :: ts)).map Json.normalize ≠ [] := by
        rw [Ne, List.map_eq_nil_iff, ← List.length_eq_zero_iff, (sortBy_perm _ _).length_eq]
        simp
      obtain ⟨a, l, hal⟩ := List.exists_cons_of_ne_nil hne
      rw [hal]
      simp only [Option.map_some, Json.normalize, Json.normalizeItems_eq, hal]
  rw [toolsField, toolsField, hfield, hfield]
  constructor
  · intro heq
    revert heq
    generalize (sortBy (codeUnitOrder.on toolName) (toolsOf raw)).map Json.normalize = ts
    generalize (sortBy (codeUnitOrder.on toolName) (toolsOf raw')).map Json.normalize = ts'
    intro heq
    cases ts <;> cases ts' <;> simp_all
  · intro heq
    rw [heq]

end Tools

section Projection

variable {raw raw' : Record JsString Json}

/-- The names of `request`. -/
def requestNames : List JsString :=
  [js "messages", js "tools"] ++ numberFields ++
    [js "stop", js "responseFormat", js "safetySettings"]

/-- The names of the projection. -/
def projectedNames : List JsString :=
  [js "recipe", js "provider", js "model", js "request", js "providerOptions"]

/-- The members of `request`, of a request of the domain. -/
def requestField (raw : Record JsString Json) (name : JsString) : Option Json :=
  if name = js "tools" then toolsField raw else Record.get? raw name

/-- The members of the projection, of a request of the domain. -/
def projectedField (raw : Record JsString Json) (name : JsString) : Option Json :=
  if name = js "recipe" then some (.str semanticRequestRecipeV2)
  else if name = js "request" then
    some (.obj (present (requestNames.map fun k => (k, requestField raw k))))
  else Record.get? raw name

/-- The projection, as a value. -/
def projectedRequest (raw : Record JsString Json) : Json :=
  .obj (present (projectedNames.map fun k => (k, projectedField raw k)))

theorem carried_eq {name : JsString} {test : Json → Bool}
    (h : Optionally raw name fun v => test v = true) :
    carried raw name test = optionalMember name (Record.get? raw name) := by
  rw [carried]
  cases hraw : Record.get? raw name with
  | none => rfl
  | some v => rw [Option.filter_some, if_pos (h v hraw)]

theorem isTypeofObject_of_object (h : InDomain raw) {name : JsString}
    (hname : name ∈ [js "responseFormat", js "safetySettings", js "providerOptions"]) :
    Optionally raw name fun v => isTypeofObject v = true := by
  intro v hv
  obtain ⟨members, rfl⟩ := h.objects name hname v hv
  rfl

/-- Of a request of the domain, every semantic member is carried. -/
theorem requestMembers_eq (h : InDomain raw) :
    requestMembers raw = optionalMember (js "tools") (toolsField raw) ++
      (numberFields ++ [js "stop", js "responseFormat", js "safetySettings"]).flatMap fun k =>
        optionalMember k (Record.get? raw k) := by
  have hnumbers : numberFields.flatMap (fun name => carried raw name isNumber) =
      numberFields.flatMap fun k => optionalMember k (Record.get? raw k) :=
    List.flatMap_congr fun name hname => carried_eq (h.numbers name hname)
  rw [requestMembers, carriedTools_eq, hnumbers, carried_eq h.stop,
    carried_eq (isTypeofObject_of_object h (by simp)),
    carried_eq (isTypeofObject_of_object h (by simp)), List.flatMap_append]
  simp only [List.flatMap_cons, List.flatMap_nil, List.append_nil, List.append_assoc]

theorem request_eq (h : InDomain raw) :
    present (requestNames.map fun k => (k, requestField raw k)) =
      optionalMember (js "messages") (Record.get? raw (js "messages")) ++ requestMembers raw := by
  have hrest : ∀ k ∈ numberFields ++ [js "stop", js "responseFormat", js "safetySettings"],
      k ≠ js "tools" := by decide
  have hflat : present ((numberFields ++ [js "stop", js "responseFormat", js "safetySettings"]).map
      fun k => (k, requestField raw k)) =
      (numberFields ++ [js "stop", js "responseFormat", js "safetySettings"]).flatMap fun k =>
        optionalMember k (Record.get? raw k) := by
    rw [present, List.flatMap_map]
    refine List.flatMap_congr fun k hk => ?_
    rw [requestField, if_neg (hrest k hk)]
  have hmessages : requestField raw (js "messages") = Record.get? raw (js "messages") :=
    if_neg (by decide)
  have htools : requestField raw (js "tools") = toolsField raw := if_pos rfl
  rw [requestMembers_eq h, ← hflat, ← hmessages, ← htools]
  rfl

/-- The preimage of a request of the domain is the canonical JSON of its projection. -/
theorem semanticPreimageV2_eq (h : InDomain raw) :
    semanticPreimageV2 raw = Json.canonicalJSON (projectedRequest raw) := by
  obtain ⟨provider, hprovider⟩ := h.provider
  obtain ⟨model, hmodel⟩ := h.model
  obtain ⟨messages, hmessages⟩ := h.messages
  have hrecipe : projectedField raw (js "recipe") = some (.str semanticRequestRecipeV2) := if_pos rfl
  have hrequest : projectedField raw (js "request") = some (.obj
      (present (requestNames.map fun k => (k, requestField raw k)))) := by
    rw [projectedField, if_neg (by decide), if_pos rfl]
  have hother : ∀ k ∈ [js "provider", js "model", js "providerOptions"],
      projectedField raw k = Record.get? raw k := by
    intro k hk
    have hne : ∀ k ∈ [js "provider", js "model", js "providerOptions"],
        k ≠ js "recipe" ∧ k ≠ js "request" := by decide
    rw [projectedField, if_neg (hne k hk).1, if_neg (hne k hk).2]
  have hprojected : projectedRequest raw = .obj ([(js "recipe", .str semanticRequestRecipeV2),
      (js "provider", provider), (js "model", model),
      (js "request", .obj ((js "messages", messages) :: requestMembers raw))] ++
        optionalMember (js "providerOptions") (Record.get? raw (js "providerOptions"))) := by
    rw [projectedRequest, projectedNames]
    simp only [List.map_cons, List.map_nil, present, List.flatMap_cons, List.flatMap_nil]
    rw [hrecipe, hrequest, hother _ (by simp), hother (js "model") (by simp),
      hother (js "providerOptions") (by simp), hprovider, hmodel, request_eq h, hmessages]
    simp [optionalMember]
  have hobject : ∀ ms : List (JsString × Json), Json.canonicalJSON (.obj ms) =
      Json.canonicalObject (ms.map fun m => (m.1, Json.canonicalJSON m.2)) := fun ms => by
    rw [Json.canonicalJSON, Json.canonicalMembers_eq]
  rw [hprojected, hobject, semanticPreimageV2, carried_eq (isTypeofObject_of_object h (by simp)),
    canonicalField, canonicalField, canonicalField, hprovider, hmodel, hmessages,
    Json.canonicalMembers_eq, Json.canonicalMembers_eq, List.map_append]
  simp only [List.map_cons, List.map_nil, Json.canonicalValue, hobject]

/-- Two projections are one value exactly when the requests agree. -/
theorem projectedRequest_iff (h : InDomain raw) (h' : InDomain raw') :
    Json.normalize (projectedRequest raw) = Json.normalize (projectedRequest raw') ↔
      (∀ name ∈ semanticFields, SameMember raw raw' name) ∧ SameTools raw raw' := by
  have houter : ∀ (raw : Record JsString Json), ∀ k ∈ [js "provider", js "model", js "providerOptions"],
      projectedField raw k = Record.get? raw k := by
    intro raw k hk
    have hne : ∀ k ∈ [js "provider", js "model", js "providerOptions"],
        k ≠ js "recipe" ∧ k ≠ js "request" := by decide
    rw [projectedField, if_neg (hne k hk).1, if_neg (hne k hk).2]
  have hinner : ∀ (raw : Record JsString Json), ∀ k ∈ [js "messages"] ++ numberFields ++
      [js "stop", js "responseFormat", js "safetySettings"], requestField raw k = Record.get? raw k := by
    intro raw k hk
    have hne : ∀ k ∈ [js "messages"] ++ numberFields ++
        [js "stop", js "responseFormat", js "safetySettings"], k ≠ js "tools" := by decide
    exact if_neg (hne k hk)
  have hrequest : ∀ raw, projectedField raw (js "request") = some (.obj
      (present (requestNames.map fun k => (k, requestField raw k)))) := by
    intro raw
    rw [projectedField, if_neg (by decide), if_pos rfl]
  rw [projectedRequest, projectedRequest, normalize_present_iff (by decide)]
  rw [← toolsField_iff h h']
  constructor
  · intro hall
    have hinside := hall (js "request") (by simp [projectedNames])
    rw [hrequest, hrequest, Option.map_some, Option.map_some, Option.some.injEq,
      normalize_present_iff (by decide)] at hinside
    refine ⟨fun k hk => ?_, hinside (js "tools") (by simp [requestNames])⟩
    have hsplit : ∀ k ∈ semanticFields, k ∈ [js "provider", js "model", js "providerOptions"] ∨
        k ∈ [js "messages"] ++ numberFields ++ [js "stop", js "responseFormat", js "safetySettings"] := by
      decide
    rcases hsplit k hk with hk | hk
    · have hk' := hall k (by
        have hmem : ∀ k ∈ [js "provider", js "model", js "providerOptions"], k ∈ projectedNames := by
          decide
        exact hmem k hk)
      rwa [houter raw k hk, houter raw' k hk] at hk'
    · have hk' := hinside k (by
        have hmem : ∀ k ∈ [js "messages"] ++ numberFields ++
            [js "stop", js "responseFormat", js "safetySettings"], k ∈ requestNames := by decide
        exact hmem k hk)
      rwa [hinner raw k hk, hinner raw' k hk] at hk'
  · rintro ⟨hfields, htools⟩ k hk
    have hinside : ∀ k ∈ requestNames,
        (requestField raw k).map Json.normalize = (requestField raw' k).map Json.normalize := by
      intro k hk
      have hsplit : ∀ k ∈ requestNames, k = js "tools" ∨ (k ∈ [js "messages"] ++ numberFields ++
          [js "stop", js "responseFormat", js "safetySettings"] ∧ k ∈ semanticFields) := by decide
      rcases hsplit k hk with rfl | ⟨hk, hk'⟩
      · exact htools
      · rw [hinner raw k hk, hinner raw' k hk]
        exact hfields k hk'
    have hsplit : ∀ k ∈ projectedNames, k = js "recipe" ∨ k = js "request" ∨
        (k ∈ [js "provider", js "model", js "providerOptions"] ∧ k ∈ semanticFields) := by decide
    rcases hsplit k hk with rfl | rfl | ⟨hk, hk'⟩
    · rfl
    · rw [hrequest, hrequest, Option.map_some, Option.map_some,
        (normalize_present_iff (by decide) _ _).mpr hinside]
    · rw [houter raw k hk, houter raw' k hk]
      exact hfields k hk'

end Projection

section Keys

variable {raw raw' : Record JsString Json}

/-- Two requests of the domain have one preimage exactly when it is accepted and they agree on
every semantic member, and on the tools name by name. -/
theorem semanticPreimageV2_iff (h : InDomain raw) (h' : InDomain raw') :
    (∃ t, semanticPreimageV2 raw = .ok t ∧ semanticPreimageV2 raw' = .ok t) ↔
      ((∀ name ∈ semanticFields, SameMember raw raw' name) ∧ SameTools raw raw') ∧
        ∃ t, semanticPreimageV2 raw = .ok t := by
  rw [← projectedRequest_iff h h', semanticPreimageV2_eq h, semanticPreimageV2_eq h']
  constructor
  · rintro ⟨t, ht, ht'⟩
    exact ⟨Json.normalize_eq_of_canonicalJSON ht ht', t, ht⟩
  · rintro ⟨hnormal, t, ht⟩
    obtain ⟨hplain, rfl⟩ := (Json.accepts_canonicalJSON _ t).mp ht
    rw [hnormal] at hplain
    refine ⟨_, ht, (Json.accepts_canonicalJSON _ _).mpr ⟨hplain, by rw [hnormal]⟩⟩

/-- A tool of that name and description. -/
def exampleTool (name description : JsString) : Json :=
  .obj [(js "name", .str name), (js "description", .str description)]

/-- A request with those tools, its members in that order, and one member of the transport. -/
def exampleRequest (tools : List Json) (timeout : Nat) : Record JsString Json :=
  [(js "timeoutMs", .num (.ofNat timeout)), (js "provider", .str (js "p")),
    (js "tools", .arr tools), (js "model", .str (js "m")), (js "messages", .arr [])]

theorem inDomain_exampleRequest {tools : List Json} (h : ∀ t ∈ tools, IsTool t) (timeout : Nat) :
    InDomain (exampleRequest tools timeout) := by
  have hread : ∀ name, Record.get? (exampleRequest tools timeout) name =
      if js "timeoutMs" = name then some (.num (.ofNat timeout))
      else if js "provider" = name then some (.str (js "p"))
      else if js "tools" = name then some (.arr tools)
      else if js "model" = name then some (.str (js "m"))
      else if js "messages" = name then some (.arr [])
      else none := by
    intro name
    simp only [exampleRequest, Record.get?_cons]
    rfl
  have habsent : ∀ name ∈ numberFields ++ [js "stop", js "responseFormat", js "safetySettings",
      js "providerOptions"], Record.get? (exampleRequest tools timeout) name = none := by
    intro name hname
    have hne : ∀ name ∈ numberFields ++ [js "stop", js "responseFormat", js "safetySettings",
        js "providerOptions"], js "timeoutMs" ≠ name ∧ js "provider" ≠ name ∧ js "tools" ≠ name ∧
          js "model" ≠ name ∧ js "messages" ≠ name := by decide
    obtain ⟨h1, h2, h3, h4, h5⟩ := hne name hname
    rw [hread, if_neg h1, if_neg h2, if_neg h3, if_neg h4, if_neg h5]
  refine ⟨⟨_, hread _⟩, ⟨_, hread _⟩, ⟨_, hread _⟩, ?_, ?_, ?_, ?_⟩
  · intro v hv
    rw [hread, if_neg (by decide), if_neg (by decide), if_pos rfl] at hv
    exact ⟨tools, (Option.some.inj hv).symm, h⟩
  · intro name hname v hv
    rw [habsent name (List.mem_append_left _ hname)] at hv
    cases hv
  · intro v hv
    rw [habsent _ (by decide)] at hv
    cases hv
  · intro name hname v hv
    have hmem : ∀ name ∈ [js "responseFormat", js "safetySettings", js "providerOptions"],
        name ∈ numberFields ++ [js "stop", js "responseFormat", js "safetySettings",
          js "providerOptions"] := by decide
    rw [habsent name (hmem name hname)] at hv
    cases hv

theorem isTool_exampleTool (name description : JsString) : IsTool (exampleTool name description) := by
  refine ⟨_, name, rfl, ?_, ?_⟩
  · change [js "name", js "description"].Nodup
    decide
  · rw [Record.get?_cons, if_pos rfl]

@[simp] theorem toolName_exampleTool (name description : JsString) :
    toolName (exampleTool name description) = name := by
  rw [toolName, exampleTool, Json.member?, Record.get?_cons, if_pos rfl]

theorem toolsOf_exampleRequest (tools : List Json) (timeout : Nat) :
    toolsOf (exampleRequest tools timeout) = tools := by
  have htimeout : js "timeoutMs" ≠ js "tools" := by decide
  have hprovider : js "provider" ≠ js "tools" := by decide
  rw [toolsOf, exampleRequest, Record.get?_cons, if_neg htimeout, Record.get?_cons,
    if_neg hprovider, Record.get?_cons, if_pos rfl]
  rfl

/-- Two tools in either order, and another timeout: one preimage. -/
theorem reorderedTools_samePreimage :
    ∃ t, semanticPreimageV2 (exampleRequest [exampleTool (js "b") [], exampleTool (js "a") []] 1) =
        .ok t ∧
      semanticPreimageV2 (exampleRequest [exampleTool (js "a") [], exampleTool (js "b") []] 2) =
        .ok t := by
  have htool : ∀ names : List JsString, ∀ t ∈ names.map fun n => exampleTool n [], IsTool t := by
    intro names
    rw [List.forall_mem_map]
    exact fun n _ => isTool_exampleTool n []
  have hb := inDomain_exampleRequest (htool [js "b", js "a"]) 1
  have ha := inDomain_exampleRequest (htool [js "a", js "b"]) 2
  refine (semanticPreimageV2_iff hb ha).mpr ⟨⟨?_, ?_⟩, ?_⟩
  · unfold SameMember
    decide
  · intro name
    by_cases hna : js "a" = name
    · subst hna
      decide
    · by_cases hnb : js "b" = name
      · subst hnb
        decide
      · simp [toolsOf_exampleRequest, hna, hnb]
  · exact ⟨_, (semanticPreimageV2_eq hb).trans ((Json.accepts_canonicalJSON _ _).mpr ⟨by decide, rfl⟩)⟩

/-- Two tools of one name: listed the other way round, another preimage. -/
theorem namesakes_otherPreimage :
    let raw := exampleRequest [exampleTool (js "a") (js "x"), exampleTool (js "a") (js "y")] 1
    let raw' := exampleRequest [exampleTool (js "a") (js "y"), exampleTool (js "a") (js "x")] 1
    (InDomain raw ∧ InDomain raw') ∧ (∀ name ∈ semanticFields, SameMember raw raw' name) ∧
      (toolsOf raw).Perm (toolsOf raw') ∧
      (∃ t, semanticPreimageV2 raw = .ok t) ∧ (∃ t, semanticPreimageV2 raw' = .ok t) ∧
      semanticPreimageV2 raw ≠ semanticPreimageV2 raw' := by
  have htool : ∀ d : List JsString, ∀ t ∈ d.map fun d => exampleTool (js "a") d, IsTool t := by
    intro d
    rw [List.forall_mem_map]
    exact fun d _ => isTool_exampleTool (js "a") d
  have hx := inDomain_exampleRequest (htool [js "x", js "y"]) 1
  have hy := inDomain_exampleRequest (htool [js "y", js "x"]) 1
  have hxt := (semanticPreimageV2_eq hx).trans
    ((Json.accepts_canonicalJSON _ _).mpr ⟨by decide, rfl⟩)
  have hyt := (semanticPreimageV2_eq hy).trans
    ((Json.accepts_canonicalJSON _ _).mpr ⟨by decide, rfl⟩)
  refine ⟨⟨hx, hy⟩, ?_, ?_, ⟨_, hxt⟩, ⟨_, hyt⟩, fun heq => ?_⟩
  · unfold SameMember
    decide
  · exact List.Perm.swap _ _ []
  · have hne : Json.normalize (projectedRequest (exampleRequest
          [exampleTool (js "a") (js "x"), exampleTool (js "a") (js "y")] 1)) ≠
        Json.normalize (projectedRequest (exampleRequest
          [exampleTool (js "a") (js "y"), exampleTool (js "a") (js "x")] 1)) := by decide
    exact hne (Json.normalize_eq_of_canonicalJSON ((semanticPreimageV2_eq hx).symm.trans hxt)
      ((semanticPreimageV2_eq hy).symm.trans (heq.symm.trans hxt)))

end Keys

end OpenWop.Replay
