import OpenWop.Webhook.Sharing

/-!
# Starts, failures and closes in any order

What a start takes, a start that fails gives back. This holds in every order of events as
long as no start whose listener is up finds a front it cannot use: such a start throws
after it has registered its route, and keeps its claim.
-/

namespace OpenWop.Webhook.Scoped

open OpenWop.Js OpenWop.Core

section Routes

/-- The routes are those of the receivers that were handed out and are not closed. -/
structure Routed (s : State) : Prop where
  nonces : ∀ (i j : Nat) (r r' : Receiver), s.receivers[i]? = some r →
    s.receivers[j]? = some r' → r.nonce = r'.nonce → i = j
  routes : ∀ nonce i, s.registry.get? nonce = some i ↔
    ∃ r, s.receivers[i]? = some r ∧ r.nonce = nonce ∧ r.phase.isRunning = true

variable {s : State} {i : Nat} {r : Receiver} {phase : ReceiverPhase}
  {listeners : List Listener} {sharedByPort registry : Map JsString Nat}

theorem routed_initial : Routed State.initial where
  nonces _ _ _ _ h := by cases h
  routes nonce i := by
    constructor
    · intro h
      cases h
    · rintro ⟨r, h, -⟩
      cases h

/-- A receiver goes on, and its route comes or goes. -/
theorem Routed.advance (h : Routed s) (hr : s.receivers[i]? = some r)
    (hregistry : ∀ nonce, registry.get? nonce =
      if nonce = r.nonce then (if phase.isRunning then some i else none)
      else s.registry.get? nonce) :
    Routed ⟨s.receivers.set i { r with phase }, listeners, sharedByPort, registry⟩ := by
  have hreceivers : ∀ j, (s.receivers.set i { r with phase })[j]? =
      if j = i then some { r with phase } else s.receivers[j]? := fun _ => getElem?_setPhase hr
  have hkept : ∀ (j : Nat) (r' : Receiver), (s.receivers.set i { r with phase })[j]? = some r' →
      ∃ r'', s.receivers[j]? = some r'' ∧ r''.nonce = r'.nonce := by
    intro j r' hr'
    rw [hreceivers] at hr'
    split at hr'
    · next hj =>
      cases hr'
      exact ⟨r, hj ▸ hr, rfl⟩
    · exact ⟨r', hr', rfl⟩
  constructor
  · intro j k r₁ r₂ h₁ h₂ hnonce
    obtain ⟨r₁', h₁', hn₁⟩ := hkept j r₁ h₁
    obtain ⟨r₂', h₂', hn₂⟩ := hkept k r₂ h₂
    exact h.nonces j k r₁' r₂' h₁' h₂' (hn₁.trans (hnonce.trans hn₂.symm))
  · intro nonce j
    rw [hregistry]
    by_cases hj : j = i
    · subst hj
      by_cases hn : nonce = r.nonce
      · subst hn
        cases hphase : phase.isRunning with
        | true => simp [hreceivers, hphase]
        | false => simp [hreceivers, hphase]
      · have hother := h.routes nonce j
        simp only [hr, Option.some.injEq, exists_eq_left'] at hother
        simp [hreceivers, hn, hother, Ne.symm hn]
    · by_cases hn : nonce = r.nonce
      · subst hn
        have hfresh : ∀ r', s.receivers[j]? = some r' → r'.nonce ≠ r.nonce :=
          fun r' hr' he => hj (h.nonces j i r' r hr' hr he)
        constructor
        · intro hget
          rw [if_pos rfl] at hget
          split at hget
          · exact absurd (Option.some.inj hget).symm hj
          · cases hget
        · rintro ⟨r', hr', he, -⟩
          rw [hreceivers, if_neg hj] at hr'
          exact absurd he (hfresh r' hr')
      · simp only [hreceivers, if_neg hj, if_neg hn]
        exact h.routes nonce j

/-- A start whose nonce is new registers nothing yet. -/
theorem Routed.start (h : Routed s) {env : ProcessEnv} {nonce : JsString}
    (hnonce : ∀ r ∈ s.receivers, r.nonce ≠ nonce) : Routed (s.start env nonce) := by
  have hawait : ∀ s' : State, s'.receivers = s.receivers → s'.registry = s.registry →
      ∀ l key, Routed (s'.await l key nonce) := by
    intro s' hreceivers hregistry l key
    have hread : ∀ j, (s'.await l key nonce).receivers[j]? =
        if j = s.receivers.length then some ⟨nonce, key, l, .waiting⟩ else s.receivers[j]? := by
      intro j
      rw [getElem?_await, hreceivers]
    constructor
    · intro j k r₁ r₂ h₁ h₂ he
      rw [hread] at h₁ h₂
      split at h₁
      · next hj =>
        cases h₁
        split at h₂
        · next hk => exact hj.trans hk.symm
        · exact absurd he.symm (hnonce r₂ (List.mem_of_getElem? h₂))
      · split at h₂
        · cases h₂
          exact absurd he (hnonce r₁ (List.mem_of_getElem? h₁))
        · exact h.nonces j k r₁ r₂ h₁ h₂ he
    · intro nonce' j
      change s'.registry.get? nonce' = some j ↔ _
      rw [hregistry, h.routes]
      constructor
      · rintro ⟨r, hr, hn, hrunning⟩
        obtain ⟨hj, -⟩ := List.getElem?_eq_some_iff.mp hr
        exact ⟨r, by rw [hread, if_neg (Nat.ne_of_lt hj)]; exact hr, hn, hrunning⟩
      · rintro ⟨r, hr, hn, hrunning⟩
        rw [hread] at hr
        split at hr
        · cases hr
          cases hrunning
        · exact ⟨r, hr, hn, hrunning⟩
  obtain ⟨binding, he⟩ | ⟨key, l, -, he⟩ | ⟨key, port, binding, -, he⟩ := start_cases s env nonce
  · rw [he]
    exact hawait (s.listen none (js "0") binding) rfl rfl _ _
  · rw [he]
    exact hawait (s.update l Listener.claim) rfl rfl _ _
  · rw [he]
    exact hawait ((s.open key port binding).update s.listeners.length Listener.claim) rfl rfl _ _

end Routes

section Events

variable {parseUrl : JsString → Option ParsedUrl} {s s' : State} {e : Event} {i : Nat}
  {r : Receiver} {L : Listener}

/-- A start that goes on with its listener up finds a front it can use. -/
def FrontFound (parseUrl : JsString → Option ParsedUrl) (s : State) : Event → Prop
  | .resume i env => ∀ r L, s.receivers[i]? = some r → s.listeners[r.listener]? = some L →
      L.cameUp = true → FrontUsable parseUrl env
  | _ => True

theorem Routed.of_eq (h : Routed s) (hreceivers : s'.receivers = s.receivers)
    (hregistry : s'.registry = s.registry) : Routed s' := by
  obtain ⟨receivers, listeners, sharedByPort, registry⟩ := s'
  cases hreceivers
  cases hregistry
  exact ⟨h.nonces, h.routes⟩

/-- The start that goes on: its listener is up, or could not listen. -/
theorem resume_cases (parseUrl : JsString → Option ParsedUrl) {env : ProcessEnv}
    (henabled : Enabled s (.resume i env)) :
    ∃ r L, s.receivers[i]? = some r ∧ r.phase = .waiting ∧ s.listeners[r.listener]? = some L ∧
      ((∃ origin port, L.cameUp = true ∧
        s.step parseUrl (.resume i env) = s.attach parseUrl env i r origin port) ∨
      ∃ message, L.server = .refused message ∧
        s.step parseUrl (.resume i env) = s.abandon i r message) := by
  obtain ⟨r, L, hr, hphase, hL, hsettled⟩ := henabled
  have hstep : s.step parseUrl (.resume i env) = s.resume parseUrl env i r L := by
    simp [State.step, hr, hL]
  refine ⟨r, L, hr, hphase, hL, ?_⟩
  rw [hstep, State.resume]
  cases hserver : L.server with
  | opening => exact absurd hserver hsettled
  | up port => exact Or.inl ⟨_, port, by rw [Listener.cameUp, hserver], rfl⟩
  | shut port => exact Or.inl ⟨_, port, by rw [Listener.cameUp, hserver], rfl⟩
  | refused message => exact Or.inr ⟨message, rfl, rfl⟩

/-- A close does nothing to a receiver that is closed. -/
theorem close_cases (parseUrl : JsString → Option ParsedUrl) (henabled : Enabled s (.close i))
    (h : Accounted s) :
    s.step parseUrl (.close i) = s ∨ ∃ r L, s.receivers[i]? = some r ∧
      r.phase.isRunning = true ∧ s.listeners[r.listener]? = some L ∧
      s.step parseUrl (.close i) = s.leave i r L := by
  obtain ⟨r, hr, hphase⟩ := henabled
  obtain ⟨L, hL, -⟩ := h.placed i r hr
  cases hrunning : r.phase.isRunning with
  | true => exact Or.inr ⟨r, L, hr, hrunning, hL, by simp [State.step, hr, hL, hrunning]⟩
  | false => exact Or.inl (by simp [State.step, hr, hrunning])

theorem Accounted.step (h : Accounted s) (henabled : Enabled s e)
    (hfront : FrontFound parseUrl s e) : Accounted (s.step parseUrl e) := by
  cases e with
  | start env nonce => exact h.start
  | bound l port =>
    obtain ⟨L, hL, hopening⟩ := henabled
    exact h.settle hL hopening (.up port) rfl fun _ => rfl
  | refused l message =>
    obtain ⟨L, hL, hopening⟩ := henabled
    exact h.settle hL hopening (.refused (L.refusal message)) rfl fun hup => by cases hup
  | forget l =>
    obtain ⟨L, message, hL, -⟩ := henabled
    rw [State.step, hL]
    exact h.forget
  | resume i env =>
    obtain ⟨r, L, hr, hphase, hL, ⟨origin, port, hup, he⟩ | ⟨message, hrefused, he⟩⟩ :=
      resume_cases parseUrl henabled
    · rw [he]
      exact h.attach hr hphase hL hup (hfront r L hr hL hup)
    · rw [he]
      exact h.abandon hr hphase hL hrefused
  | close i =>
    obtain he | ⟨r, L, hr, hrunning, hL, he⟩ := close_cases parseUrl henabled h
    · rwa [he]
    · rw [he]
      exact h.leave hr hrunning hL

theorem Routed.step (h : Routed s) (haccounted : Accounted s) (henabled : Enabled s e)
    (hfront : FrontFound parseUrl s e) : Routed (s.step parseUrl e) := by
  cases e with
  | start env nonce => exact h.start henabled
  | bound l port => exact h.of_eq rfl rfl
  | refused l message => exact h.of_eq rfl rfl
  | forget l =>
    obtain ⟨L, message, hL, -⟩ := henabled
    rw [State.step, hL, Option.elim, State.forget]
    split
    · exact h
    · split
      · exact h.of_eq rfl rfl
      · exact h
  | resume i env =>
    obtain ⟨r, L, hr, hphase, hL, ⟨origin, port, hup, he⟩ | ⟨message, hrefused, he⟩⟩ :=
      resume_cases parseUrl henabled
    · obtain ⟨handle, hattach⟩ := attach_of_usable (hfront r L hr hL hup)
        s i r origin port
      rw [he, hattach]
      exact h.advance hr fun nonce => Map.get?_set ..
    · obtain ⟨f, -, habandon⟩ := abandon_eq s i r message
      rw [he, habandon]
      refine h.advance hr fun nonce => ?_
      split
      · next hn =>
        subst hn
        change s.registry.get? r.nonce = none
        rw [Option.eq_none_iff_forall_ne_some]
        intro j hj
        obtain ⟨r', hr', hn, hrunning⟩ := (h.routes _ j).mp hj
        obtain rfl := h.nonces j i r' r hr' hr hn
        cases hr.symm.trans hr'
        rw [hphase] at hrunning
        cases hrunning
      · rfl
  | close i =>
    obtain he | ⟨r, L, hr, hrunning, hL, he⟩ :=
      close_cases parseUrl henabled haccounted
    · rwa [he]
    · obtain ⟨f, sharedByPort, hleave, -⟩ := leave_eq s i r L
      rw [he, hleave]
      exact h.advance hr fun nonce => Map.get?_erase ..

end Events

section Soundness

/-- The claims, the servers and the routes are those of the live receivers. -/
structure Sound (s : State) : Prop where
  /-- A server that has come up is open exactly while a live receiver is on it. -/
  open_iff : ∀ (l : Nat) (L : Listener), s.listeners[l]? = some L → L.cameUp = true →
    (L.isOpen = true ↔ ∃ (i : Nat) (r : Receiver), s.receivers[i]? = some r ∧ r.listener = l ∧
      r.phase.live = true)
  /-- A receiver that was handed out and is not closed has its server open. -/
  handed_out : ∀ (i : Nat) (r : Receiver), s.receivers[i]? = some r →
    r.phase.isRunning = true → ∃ L, s.listeners[r.listener]? = some L ∧ L.isOpen = true
  refs_eq : ∀ (l : Nat) (L : Listener), s.listeners[l]? = some L → L.key ≠ none →
    L.refs = s.claims l
  routes : ∀ nonce i, s.registry.get? nonce = some i ↔
    ∃ r, s.receivers[i]? = some r ∧ r.nonce = nonce ∧ r.phase.isRunning = true

/-- The second state has one claim more, that of the receiver. -/
structure OneClaimMore (s s' : State) (r : Receiver) : Prop where
  registry : s'.registry = s.registry
  listeners : ∀ (l : Nat) (L : Listener), s.listeners[l]? = some L → s'.listeners[l]? =
    some { L with refs := if l = r.listener ∧ r.key ≠ none then L.refs + 1 else L.refs }

/-- A start takes one claim and leaves all else as it was; a start that fails gives it back. -/
def Restores (parseUrl : JsString → Option ParsedUrl) (s : State) : Event → Prop
  | .start env nonce => ∃ r, (s.start env nonce).receivers = s.receivers ++ [r] ∧
      OneClaimMore s (s.start env nonce) r
  | .resume i env => ∀ r message, s.receivers[i]? = some r →
      (s.step parseUrl (.resume i env)).receivers[i]? = some { r with phase := .failed message } →
      OneClaimMore (s.step parseUrl (.resume i env)) s r
  | _ => True

variable {parseUrl : JsString → Option ParsedUrl} {s : State} {e : Event}

theorem Accounted.sound (h : Accounted s) (hr : Routed s) : Sound s where
  open_iff l L hL hup := by
    rw [← claims_pos_iff]
    constructor
    · exact fun hopen => (h.accounts l L hL).held (Or.inr hopen)
    · intro hpos
      by_contra hopen
      have hzero := (h.accounts l L hL).idle hup (Bool.eq_false_iff.mpr hopen)
      omega
  handed_out i r hi hrunning := by
    obtain ⟨L, hL, -, hup⟩ := h.placed i r hi
    exact ⟨L, hL, h.isOpen hi (live_of_isRunning hrunning) hL (hup hrunning)⟩
  refs_eq l L hL := (h.accounts l L hL).refs
  routes := hr.routes

theorem Accounted.restores_start (h : Accounted s) (env : ProcessEnv) (nonce : JsString) :
    Restores parseUrl s (.start env nonce) := by
  have hold : ∀ {l L}, s.listeners[l]? = some L → l ≠ s.listeners.length := by
    rintro l L hL rfl
    rw [List.getElem?_eq_none (Nat.le_refl _)] at hL
    cases hL
  obtain ⟨binding, he⟩ | ⟨key, l₀, hl₀, he⟩ | ⟨key, port, binding, -, he⟩ :=
    start_cases s env nonce
  · refine ⟨_, congrArg State.receivers he, ?_⟩
    rw [he]
    refine ⟨rfl, fun l L hL => ?_⟩
    rw [listeners_await, getElem?_listen, if_neg (hold hL), hL, if_neg fun hboth => hboth.2 rfl]
  · refine ⟨_, congrArg State.receivers he, ?_⟩
    obtain ⟨L₀, hL₀, -⟩ := h.mapped key l₀ hl₀
    rw [he]
    refine ⟨rfl, fun l L hL => ?_⟩
    rw [listeners_await, getElem?_update hL₀]
    by_cases hl : l = l₀
    · subst hl
      cases hL₀.symm.trans hL
      rw [if_pos rfl, if_pos ⟨rfl, Option.some_ne_none key⟩, Listener.claim]
    · rw [if_neg hl, hL, if_neg fun hboth => hl hboth.1]
  · refine ⟨_, congrArg State.receivers he, ?_⟩
    have hfresh : (s.open key port binding).listeners[s.listeners.length]? =
        some ⟨some key, port, binding, .opening, 0, []⟩ := getElem?_listen.trans (if_pos rfl)
    rw [he]
    refine ⟨rfl, fun l L hL => ?_⟩
    rw [listeners_await, getElem?_update hfresh, if_neg (hold hL),
      if_neg fun hboth => hold hL hboth.1]
    exact (getElem?_listen.trans (if_neg (hold hL))).trans hL

/-- Only a start whose listener could not listen fails. -/
theorem Accounted.restores_resume (h : Accounted s) {i : Nat} {env : ProcessEnv}
    (henabled : Enabled s (.resume i env)) (hfront : FrontFound parseUrl s (.resume i env)) :
    Restores parseUrl s (.resume i env) := by
  intro r message hr hfailed
  obtain ⟨r', L₀, hr', hphase, hL₀, ⟨origin, port, hup, he⟩ | ⟨message', -, he⟩⟩ :=
    resume_cases parseUrl henabled
  · cases hr.symm.trans hr'
    obtain ⟨handle, hattach⟩ := attach_of_usable (hfront r L₀ hr hL₀ hup)
        s i r origin port
    rw [he, hattach] at hfailed
    have hrunning := (getElem?_setPhase (j := i) hr).symm.trans hfailed
    rw [if_pos rfl] at hrunning
    cases hrunning
  · cases hr.symm.trans hr'
    obtain ⟨L, hL, hkey, -⟩ := h.placed i r hr
    cases hL₀.symm.trans hL
    obtain ⟨f, hf, habandon⟩ := abandon_eq s i r message'
    rw [he, habandon]
    refine ⟨rfl, fun l L hL => ?_⟩
    have hafter : (s.update r.listener f).listeners[l]? = some L := hL
    rw [getElem?_update hL₀] at hafter
    split at hafter
    · next hl =>
      subst hl
      obtain rfl := Option.some.inj hafter
      rw [hL₀, hf]
      cases hshared : r.key with
      | none => simp
      | some key =>
        have hpos : 0 < L₀.refs := by
          have hne : L₀.key ≠ none := hkey.trans_ne (hshared.trans_ne (Option.some_ne_none key))
          rw [(h.accounts _ L₀ hL₀).refs hne]
          exact claims_pos_iff.mpr ⟨i, r, hr, rfl, by rw [hphase]; rfl⟩
        simp [Listener.release, Nat.sub_add_cancel hpos]
    · next hl => rw [hafter, if_neg fun hboth => hl hboth.1]

theorem Accounted.restores (h : Accounted s) (henabled : Enabled s e)
    (hfront : FrontFound parseUrl s e) : Restores parseUrl s e := by
  cases e with
  | start env nonce => exact h.restores_start env nonce
  | resume i env => exact h.restores_resume henabled hfront
  | bound l port => trivial
  | refused l message => trivial
  | forget l => trivial
  | close i => trivial

end Soundness

section Samples

/-- An environment that pins a port, and perhaps names a front. -/
def pinnedEnv (front : Option JsString) : ProcessEnv := fun name =>
  if name = js "OPENWOP_WEBHOOK_RECEIVER_PORT" then some (js "8080")
  else if name = webhookFrontEnv then front
  else none

theorem pinnedPort_pinnedEnv (front : Option JsString) :
    pinnedPort (pinnedEnv front) = some (.ofNat 8080) := by
  have hport : pinnedEnv front (js "OPENWOP_WEBHOOK_RECEIVER_PORT") = some (js "8080") := rfl
  rw [pinnedPort, hport]
  decide +kernel

theorem receiverBinding_pinnedEnv (front : Option JsString) :
    receiverBinding (pinnedEnv front) = ⟨js "127.0.0.1", js "127.0.0.1"⟩ := by
  have hhost : pinnedEnv front (js "OPENWOP_CONFORMANCE_HARNESS_HOST") = none := rfl
  rw [receiverBinding, hhost]
  rfl

/-- The listener of the pinned port, with one claim. -/
def pinnedListener (server : ServerPhase) (members : List Nat) : Listener :=
  ⟨some (js "127.0.0.1:8080"), js "8080", ⟨js "127.0.0.1", js "127.0.0.1"⟩, server, 1, members⟩

/-- The state of one receiver on the pinned port. -/
def onPinned (phase : ReceiverPhase) (L : Listener) (registry : Map JsString Nat) : State :=
  ⟨[⟨js "a0", some (js "127.0.0.1:8080"), 0, phase⟩], [L],
    .set .empty (js "127.0.0.1:8080") 0, registry⟩

/-- The first start on a pinned port. -/
theorem start_open {s : State} {env : ProcessEnv} {pinned : JsNumber} {key nonce : JsString}
    (hpinned : pinnedPort env = some pinned)
    (hkey : (receiverBinding env).bind ++ js ":" ++ pinned.text = key)
    (hnone : s.sharedByPort.get? key = none) :
    s.start env nonce = ((s.open key pinned.text (receiverBinding env)).update
      s.listeners.length Listener.claim).await s.listeners.length (some key) nonce := by
  unfold State.start
  rw [hpinned]
  dsimp only
  rw [hkey, State.share, hnone]
  rfl

theorem start_pinnedEnv (front : Option JsString) :
    State.initial.start (pinnedEnv front) (js "a0") =
      onPinned .waiting (pinnedListener .opening []) .empty := by
  have htext : (JsNumber.ofNat 8080).text = js "8080" := by decide +kernel
  have hkey : (receiverBinding (pinnedEnv front)).bind ++ js ":" ++ (JsNumber.ofNat 8080).text =
      js "127.0.0.1:8080" := by
    rw [receiverBinding_pinnedEnv, htext]
    rfl
  rw [start_open (pinnedPort_pinnedEnv front) hkey rfl, htext, receiverBinding_pinnedEnv]
  rfl

/-- A start on the pinned port whose server has come up. -/
theorem reachable_bound (parseUrl : JsString → Option ParsedUrl) (front : Option JsString)
    (guard : State → Event → Prop)
    (hguard : ∀ s env nonce l port, (Enabled s (.start env nonce) → guard s (.start env nonce)) ∧
      (Enabled s (.bound l port) → guard s (.bound l port))) :
    Reachable (State.step parseUrl) guard State.initial
      (onPinned .waiting (pinnedListener (.up (js "8080")) []) .empty) := by
  have hstart : Reachable (State.step parseUrl) guard State.initial
      (onPinned .waiting (pinnedListener .opening []) .empty) := by
    rw [← start_pinnedEnv front]
    refine Reachable.step .start ((hguard _ (pinnedEnv front) (js "a0") 0 []).1 ?_)
    intro r hr
    cases hr
  exact Reachable.step hstart ((hguard _ (pinnedEnv front) [] 0 (js "8080")).2 ⟨_, rfl, rfl⟩)

/-- A blank front can be used. -/
theorem frontUsable_pinnedEnv (parseUrl : JsString → Option ParsedUrl) :
    FrontUsable parseUrl (pinnedEnv none) :=
  frontUsable_iff.mpr (Or.inl rfl)

theorem enabled_resume_pinned (env : ProcessEnv) : Enabled
    (onPinned .waiting (pinnedListener (.up (js "8080")) []) .empty) (.resume 0 env) :=
  ⟨_, _, rfl, rfl, rfl, by decide⟩

theorem resume_pinnedEnv (parseUrl : JsString → Option ParsedUrl) : ∃ handle,
    (onPinned .waiting (pinnedListener (.up (js "8080")) []) .empty).step parseUrl
        (.resume 0 (pinnedEnv none)) =
      onPinned (.running handle) (pinnedListener (.up (js "8080")) [0])
        (.set .empty (js "a0") 0) :=
  attach_of_usable (frontUsable_pinnedEnv parseUrl) _ 0 _ _ _

end Samples

section Runs

variable {parseUrl : JsString → Option ParsedUrl} {s : State}

/-- The claims, the servers and the routes are right in every order of events. -/
def KeepsAccounts : Prop :=
  ∀ (parseUrl : JsString → Option ParsedUrl) (s : State),
    Reachable (State.step parseUrl) Enabled State.initial s →
      Sound s ∧ ∀ e, Enabled s e → Restores parseUrl s e

/-- In every order of events, as long as starts find a usable front. -/
theorem sound_of_frontFound
    (h : Reachable (State.step parseUrl) (fun s e => Enabled s e ∧ FrontFound parseUrl s e)
      State.initial s) :
    Sound s ∧ ∀ e, Enabled s e → FrontFound parseUrl s e → Restores parseUrl s e := by
  have hinv : Accounted s ∧ Routed s := by
    apply h.invariant (I := fun s => Accounted s ∧ Routed s) ⟨accounted_initial, routed_initial⟩
    intro s e ⟨haccounted, hrouted⟩ ⟨henabled, hfront⟩
    exact ⟨haccounted.step henabled hfront, hrouted.step haccounted henabled hfront⟩
  exact ⟨hinv.1.sound hinv.2, fun e => hinv.1.restores⟩

/-- A receiver that was started on the pinned port and closed. -/
theorem sound_closed : ∃ handle, Sound ((onPinned (.running handle)
    (pinnedListener (.up (js "8080")) [0]) (.set .empty (js "a0") 0)).step (fun _ => none)
    (.close 0)) := by
  have hbound := reachable_bound (fun _ => none) none
    (fun s e => Enabled s e ∧ FrontFound (fun _ => none) s e)
    fun _ _ _ _ _ => ⟨fun h => ⟨h, trivial⟩, fun h => ⟨h, trivial⟩⟩
  have hresume := enabled_resume_pinned (pinnedEnv none)
  obtain ⟨handle, he⟩ := resume_pinnedEnv fun _ => none
  have hrunning := Reachable.step hbound
    ⟨hresume, fun _ _ _ _ _ => frontUsable_pinnedEnv fun _ => none⟩
  rw [he] at hrunning
  have hclose : Enabled (onPinned (.running handle) (pinnedListener (.up (js "8080")) [0])
      (.set .empty (js "a0") 0)) (.close 0) := ⟨_, rfl, Or.inl rfl⟩
  exact ⟨handle, (sound_of_frontFound (Reachable.step hrunning ⟨hclose, trivial⟩)).1⟩

/-- A front that is no URL: the start throws, and its claim and its server stay. -/
theorem not_keepsAccounts : ¬ KeepsAccounts := by
  intro h
  have hbound := reachable_bound (fun _ => none) (some (js "front")) Enabled
    fun _ _ _ _ _ => ⟨id, id⟩
  have hfailed := Reachable.step hbound (enabled_resume_pinned (pinnedEnv (some (js "front"))))
  have hrefs := (h _ _ hfailed).1.refs_eq 0 (pinnedListener (.up (js "8080")) [0]) rfl
    (Option.some_ne_none _)
  cases hrefs

end Runs

end OpenWop.Webhook.Scoped
