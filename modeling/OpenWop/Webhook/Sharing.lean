import OpenWop.Webhook.Scoped

/-!
# What the claims account for

While every start that goes on finds a usable front, the claim count of a listener is the
number of its live receivers, its server is up exactly while there is one, and the routes
are those of the receivers that were handed out.
-/

namespace OpenWop.Webhook.Scoped

open OpenWop.Js OpenWop.Core

section Accounts

/-- What a listener with that many live receivers is like. -/
structure Listener.Accounts (L : Listener) (claims : Nat) : Prop where
  refs : L.key ≠ none → L.refs = claims
  /-- A listener that is not shared has one receiver. -/
  own : L.key = none → claims ≤ 1
  held : L.server = .opening ∨ L.isOpen = true → 0 < claims
  idle : L.cameUp = true → L.isOpen = false → claims = 0

/-- Every listener accounts for its receivers, and every entry leads to a listener of its key
that is not shut. -/
structure Accounted (s : State) : Prop where
  accounts : ∀ (l : Nat) (L : Listener), s.listeners[l]? = some L → L.Accounts (s.claims l)
  placed : ∀ (i : Nat) (r : Receiver), s.receivers[i]? = some r →
    ∃ L, s.listeners[r.listener]? = some L ∧ L.key = r.key ∧
      (r.phase.isRunning = true → L.cameUp = true)
  mapped : ∀ key l, s.sharedByPort.get? key = some l →
    ∃ L, s.listeners[l]? = some L ∧ L.key = some key ∧ (L.cameUp = true → L.isOpen = true)

variable {s s' : State} {l₀ : Nat} {L₀ : Listener}

/-- The accounts after a change of one listener and of receivers on it. -/
theorem Accounted.change (h : Accounted s) (l₀ : Nat) (L₀ : Listener)
    (hL₀ : s'.listeners[l₀]? = some L₀)
    (haccounts : L₀.Accounts (s'.claims l₀))
    (hlisteners : ∀ l, l ≠ l₀ → s'.listeners[l]? = s.listeners[l]?)
    (hclaims : ∀ l, l ≠ l₀ → s'.claims l = s.claims l)
    (hkept : ∀ L, s.listeners[l₀]? = some L →
      L₀.key = L.key ∧ (L.cameUp = true → L₀.cameUp = true))
    (hreceivers : ∀ (i : Nat) (r : Receiver), s'.receivers[i]? = some r →
      s.receivers[i]? = some r ∨ r.listener = l₀ ∧ r.key = L₀.key ∧
        (r.phase.isRunning = true → L₀.cameUp = true))
    (hmapped : ∀ key l, s'.sharedByPort.get? key = some l →
      l ≠ l₀ ∧ s.sharedByPort.get? key = some l ∨
        l = l₀ ∧ L₀.key = some key ∧ (L₀.cameUp = true → L₀.isOpen = true)) :
    Accounted s' where
  accounts l L hL := by
    by_cases hl : l = l₀
    · subst hl
      rw [hL₀] at hL
      cases hL
      exact haccounts
    · rw [hlisteners l hl] at hL
      rw [hclaims l hl]
      exact h.accounts l L hL
  placed i r hr := by
    obtain hr | ⟨rfl, hkey, hrunning⟩ := hreceivers i r hr
    · obtain ⟨L, hL, hkey, hrunning⟩ := h.placed i r hr
      by_cases hl : r.listener = l₀
      · subst hl
        obtain ⟨hsame, hup⟩ := hkept L hL
        exact ⟨L₀, hL₀, hsame.trans hkey, fun hr => hup (hrunning hr)⟩
      · exact ⟨L, (hlisteners _ hl).trans hL, hkey, hrunning⟩
    · exact ⟨L₀, hL₀, hkey.symm, hrunning⟩
  mapped key l hl := by
    obtain ⟨hne, hl⟩ | ⟨rfl, hkey, hup⟩ := hmapped key l hl
    · obtain ⟨L, hL, hkey, hup⟩ := h.mapped key l hl
      exact ⟨L, (hlisteners l hne).trans hL, hkey, hup⟩
    · exact ⟨L₀, hL₀, hkey, hup⟩

theorem accounted_initial : Accounted State.initial where
  accounts _ _ h := by cases h
  placed _ _ h := by cases h
  mapped _ _ h := by cases h

theorem shut_accounts {L : Listener} (hopen : L.isOpen = true)
    (hrefs : L.key ≠ none → L.refs = 0) : L.shut.Accounts 0 := by
  unfold Listener.isOpen at hopen
  split at hopen
  · next port hup =>
    have hshut : L.shut = { L with server := .shut port } := by rw [Listener.shut, hup]
    rw [hshut]
    refine ⟨hrefs, fun _ => Nat.zero_le 1, fun hheld => ?_, fun _ _ => rfl⟩
    obtain hheld | hheld := hheld
    · cases hheld
    · cases hheld
  · cases hopen

/-- No receiver is on a listener there is not yet. -/
theorem Accounted.claims_fresh (h : Accounted s) : s.claims s.listeners.length = 0 := by
  by_contra hne
  obtain ⟨i, r, hr, hl, -⟩ := claims_pos_iff.mp (Nat.pos_of_ne_zero hne)
  obtain ⟨L, hL, -⟩ := h.placed i r hr
  rw [hl, List.getElem?_eq_none (Nat.le_refl _)] at hL
  cases hL

theorem Accounted.mapped_ne_fresh (h : Accounted s) {key : JsString} {l : Nat}
    (hl : s.sharedByPort.get? key = some l) : l ≠ s.listeners.length := by
  rintro rfl
  obtain ⟨L, hL, -⟩ := h.mapped key _ hl
  rw [List.getElem?_eq_none (Nat.le_refl _)] at hL
  cases hL

/-- A live receiver on a listener that came up has it open. -/
theorem Accounted.isOpen (h : Accounted s) {i : Nat} {r : Receiver} {L : Listener}
    (hr : s.receivers[i]? = some r) (hlive : r.phase.live = true)
    (hL : s.listeners[r.listener]? = some L) (hup : L.cameUp = true) : L.isOpen = true := by
  by_contra hopen
  have hzero := (h.accounts _ _ hL).idle hup (Bool.eq_false_iff.mpr hopen)
  have hpos := claims_pos_iff.mpr ⟨i, r, hr, rfl, hlive⟩
  omega

end Accounts

section Starts

variable {s : State} {l : Nat} {L : Listener} {key port nonce : JsString} {binding : Binding}
  {env : ProcessEnv}

/-- A start on a shared listener there is not yet. -/
def State.open (s : State) (key port : JsString) (binding : Binding) : State :=
  { s.listen (some key) port binding with
    sharedByPort := s.sharedByPort.set key s.listeners.length }

/-- A start asks for a listener of its own, joins a shared one, or asks for a shared one. -/
theorem start_cases (s : State) (env : ProcessEnv) (nonce : JsString) :
    (∃ binding, s.start env nonce =
      (s.listen none (js "0") binding).await s.listeners.length none nonce) ∨
    (∃ key l, s.sharedByPort.get? key = some l ∧
      s.start env nonce = (s.update l Listener.claim).await l (some key) nonce) ∨
    ∃ key port binding, s.sharedByPort.get? key = none ∧
      s.start env nonce = ((s.open key port binding).update s.listeners.length
        Listener.claim).await s.listeners.length (some key) nonce := by
  unfold State.start
  cases pinnedPort env with
  | none => exact Or.inl ⟨_, rfl⟩
  | some pinned =>
    refine Or.inr ?_
    simp only [State.share]
    cases hkey : s.sharedByPort.get? ((receiverBinding env).bind ++ js ":" ++ pinned.text) with
    | some l => exact Or.inl ⟨_, l, hkey, rfl⟩
    | none => exact Or.inr ⟨_, _, _, hkey, rfl⟩

theorem Accounted.start_own (h : Accounted s) (port : JsString) (binding : Binding) :
    Accounted ((s.listen none port binding).await s.listeners.length none nonce) := by
  have hclaims : ∀ l, (s.listen none port binding).claims l = s.claims l := fun _ => rfl
  refine h.change s.listeners.length _ (by rw [listeners_await, getElem?_listen, if_pos rfl])
    ?_ ?_ ?_ ?_ ?_ ?_
  · rw [claims_await, hclaims, h.claims_fresh, if_pos rfl]
    exact ⟨fun hkey => absurd rfl hkey, fun _ => Nat.le_refl _, fun _ => Nat.one_pos,
      fun hup => by cases hup⟩
  · intro l hl
    rw [listeners_await, getElem?_listen, if_neg hl]
  · intro l hl
    rw [claims_await, hclaims, if_neg (Ne.symm hl), Nat.add_zero]
  · intro L hL
    rw [List.getElem?_eq_none (Nat.le_refl _)] at hL
    cases hL
  · intro i r hr
    rw [getElem?_await] at hr
    split at hr
    · cases hr
      exact Or.inr ⟨rfl, rfl, fun hrunning => by cases hrunning⟩
    · exact Or.inl hr
  · intro key l hl
    exact Or.inl ⟨h.mapped_ne_fresh hl, hl⟩

theorem Accounted.start_join (h : Accounted s) (hl : s.sharedByPort.get? key = some l) :
    Accounted ((s.update l Listener.claim).await l (some key) nonce) := by
  obtain ⟨L, hL, hkey, hup⟩ := h.mapped key l hl
  have hclaims : ∀ l', (s.update l Listener.claim).claims l' = s.claims l' := fun _ => rfl
  have haccounts := h.accounts l L hL
  refine h.change l _ (by rw [listeners_await, getElem?_update hL, if_pos rfl])
    ?_ ?_ ?_ ?_ ?_ ?_
  · rw [claims_await, hclaims, if_pos rfl]
    refine ⟨fun hkey => ?_, fun hnone => ?_, fun _ => Nat.succ_pos _, fun hcame hopen => ?_⟩
    · rw [Listener.claim, haccounts.refs hkey]
    · exact absurd (hkey.symm.trans hnone) (Option.some_ne_none key)
    · exact absurd (hup hcame) (Bool.eq_false_iff.mp hopen)
  · intro l' hl'
    rw [listeners_await, getElem?_update hL, if_neg hl']
  · intro l' hl'
    rw [claims_await, hclaims, if_neg (Ne.symm hl'), Nat.add_zero]
  · intro L' hL'
    cases hL.symm.trans hL'
    exact ⟨rfl, id⟩
  · intro i r hr
    rw [getElem?_await] at hr
    split at hr
    · cases hr
      exact Or.inr ⟨rfl, hkey.symm, fun hrunning => by cases hrunning⟩
    · exact Or.inl hr
  · intro key' l' hl'
    by_cases hll : l' = l
    · subst hll
      obtain ⟨L', hL', hkey', hup'⟩ := h.mapped key' _ hl'
      cases hL.symm.trans hL'
      exact Or.inr ⟨rfl, hkey', hup'⟩
    · exact Or.inl ⟨hll, hl'⟩

theorem Accounted.start_open (h : Accounted s) :
    Accounted (((s.open key port binding).update s.listeners.length Listener.claim).await
      s.listeners.length (some key) nonce) := by
  have hclaims : ∀ l, ((s.open key port binding).update s.listeners.length
    Listener.claim).claims l = s.claims l := fun _ => rfl
  have hfresh : (s.open key port binding).listeners[s.listeners.length]? =
      some ⟨some key, port, binding, .opening, 0, []⟩ :=
    getElem?_listen.trans (if_pos rfl)
  refine h.change s.listeners.length _
    (by rw [listeners_await, getElem?_update hfresh, if_pos rfl]) ?_ ?_ ?_ ?_ ?_ ?_
  · rw [claims_await, hclaims, h.claims_fresh, if_pos rfl]
    exact ⟨fun _ => rfl, fun _ => Nat.le_refl _, fun _ => Nat.one_pos, fun hup => by cases hup⟩
  · intro l hl
    rw [listeners_await, getElem?_update hfresh, if_neg hl]
    exact getElem?_listen.trans (if_neg hl)
  · intro l hl
    rw [claims_await, hclaims, if_neg (Ne.symm hl), Nat.add_zero]
  · intro L hL
    rw [List.getElem?_eq_none (Nat.le_refl _)] at hL
    cases hL
  · intro i r hr
    rw [getElem?_await] at hr
    split at hr
    · cases hr
      exact Or.inr ⟨rfl, rfl, fun hrunning => by cases hrunning⟩
    · exact Or.inl hr
  · intro key' l hl
    have hl : (s.sharedByPort.set key s.listeners.length).get? key' = some l := hl
    rw [Map.get?_set] at hl
    split at hl
    · next hkey =>
      cases hl
      exact Or.inr ⟨rfl, congrArg some hkey.symm, fun hup => by cases hup⟩
    · exact Or.inl ⟨h.mapped_ne_fresh hl, hl⟩

/-- A start takes a claim. -/
theorem Accounted.start (h : Accounted s) : Accounted (s.start env nonce) := by
  obtain ⟨binding, he⟩ | ⟨key, l, hl, he⟩ | ⟨key, port, binding, -, he⟩ := start_cases s env nonce
  · rw [he]
    exact h.start_own _ _
  · rw [he]
    exact h.start_join hl
  · rw [he]
    exact h.start_open

end Starts

section Servers

variable {s : State} {l : Nat} {L : Listener}

/-- A server that was asked to listen comes up or not. -/
theorem Accounted.settle (h : Accounted s) (hL : s.listeners[l]? = some L)
    (hopening : L.server = .opening) (server : ServerPhase) {f : Listener → Listener}
    (hf : f L = { L with server })
    (hup : (f L).cameUp = true → (f L).isOpen = true) : Accounted (s.update l f) := by
  have haccounts := h.accounts l L hL
  have hcame : L.cameUp = false := by simp [Listener.cameUp, hopening]
  refine h.change l (f L) (by rw [getElem?_update hL, if_pos rfl])
    ?_ ?_ (fun _ _ => rfl) ?_ (fun i r hr => Or.inl hr) ?_
  · refine ⟨fun hkey => ?_, fun hkey => ?_, fun _ => haccounts.held (Or.inl hopening), ?_⟩
    · rw [hf] at hkey ⊢
      exact haccounts.refs hkey
    · rw [hf] at hkey
      exact haccounts.own hkey
    · exact fun hcame hopen => absurd (hup hcame) (Bool.eq_false_iff.mp hopen)
  · intro l' hl'
    rw [getElem?_update hL, if_neg hl']
  · intro L' hL'
    cases hL.symm.trans hL'
    rw [hcame, hf]
    exact ⟨rfl, fun hup => by cases hup⟩
  · intro key l' hl'
    by_cases hll : l' = l
    · subst hll
      obtain ⟨L', hL', hkey, -⟩ := h.mapped key _ hl'
      cases hL.symm.trans hL'
      refine Or.inr ⟨rfl, ?_, hup⟩
      rw [hf]
      exact hkey
    · exact Or.inl ⟨hll, hl'⟩

/-- An entry goes. -/
theorem Accounted.unmap (h : Accounted s) (key : JsString) :
    Accounted { s with sharedByPort := s.sharedByPort.erase key } where
  accounts := h.accounts
  placed := h.placed
  mapped key' l hl := by
    rw [Map.get?_erase] at hl
    split at hl
    · cases hl
    · exact h.mapped key' l hl

theorem Accounted.forget (h : Accounted s) : Accounted (s.forget l L) := by
  unfold State.forget
  split
  · exact h
  · split
    · exact h.unmap _
    · exact h

end Servers

section Receivers

variable {s : State} {i : Nat} {r : Receiver} {L : Listener} {phase : ReceiverPhase}
  {f : Listener → Listener} {sharedByPort : Map JsString Nat} {registry : Map JsString Nat}

/-- A receiver goes on, and its listener is changed with it. -/
theorem Accounted.advance (h : Accounted s) (hr : s.receivers[i]? = some r)
    (hlive : r.phase.live = true) (hL : s.listeners[r.listener]? = some L)
    (hf : (f L).key = L.key ∧ (f L).cameUp = L.cameUp)
    (haccounts : (f L).Accounts (if phase.live then s.claims r.listener
      else s.claims r.listener - 1))
    (hrunning : phase.isRunning = true → L.cameUp = true)
    (hmapped : ∀ key l, sharedByPort.get? key = some l → s.sharedByPort.get? key = some l ∧
      (l = r.listener → (f L).cameUp = true → (f L).isOpen = true)) :
    Accounted ⟨s.receivers.set i { r with phase }, s.listeners.modify r.listener f,
      sharedByPort, registry⟩ := by
  obtain ⟨L', hL', hkey, -⟩ := h.placed i r hr
  cases hL.symm.trans hL'
  have hlisteners : ∀ l, (s.listeners.modify r.listener f)[l]? =
      if l = r.listener then some (f L) else s.listeners[l]? := fun _ => getElem?_update hL
  have hreceivers : ∀ j, (s.receivers.set i { r with phase })[j]? =
      if j = i then some { r with phase } else s.receivers[j]? := fun _ => getElem?_setPhase hr
  have hclaims : ∀ l, State.claims ⟨s.receivers.set i { r with phase },
      s.listeners.modify r.listener f, sharedByPort, registry⟩ l =
      if phase.live = false ∧ l = r.listener then s.claims l - 1 else s.claims l := by
    intro l
    change (s.setPhase i r phase).claims l = _
    cases hphase : phase.live with
    | true => simpa using claims_of_live hr hlive hphase
    | false =>
      have hset := claims_of_not_live (l := l) hr hlive hphase
      by_cases hl : l = r.listener
      · subst hl
        simp only [if_true, and_self] at hset ⊢
        omega
      · simpa [hl, Ne.symm hl] using hset
  refine h.change r.listener (f L) (by rw [hlisteners, if_pos rfl]) ?_ ?_ ?_ ?_ ?_ ?_
  · rw [hclaims]
    cases hphase : phase.live with
    | true => simpa [hphase] using haccounts
    | false => simpa [hphase] using haccounts
  · intro l hl
    rw [hlisteners, if_neg hl]
  · intro l hl
    rw [hclaims, if_neg fun hboth => hl hboth.2]
  · intro L' hL'
    cases hL.symm.trans hL'
    exact ⟨hf.1, fun hup => hf.2.trans hup⟩
  · intro j r' hr'
    rw [hreceivers] at hr'
    split at hr'
    · cases hr'
      exact Or.inr ⟨rfl, hkey.symm.trans hf.1.symm, fun hrun => hf.2.trans (hrunning hrun)⟩
    · exact Or.inl hr'
  · intro key l hl
    obtain ⟨hl, hopen⟩ := hmapped key l hl
    by_cases hll : l = r.listener
    · subst hll
      obtain ⟨L', hL', hkey, -⟩ := h.mapped key _ hl
      cases hL.symm.trans hL'
      exact Or.inr ⟨rfl, hf.1.trans hkey, hopen rfl⟩
    · exact Or.inl ⟨hll, hl⟩

end Receivers

section Continuations

variable {s : State} {i : Nat} {r : Receiver} {L : Listener} {env : ProcessEnv}
  {parseUrl : JsString → Option ParsedUrl} {origin port message : JsString}

/-- A start that finds a usable front hands its receiver out. -/
theorem attach_of_usable (h : FrontUsable parseUrl env) (s : State) (i : Nat) (r : Receiver)
    (origin port : JsString) : ∃ handle,
    s.attach parseUrl env i r origin port =
      ⟨s.receivers.set i { r with phase := .running handle },
        s.listeners.modify r.listener (Listener.add i), s.sharedByPort,
        s.registry.set r.nonce i⟩ := by
  obtain ⟨front, hfront⟩ := h origin
  unfold State.attach
  rw [hfront]
  exact ⟨_, rfl⟩

theorem abandon_eq (s : State) (i : Nat) (r : Receiver) (message : JsString) :
    ∃ f : Listener → Listener,
    (f = if r.key.isSome then Listener.release else id) ∧
      s.abandon i r message = ⟨s.receivers.set i { r with phase := .failed message },
        s.listeners.modify r.listener f, s.sharedByPort, s.registry⟩ := by
  refine ⟨_, rfl, ?_⟩
  obtain ⟨nonce, key, listener, phase⟩ := r
  cases key with
  | none => simp [State.abandon, State.setPhase]
  | some key => simp [State.abandon, State.setPhase, State.update]

/-- A close gives the claim back, and shuts the server with the last one. -/
theorem leave_eq (s : State) (i : Nat) (r : Receiver) (L : Listener) :
    ∃ (f : Listener → Listener) (sharedByPort : Map JsString Nat),
    s.leave i r L = ⟨s.receivers.set i { r with phase := .closed },
      s.listeners.modify r.listener f, sharedByPort, s.registry.erase r.nonce⟩ ∧
    (r.key = none ∧ f = Listener.shut ∘ Listener.remove i ∧ sharedByPort = s.sharedByPort ∨
      r.key ≠ none ∧ 1 < L.refs ∧ f = Listener.release ∘ Listener.remove i ∧
        sharedByPort = s.sharedByPort ∨
      ∃ key, r.key = some key ∧ L.refs ≤ 1 ∧
        f = Listener.shut ∘ Listener.release ∘ Listener.remove i ∧
        sharedByPort = if s.sharedByPort.get? key = some r.listener then
          s.sharedByPort.erase key else s.sharedByPort) := by
  obtain ⟨nonce, key, listener, phase⟩ := r
  cases key with
  | none =>
    refine ⟨_, _, ?_, Or.inl ⟨rfl, rfl, rfl⟩⟩
    simp [State.leave, State.update, State.setPhase, List.modify_modify_eq]
  | some key =>
    by_cases hrefs : 1 < L.refs
    · refine ⟨_, _, ?_, Or.inr (Or.inl ⟨Option.some_ne_none key, hrefs, rfl, rfl⟩)⟩
      simp [State.leave, State.update, State.setPhase, List.modify_modify_eq, hrefs]
    · refine ⟨_, _, ?_, Or.inr (Or.inr ⟨key, rfl, Nat.le_of_not_lt hrefs, rfl, rfl⟩)⟩
      simp [State.leave, State.update, State.setPhase, List.modify_modify_eq, hrefs]

theorem Accounted.attach (h : Accounted s) (hr : s.receivers[i]? = some r)
    (hphase : r.phase = .waiting) (hL : s.listeners[r.listener]? = some L)
    (hup : L.cameUp = true) (hfront : FrontUsable parseUrl env) :
    Accounted (s.attach parseUrl env i r origin port) := by
  have hlive : r.phase.live = true := by rw [hphase]; rfl
  have haccounts := h.accounts _ L hL
  obtain ⟨handle, he⟩ := attach_of_usable hfront s i r origin port
  rw [he]
  apply h.advance hr hlive hL ⟨rfl, rfl⟩
  · exact ⟨haccounts.refs, haccounts.own, haccounts.held, haccounts.idle⟩
  · exact fun _ => hup
  · intro key l hl
    exact ⟨hl, fun _ _ => show L.isOpen = true from h.isOpen hr hlive hL hup⟩

theorem Accounted.abandon (h : Accounted s) (hr : s.receivers[i]? = some r)
    (hphase : r.phase = .waiting) (hL : s.listeners[r.listener]? = some L)
    (hrefused : L.server = .refused message) : Accounted (s.abandon i r message) := by
  have hlive : r.phase.live = true := by rw [hphase]; rfl
  have haccounts := h.accounts _ L hL
  obtain ⟨L', hL', hkey, -⟩ := h.placed i r hr
  cases hL.symm.trans hL'
  obtain ⟨f, hf, he⟩ := abandon_eq s i r message
  have hserver : (f L).key = L.key ∧ (f L).server = .refused message := by
    rw [hf]
    split
    · exact ⟨rfl, hrefused⟩
    · exact ⟨rfl, hrefused⟩
  have hdown : (f L).cameUp = false := by rw [Listener.cameUp, hserver.2]
  rw [he]
  apply h.advance hr hlive hL
  · refine ⟨hserver.1, hdown.trans ?_⟩
    rw [Listener.cameUp, hrefused]
  · refine ⟨fun hshared => ?_, fun hown => ?_, fun hheld => ?_, fun hup => ?_⟩
    · rw [hserver.1] at hshared
      have hsome : r.key.isSome = true := by
        rw [← hkey]
        exact Option.isSome_iff_ne_none.mpr hshared
      rw [hf, if_pos hsome]
      exact congrArg (· - 1) (haccounts.refs hshared)
    · rw [hserver.1] at hown
      exact (Nat.sub_le _ _).trans (haccounts.own hown)
    · rw [hserver.2, Listener.isOpen, hserver.2] at hheld
      obtain hheld | hheld := hheld
      · cases hheld
      · cases hheld
    · rw [hdown] at hup
      cases hup
  · intro hrunning
    cases hrunning
  · intro key l hl
    refine ⟨hl, fun _ hup => ?_⟩
    rw [hdown] at hup
    cases hup

theorem Accounted.leave (h : Accounted s) (hr : s.receivers[i]? = some r)
    (hrunning : r.phase.isRunning = true) (hL : s.listeners[r.listener]? = some L) :
    Accounted (s.leave i r L) := by
  have hlive : r.phase.live = true := live_of_isRunning hrunning
  have haccounts := h.accounts _ L hL
  obtain ⟨L', hL', hkey, hup⟩ := h.placed i r hr
  cases hL.symm.trans hL'
  have hopen := h.isOpen hr hlive hL (hup hrunning)
  have hcount : 0 < s.claims r.listener := claims_pos_iff.mpr ⟨i, r, hr, rfl, hlive⟩
  obtain ⟨f, sharedByPort, he, hcases⟩ := leave_eq s i r L
  rw [he]
  obtain ⟨hnone, rfl, rfl⟩ | ⟨hsome, hrefs, rfl, rfl⟩ | ⟨key, hsome, hrefs, rfl, rfl⟩ := hcases
  · -- the only receiver of its listener
    have hlast : s.claims r.listener - 1 = 0 := by
      have hone := haccounts.own (hkey.trans hnone)
      omega
    obtain ⟨hshut, hcame, -⟩ := shut_of_isOpen (L := L.remove i) hopen
    apply h.advance hr hlive hL
    · exact ⟨hshut, hcame.trans (hup hrunning).symm⟩
    · rw [if_neg (by decide), hlast]
      exact shut_accounts hopen fun hshared => absurd (hkey.trans hnone) hshared
    · intro hrun
      cases hrun
    · intro key l hl
      refine ⟨hl, fun hll => ?_⟩
      subst hll
      obtain ⟨L', hL', hkey', -⟩ := h.mapped key _ hl
      cases hL.symm.trans hL'
      exact absurd (hkey'.symm.trans (hkey.trans hnone)) (Option.some_ne_none key)
  · -- other receivers keep the server
    have hrefs' := haccounts.refs (hkey.trans_ne hsome)
    apply h.advance hr hlive hL ⟨rfl, rfl⟩
    · rw [if_neg (by decide)]
      refine ⟨fun _ => congrArg (· - 1) hrefs', fun hown => ?_, fun _ => ?_, fun _ hclosed => ?_⟩
      · exact absurd (hkey.symm.trans hown) hsome
      · omega
      · exact absurd hopen (Bool.eq_false_iff.mp hclosed)
    · intro hrun
      cases hrun
    · exact fun key l hl => ⟨hl, fun _ _ => hopen⟩
  · -- the last claim
    have hshared : L.key = some key := hkey.trans hsome
    have hrefs' := haccounts.refs (hshared.trans_ne (Option.some_ne_none key))
    have hlast : s.claims r.listener - 1 = 0 := by omega
    obtain ⟨hshut, hcame, -⟩ := shut_of_isOpen (L := (L.remove i).release) hopen
    apply h.advance hr hlive hL
    · exact ⟨hshut, hcame.trans (hup hrunning).symm⟩
    · rw [if_neg (by decide), hlast]
      exact shut_accounts hopen fun _ => by
        change L.refs - 1 = 0
        omega
    · intro hrun
      cases hrun
    · -- no entry leads to it any more
      intro key' l hl
      have hother : key' ≠ key ∨ s.sharedByPort.get? key ≠ some r.listener := by
        by_contra hnot
        push Not at hnot
        obtain ⟨rfl, hmap⟩ := hnot
        rw [if_pos hmap, Map.get?_erase, if_pos rfl] at hl
        cases hl
      have hmap : s.sharedByPort.get? key' = some l := by
        split at hl
        · rw [Map.get?_erase] at hl
          split at hl
          · cases hl
          · exact hl
        · exact hl
      refine ⟨hmap, fun hll => ?_⟩
      subst hll
      obtain ⟨L', hL', hkey', -⟩ := h.mapped key' _ hmap
      cases hL.symm.trans hL'
      obtain rfl := Option.some.inj (hkey'.symm.trans hshared)
      obtain hother | hother := hother
      · exact absurd rfl hother
      · exact absurd hmap hother

end Continuations

end OpenWop.Webhook.Scoped
