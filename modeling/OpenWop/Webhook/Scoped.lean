import OpenWop.Core.Reachable
import OpenWop.Webhook.Front

/-!
# Receivers that share a listener

Every receiver alive on a pinned port shares one listener, and claims it before the first
await of its start. The server is asked to listen by the start that finds no entry for the
port, and shut by the close that gives back the last claim. Starts, bindings, continuations
of starts and closes come in any order.
-/

namespace OpenWop.Webhook.Scoped

open OpenWop.Js OpenWop.Core

section Model

/-- The server of a listener. -/
inductive ServerPhase where
  | opening
  | up (port : JsString)
  | refused (message : JsString)
  | shut (port : JsString)
  deriving DecidableEq, Repr

/-- A listener, and its claim count when it is a shared one. -/
structure Listener where
  /-- The key of a shared listener in `sharedByPort`. -/
  key : Option JsString
  port : JsString
  binding : Binding
  server : ServerPhase
  refs : Nat
  /-- The receivers among `members`. -/
  members : List Nat
  deriving DecidableEq, Repr

/-- What a start returns. -/
structure ScopedReceiver where
  url : JsString
  tunnelled : Bool
  localUrl : JsString
  nonce : JsString
  port : JsString
  deriving DecidableEq, Repr

/-- How far a receiver is. -/
inductive ReceiverPhase where
  | waiting
  | running (handle : ScopedReceiver)
  | failed (message : JsString)
  | closed
  deriving DecidableEq, Repr

structure Receiver where
  nonce : JsString
  key : Option JsString
  listener : Nat
  phase : ReceiverPhase
  deriving DecidableEq, Repr

/-- The module's state. `registry` has the routes behind the webhook front. -/
structure State where
  receivers : List Receiver
  listeners : List Listener
  sharedByPort : Map JsString Nat
  registry : Map JsString Nat

def State.initial : State := ⟨[], [], .empty, .empty⟩

/-- What happens next. -/
inductive Event where
  /-- `startScopedReceiver` is called. -/
  | start (env : ProcessEnv) (nonce : JsString)
  /-- A server listens. -/
  | bound (listener : Nat) (port : JsString)
  /-- A server could not listen. -/
  | refused (listener : Nat) (message : JsString)
  /-- `listening.catch` runs. -/
  | forget (listener : Nat)
  /-- A start goes on after its await. -/
  | resume (receiver : Nat) (env : ProcessEnv)
  /-- `close` is called. -/
  | close (receiver : Nat)

/-- A receiver is live from the call that starts it until its start fails or it is closed. -/
def ReceiverPhase.live : ReceiverPhase → Bool
  | .waiting | .running _ => true
  | .failed _ | .closed => false

def ReceiverPhase.isRunning : ReceiverPhase → Bool
  | .running _ => true
  | _ => false

/-- The server has come up, and may have been shut since. -/
def Listener.cameUp (L : Listener) : Bool :=
  match L.server with
  | .up _ | .shut _ => true
  | .opening | .refused _ => false

def Listener.isOpen (L : Listener) : Bool :=
  match L.server with
  | .up _ => true
  | _ => false

/-- `shared.refs += 1`. -/
def Listener.claim (L : Listener) : Listener := { L with refs := L.refs + 1 }

/-- `shared.refs -= 1`. -/
def Listener.release (L : Listener) : Listener := { L with refs := L.refs - 1 }

/-- `listener.members.add(member)`. -/
def Listener.add (i : Nat) (L : Listener) : Listener := { L with members := L.members ++ [i] }

/-- `listener.members.delete(member)`. -/
def Listener.remove (i : Nat) (L : Listener) : Listener :=
  { L with members := L.members.filter (· ≠ i) }

/-- `shut(listener.server)`. -/
def Listener.shut (L : Listener) : Listener :=
  match L.server with
  | .up port => { L with server := .shut port }
  | _ => L

/-- The error of a server that could not listen. -/
def Listener.refusal (L : Listener) (message : JsString) : JsString :=
  js "scoped receiver could not bind " ++ L.binding.bind ++ js ":" ++ L.port ++ js " — " ++
    message ++ js ". A pinned OPENWOP_WEBHOOK_RECEIVER_PORT must be free for this process " ++
    js "(another process holds it?)"

namespace State

variable (s : State)

def update (l : Nat) (f : Listener → Listener) : State :=
  { s with listeners := s.listeners.modify l f }

def setPhase (i : Nat) (r : Receiver) (phase : ReceiverPhase) : State :=
  { s with receivers := s.receivers.set i { r with phase } }

/-- A server is asked to listen. -/
def listen (key : Option JsString) (port : JsString) (binding : Binding) : State :=
  { s with listeners := s.listeners ++ [⟨key, port, binding, .opening, 0, []⟩] }

/-- A start awaits its listener. -/
def await (l : Nat) (key : Option JsString) (nonce : JsString) : State :=
  { s with receivers := s.receivers ++ [⟨nonce, key, l, .waiting⟩] }

/-- The shared listener of a key, asked to listen if there is none. -/
def share (key port : JsString) (binding : Binding) : Nat × State :=
  match s.sharedByPort.get? key with
  | some l => (l, s)
  | none =>
    (s.listeners.length, { s.listen (some key) port binding with
      sharedByPort := s.sharedByPort.set key s.listeners.length })

/-- `startScopedReceiver`, up to its await. -/
def start (env : ProcessEnv) (nonce : JsString) : State :=
  let binding := receiverBinding env
  match pinnedPort env with
  | none => (s.listen none (js "0") binding).await s.listeners.length none nonce
  | some pinned =>
    let key := binding.bind ++ js ":" ++ pinned.text
    let (l, shared) := s.share key pinned.text binding
    (shared.update l Listener.claim).await l (some key) nonce

/-- The rest of `startScopedReceiver` once its listener is up. -/
def attach (parseUrl : JsString → Option ParsedUrl) (env : ProcessEnv) (i : Nat) (r : Receiver)
    (origin port : JsString) : State :=
  let joined := { s.update r.listener (Listener.add i) with
    registry := s.registry.set r.nonce i }
  match resolvePublicFront parseUrl env webhookFrontEnv origin with
  | .error message => joined.setPhase i r (.failed message)
  | .ok front => joined.setPhase i r <| .running
      { url := stripSlashes front.url ++ frontMuxPrefix ++ r.nonce
        tunnelled := front.tunnelled
        localUrl := origin ++ frontMuxPrefix ++ r.nonce
        nonce := r.nonce
        port }

/-- The rest of `startScopedReceiver` once its listener could not listen. -/
def abandon (i : Nat) (r : Receiver) (message : JsString) : State :=
  match r.key with
  | none => s.setPhase i r (.failed message)
  | some _ => (s.update r.listener Listener.release).setPhase i r (.failed message)

/-- A start goes on after its await. -/
def resume (parseUrl : JsString → Option ParsedUrl) (env : ProcessEnv) (i : Nat) (r : Receiver)
    (L : Listener) : State :=
  match L.server with
  | .opening => s
  | .up port | .shut port =>
    s.attach parseUrl env i r (js "http://" ++ L.binding.advertise ++ js ":" ++ port) port
  | .refused message => s.abandon i r message

/-- `close` of a receiver that was handed out and is not closed. -/
def leave (i : Nat) (r : Receiver) (L : Listener) : State :=
  let left := { s.update r.listener (Listener.remove i) with
    registry := s.registry.erase r.nonce }.setPhase i r .closed
  match r.key with
  | none => left.update r.listener Listener.shut
  | some key =>
    let released := left.update r.listener Listener.release
    if 1 < L.refs then released
    else
      { released with
        sharedByPort := if s.sharedByPort.get? key = some r.listener then
          s.sharedByPort.erase key else s.sharedByPort }.update r.listener Listener.shut

/-- `listening.catch`: the entry of a listener that could not listen goes. -/
def forget (l : Nat) (L : Listener) : State :=
  match L.key with
  | none => s
  | some key =>
    if s.sharedByPort.get? key = some l then { s with sharedByPort := s.sharedByPort.erase key }
    else s

end State

variable (parseUrl : JsString → Option ParsedUrl)

/-- What an event does. -/
def State.step (s : State) : Event → State
  | .start env nonce => s.start env nonce
  | .bound l port => s.update l fun L => { L with server := .up port }
  | .refused l message => s.update l fun L => { L with server := .refused (L.refusal message) }
  | .forget l => (s.listeners[l]?).elim s fun L => s.forget l L
  | .resume i env => (s.receivers[i]?).elim s fun r =>
      (s.listeners[r.listener]?).elim s fun L => s.resume parseUrl env i r L
  | .close i => (s.receivers[i]?).elim s fun r =>
      if r.phase.isRunning then (s.listeners[r.listener]?).elim s fun L => s.leave i r L else s

/-- The events that can come next. Nonces are random, so that no two are the same. -/
def Enabled (s : State) : Event → Prop
  | .start _ nonce => ∀ r ∈ s.receivers, r.nonce ≠ nonce
  | .bound l _ | .refused l _ => ∃ L, s.listeners[l]? = some L ∧ L.server = .opening
  | .forget l => ∃ L message, s.listeners[l]? = some L ∧ L.server = .refused message
  | .resume i _ => ∃ r L, s.receivers[i]? = some r ∧ r.phase = .waiting ∧
      s.listeners[r.listener]? = some L ∧ L.server ≠ .opening
  | .close i => ∃ r, s.receivers[i]? = some r ∧ (r.phase.isRunning = true ∨ r.phase = .closed)

end Model

section Reading

variable {s : State} {i j l l' : Nat} {r : Receiver} {L : Listener} {f : Listener → Listener}
  {key : Option JsString} {port nonce : JsString} {binding : Binding} {phase : ReceiverPhase}

theorem getElem?_update (hL : s.listeners[l]? = some L) :
    (s.update l f).listeners[l']? = if l' = l then some (f L) else s.listeners[l']? := by
  rw [State.update, List.getElem?_modify]
  by_cases h : l' = l
  · subst h
    simp [hL]
  · simp [h, Ne.symm h]

theorem getElem?_setPhase (hr : s.receivers[i]? = some r) :
    (s.setPhase i r phase).receivers[j]? =
      if j = i then some { r with phase } else s.receivers[j]? := by
  obtain ⟨hi, -⟩ := List.getElem?_eq_some_iff.mp hr
  rw [State.setPhase, List.getElem?_set]
  by_cases h : i = j
  · subst h
    simp [hi]
  · simp [h, Ne.symm h]

theorem getElem?_push {α : Type} (xs : List α) (a : α) (i : Nat) :
    (xs ++ [a])[i]? = if i = xs.length then some a else xs[i]? := by
  rw [List.getElem?_append]
  by_cases h : i < xs.length
  · simp [h, Nat.ne_of_lt h]
  · by_cases he : i = xs.length
    · simp [he]
    · simp [h, he]
      omega

theorem getElem?_listen : (s.listen key port binding).listeners[l]? =
    if l = s.listeners.length then some ⟨key, port, binding, .opening, 0, []⟩
    else s.listeners[l]? := getElem?_push ..

theorem getElem?_await : (s.await l key nonce).receivers[i]? =
    if i = s.receivers.length then some ⟨nonce, key, l, .waiting⟩ else s.receivers[i]? :=
  getElem?_push ..

@[simp] theorem listeners_await : (s.await l key nonce).listeners = s.listeners := rfl

@[simp] theorem listeners_setPhase : (s.setPhase i r phase).listeners = s.listeners := rfl

@[simp] theorem receivers_update : (s.update l f).receivers = s.receivers := rfl

@[simp] theorem receivers_listen : (s.listen key port binding).receivers = s.receivers := rfl

@[simp] theorem server_claim : L.claim.server = L.server := rfl

@[simp] theorem server_release : L.release.server = L.server := rfl

@[simp] theorem server_add : (L.add i).server = L.server := rfl

@[simp] theorem server_remove : (L.remove i).server = L.server := rfl

theorem shut_of_isOpen (h : L.isOpen = true) :
    L.shut.key = L.key ∧ L.shut.cameUp = true ∧ L.shut.isOpen = false := by
  unfold Listener.isOpen at h
  split at h
  · next hup => simp [Listener.shut, Listener.cameUp, Listener.isOpen, hup]
  · cases h

theorem cameUp_of_isOpen (h : L.isOpen = true) : L.cameUp = true := by
  unfold Listener.isOpen at h
  split at h
  · next hup => simp [Listener.cameUp, hup]
  · cases h

theorem live_of_isRunning (h : phase.isRunning = true) : phase.live = true := by
  unfold ReceiverPhase.isRunning at h
  split at h
  · rfl
  · cases h

end Reading

section Claims

variable {s : State} {i l : Nat} {r : Receiver} {phase : ReceiverPhase}

/-- The receiver is live on that listener. -/
def Receiver.holds (l : Nat) (r : Receiver) : Bool := decide (r.listener = l) && r.phase.live

theorem holds_iff : r.holds l = true ↔ r.listener = l ∧ r.phase.live = true := by
  rw [Receiver.holds, Bool.and_eq_true, decide_eq_true_eq]

/-- How many receivers are live on a listener. -/
def State.claims (s : State) (l : Nat) : Nat := s.receivers.countP (Receiver.holds l)

theorem claims_pos_iff : 0 < s.claims l ↔
    ∃ (i : Nat) (r : Receiver), s.receivers[i]? = some r ∧ r.listener = l ∧
      r.phase.live = true := by
  rw [State.claims, List.countP_pos_iff]
  constructor
  · rintro ⟨r, hr, h⟩
    obtain ⟨i, hi⟩ := List.mem_iff_getElem?.mp hr
    exact ⟨i, r, hi, holds_iff.mp h⟩
  · rintro ⟨i, r, hr, h⟩
    exact ⟨r, List.mem_of_getElem? hr, holds_iff.mpr h⟩

theorem claims_await {key : Option JsString} {nonce : JsString} {l' : Nat} :
    (s.await l key nonce).claims l' = s.claims l' + if l = l' then 1 else 0 := by
  rw [State.claims, State.await, List.countP_append, List.countP_singleton]
  simp [State.claims, Receiver.holds, ReceiverPhase.live]

theorem claims_setPhase (hr : s.receivers[i]? = some r) (phase : ReceiverPhase) (l : Nat) :
    (s.setPhase i r phase).claims l + (if r.listener = l ∧ r.phase.live = true then 1 else 0) =
      s.claims l + if r.listener = l ∧ phase.live = true then 1 else 0 := by
  obtain ⟨hi, hr⟩ := List.getElem?_eq_some_iff.mp hr
  have hle := List.boole_getElem_le_countP (p := Receiver.holds l) hi
  rw [State.claims, State.setPhase, List.countP_set hi]
  simp only [hr, holds_iff] at hle ⊢
  rw [← State.claims] at hle ⊢
  omega

/-- A receiver that stays live keeps its claim. -/
theorem claims_of_live (hr : s.receivers[i]? = some r) (h : r.phase.live = true)
    (hphase : phase.live = true) : (s.setPhase i r phase).claims l = s.claims l := by
  have hset := claims_setPhase hr phase l
  simp only [h, hphase, and_true] at hset
  omega

/-- A receiver that is no longer live has given back one claim. -/
theorem claims_of_not_live (hr : s.receivers[i]? = some r) (h : r.phase.live = true)
    (hphase : phase.live = false) :
    (s.setPhase i r phase).claims l + (if r.listener = l then 1 else 0) = s.claims l := by
  have hset := claims_setPhase hr phase l
  simpa [h, hphase] using hset

end Claims

end OpenWop.Webhook.Scoped
