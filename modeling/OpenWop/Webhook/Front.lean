import OpenWop.Js.Stringify
import OpenWop.Js.ToNumber

/-!
# The address of a receiver

An operator may put a public https front before the webhook receivers, pin the port they
listen on, and name the host they are reached under.
-/

namespace OpenWop.Webhook

open OpenWop.Js

/-- `process.env`. -/
abbrev ProcessEnv := JsString → Option JsString

/-- What `new URL(raw)` has that is read here. -/
structure ParsedUrl where
  protocol : JsString
  hostname : JsString
  deriving DecidableEq, Repr

structure PublicFront where
  url : JsString
  tunnelled : Bool
  deriving DecidableEq, Repr

structure Binding where
  bind : JsString
  advertise : JsString
  deriving DecidableEq, Repr

/-- `WEBHOOK_FRONT_ENV`. -/
def webhookFrontEnv : JsString := js "OPENWOP_WEBHOOK_RECEIVER_URL"

/-- `FRONT_MUX_PREFIX`. -/
def frontMuxPrefix : JsString := js "/fx/"

section Hosts

/-- A unit of `toLowerCase`, in a host name, which is ASCII. -/
def lowerHostUnit (u : UInt16) : UInt16 := if 65 ≤ u ∧ u ≤ 90 then u + 32 else u

def isLoopback (host : JsString) : Bool :=
  host == js "localhost" || host == js "::1" || startsWith host (js "127.")

/-- `/^172\.(1[6-9]|2\d|3[01])\./`. -/
def isPrivate172 (host : JsString) : Bool :=
  startsWith host (js "172.") &&
    match host.drop 4 with
    | u :: v :: w :: _ => w == unit '.' &&
      ((u == unit '1' && (unit '6' ≤ v && v ≤ unit '9')) || (u == unit '2' && isDigit v) ||
        (u == unit '3' && (v == unit '0' || v == unit '1')))
    | _ => false

def isPrivate (host : JsString) : Bool :=
  startsWith host (js "10.") || startsWith host (js "192.168.") || isPrivate172 host ||
    startsWith host (js "169.254.") || startsWith host (js "fc") || startsWith host (js "fd")

end Hosts

/-- `s.replace(/\/+$/, '')`. -/
def stripSlashes (s : JsString) : JsString := s.rdropWhile (· == unit '/')

/-- The public front of a fixture, or its local address. -/
def resolvePublicFront (parseUrl : JsString → Option ParsedUrl) (env : ProcessEnv)
    (envName localUrl : JsString) : Except JsString PublicFront :=
  let raw := trim ((env envName).getD [])
  if raw = [] then .ok ⟨localUrl, false⟩
  else
    match parseUrl raw with
    | none => .error (envName ++ js " is not a valid URL: " ++ quote raw)
    | some parsed =>
      if parsed.protocol ≠ js "https:" then
        .error (envName ++ js " MUST be https: (got " ++ parsed.protocol ++ js "). " ++
          js "A plain-http front cannot clear the scheme gate, so it cannot witness this scenario.")
      else
        let host := parsed.hostname.map lowerHostUnit
        if isLoopback host || isPrivate host then
          .error (envName ++ js " MUST be a publicly-resolvable host (got " ++ parsed.hostname ++
            js "). " ++
            js "It is the PUBLIC front for the local receiver — a tunnel or TLS-terminating proxy — "
            ++ js "not the receiver address itself.")
        else .ok ⟨if envName = webhookFrontEnv then raw else stripSlashes raw, true⟩

/-- Where a receiver listens, and what the host under test is told. -/
def receiverBinding (env : ProcessEnv) : Binding :=
  let advertise := trim ((env (js "OPENWOP_CONFORMANCE_HARNESS_HOST")).getD [])
  if advertise = [] then ⟨js "127.0.0.1", js "127.0.0.1"⟩ else ⟨js "0.0.0.0", advertise⟩

/-- The port the operator pinned. -/
def pinnedPort (env : ProcessEnv) : Option JsNumber :=
  let pinned := stringToNumber ((env (js "OPENWOP_WEBHOOK_RECEIVER_PORT")).getD [])
  if pinned.isInteger && JsNumber.lt (.ofNat 0) pinned && JsNumber.lt pinned (.ofNat 65536) then
    some pinned
  else none

/-- The front can be handed out, whatever the local address. -/
def FrontUsable (parseUrl : JsString → Option ParsedUrl) (env : ProcessEnv) : Prop :=
  ∀ localUrl, ∃ front, resolvePublicFront parseUrl env webhookFrontEnv localUrl = .ok front

/-- A front is usable when the variable is blank, or has the URL of a public https host. -/
theorem frontUsable_iff {parseUrl : JsString → Option ParsedUrl} {env : ProcessEnv} :
    FrontUsable parseUrl env ↔ trim ((env webhookFrontEnv).getD []) = [] ∨
      ∃ parsed, parseUrl (trim ((env webhookFrontEnv).getD [])) = some parsed ∧
        parsed.protocol = js "https:" ∧ isLoopback (parsed.hostname.map lowerHostUnit) = false ∧
        isPrivate (parsed.hostname.map lowerHostUnit) = false := by
  unfold FrontUsable resolvePublicFront
  by_cases hraw : trim ((env webhookFrontEnv).getD []) = []
  · simp [hraw]
  · cases hparsed : parseUrl (trim ((env webhookFrontEnv).getD [])) with
    | none => simp [hraw, hparsed]
    | some parsed =>
      by_cases hprotocol : parsed.protocol = js "https:"
      · cases hloop : isLoopback (parsed.hostname.map lowerHostUnit) with
        | true => simp [hraw, hparsed, hprotocol, hloop]
        | false =>
          cases hprivate : isPrivate (parsed.hostname.map lowerHostUnit) with
          | true => simp [hraw, hparsed, hprotocol, hloop, hprivate]
          | false => simp [hraw, hparsed, hprotocol, hloop, hprivate]
      · simp [hraw, hparsed, hprotocol]

end OpenWop.Webhook
