import OpenWop.Core.Reachable
import OpenWop.Webhook.Receiver

/-!
# Replay

A receiver is called again and again with one secret and one state. The signature is
compared after its hexadecimal text is read, and remembered as the text it came in, so
the state protects against replay only of the spellings it has seen.
-/

namespace OpenWop.Webhook

open OpenWop.Js OpenWop.Core

/-- One call of the receiver. -/
structure Call where
  delivery : Delivery
  options : VerifyOptions
  clock : JsNumber

/-- A receiver with the timestamps and bodies it has accepted. -/
structure Receiver where
  state : WebhookReceiverState
  accepted : List (JsNumber × List UInt8)

/-- The receiver before its first call. -/
def Receiver.start (state : WebhookReceiverState) : Receiver := ⟨state, []⟩

/-- What a delivery delivers. -/
def Delivery.content (d : Delivery) : JsNumber × List UInt8 := (d.timestamp, d.rawBody.bytes)

variable {hmac : Hmac} {secret : JsString} {r : Receiver} {call : Call}

/-- The result of a call, and the state it leaves. -/
def Receiver.verify (hmac : Hmac) (secret : JsString) (r : Receiver) (call : Call) :
    WebhookVerifyResult × WebhookReceiverState :=
  verifyWebhookDelivery hmac secret call.delivery r.state call.options call.clock

def Receiver.next (hmac : Hmac) (secret : JsString) (r : Receiver) (call : Call) : Receiver where
  state := (r.verify hmac secret call).2
  accepted :=
    if (r.verify hmac secret call).1 = .accepted then r.accepted ++ [call.delivery.content]
    else r.accepted

/-- The bytes of the signature are not among the accepted ones under another spelling. -/
def OneSpelling (r : Receiver) (call : Call) : Prop :=
  ∀ header ∈ r.state.acceptedSignatures,
    bytesOfHex (providedHex header) = bytesOfHex (providedHex call.delivery.signatureHeader) →
      header = call.delivery.signatureHeader

/-- The signature of the content. A body's bytes determine what is signed. -/
def signatureOf (hmac : Hmac) (secret : JsString) (content : JsNumber × List UInt8) : List UInt8 :=
  (hmac secret (utf8 (signedText content.1 (.buffer content.2)))).toList

/-- Of each accepted content the state remembers a signature, and no content twice. -/
structure Protected (hmac : Hmac) (secret : JsString) (r : Receiver) : Prop where
  remembered : ∀ content ∈ r.accepted, ∃ header ∈ r.state.acceptedSignatures,
    bytesOfHex (providedHex header) = signatureOf hmac secret content
  nodup : r.accepted.Nodup

theorem Protected.next (hr : Protected hmac secret r) (hg : OneSpelling r call) :
    Protected hmac secret (r.next hmac secret call) := by
  rcases verifyWebhookDelivery_cases hmac secret call.delivery r.state call.options call.clock with
    ⟨h, he⟩ | ⟨_, _, he⟩
  · have hsigned : bytesOfHex (providedHex call.delivery.signatureHeader) =
        signatureOf hmac secret call.delivery.content := by
      rw [h.digest]
      exact congrArg (fun m => (hmac secret m).toList) (utf8_signedText_congr h.timestamp rfl)
    simp only [Receiver.next, Receiver.verify, he, if_pos]
    constructor
    · intro content hc
      rcases List.mem_append.mp hc with hc | hc
      · obtain ⟨header, hm, hb⟩ := hr.remembered content hc
        exact ⟨header, List.mem_append_left _ hm, hb⟩
      · rw [List.mem_singleton.mp hc]
        exact ⟨_, List.mem_append_right _ (List.mem_singleton_self _), hsigned⟩
    · rw [List.nodup_append]
      refine ⟨hr.nodup, List.nodup_singleton _, fun content hc content' hc' heq => ?_⟩
      -- Its signature would be among the accepted ones, and in the one spelling it is refused.
      rw [List.mem_singleton.mp hc'] at heq
      subst heq
      obtain ⟨header, hm, hb⟩ := hr.remembered _ hc
      have hsame := hg header hm (hb.trans hsigned.symm)
      exact h.unseen (hsame ▸ hm)
  · simp only [Receiver.next, Receiver.verify, he]
    exact ⟨hr.remembered, hr.nodup⟩

end OpenWop.Webhook
