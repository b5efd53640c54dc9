import OpenWop.Webhook.Receiver

/-!
# Body integrity

Where the HMAC does not collide, deliveries with one signature are signed over the same
bytes. A body is signed as it is read, so bodies that are not UTF-8 share a signature with
others; and a timestamp of 10^21 or more has a point in its text, so the timestamp and the
body of a signed text are not always told apart.
-/

namespace OpenWop.Webhook

open OpenWop.Js

variable {hmac : Hmac} {secret : JsString} {d : Delivery} {state : WebhookReceiverState}
  {options : VerifyOptions} {clock : JsNumber}

/-- A double the timestamp check lets through. -/
structure IsDoubleTimestamp (x : JsNumber) : Prop extends IsTimestamp x where
  isDouble : ∀ d, x = .finite d → d.IsDouble

/-- The bytes the HMAC is computed over. -/
def Delivery.signedBytes (d : Delivery) : List UInt8 := utf8 (signedText d.timestamp d.rawBody)

/-- A header accepted for the delivery is accepted for no other bytes and no other timestamp,
as far as the HMAC does not collide on the two. -/
def BodyIntegrity (hmac : Hmac) (secret : JsString) (d : Delivery) : Prop :=
  ∀ d' state options clock,
    (verifyWebhookDelivery hmac secret d' state options clock).1 = .accepted →
    d'.signatureHeader = d.signatureHeader →
    (hmac secret d'.signedBytes = hmac secret d.signedBytes → d'.signedBytes = d.signedBytes) →
    d'.timestamp = d.timestamp ∧ d'.rawBody.bytes = d.rawBody.bytes

/-- What is signed is accepted where its header was not accepted before. -/
def SignedAccepted (hmac : Hmac) (secret : JsString) : Prop :=
  ∀ timestamp rawBody state options clock, IsDoubleTimestamp timestamp →
    staleness options clock timestamp = none →
    (signPayload hmac secret timestamp rawBody).signatureHeader ∉ state.acceptedSignatures →
    (verifyWebhookDelivery hmac secret (signPayload hmac secret timestamp rawBody) state options
      clock).1 = .accepted

/-- The signed text begins with the text of another timestamp and a point. -/
def Delivery.Ambiguous (d : Delivery) : Prop :=
  ∃ other, IsDoubleTimestamp other ∧ other ≠ d.timestamp ∧
    scalars (other.text ++ js ".") <+: scalars (signedText d.timestamp d.rawBody)

section Timestamps

theorem isDouble_stringToNumber {s : JsString} {e : Decimal} (h : stringToNumber s = .finite e) :
    e.IsDouble := by
  have hdecimal : ∀ b t, decimalNumber b t = .finite e → e.IsDouble := by
    intro b t ht
    unfold decimalNumber at ht
    split at ht
    · cases ht
    · dsimp only at ht
      split at ht
      · cases ht
      · generalize exponentAt _ = x at ht
        cases x with
        | none => cases ht
        | some x => exact isDouble_of_nearestNumber (by positivity) ht
  unfold stringToNumber at h
  dsimp only at h
  split at h
  · cases h
    decide +kernel
  · generalize radixLiteral _ = x at h
    cases x with
    | none => exact hdecimal _ _ h
    | some literal =>
      simp only [Option.elim, radixNumber] at h
      split at h
      · exact isDouble_of_nearestNumber (by positivity) h
      · cases h

theorem IsTimestamp.exists_finite {x : JsNumber} (h : IsTimestamp x) :
    ∃ e, x = .finite e ∧ e.negative = false ∧ e.coefficient ≠ 0 := by
  obtain ⟨hi, hp⟩ := h
  cases x with
  | nan => cases hi
  | infinity b => cases hi
  | finite e =>
    refine ⟨e, rfl, ?_⟩
    have hpos : 0 < e.value := by
      have hz : (Decimal.ofNat 0).value = 0 := by decide +kernel
      simpa [JsNumber.le, JsNumber.lt, JsNumber.ofNat, hz] using hp
    have hm := e.magnitude_nonneg
    unfold Decimal.value at hpos
    constructor
    · by_contra hn
      rw [Bool.not_eq_false] at hn
      rw [if_pos hn] at hpos
      linarith
    · intro hc
      simp [Decimal.magnitude, hc] at hpos

/-- A timestamp is read back from its text. -/
theorem IsDoubleTimestamp.stringToNumber_text {x : JsNumber} (h : IsDoubleTimestamp x) :
    stringToNumber x.text = x := by
  obtain ⟨e, rfl, hn, hc⟩ := h.exists_finite
  have he : e.unsigned = e := by rw [Decimal.unsigned, if_neg hc]
  rw [JsNumber.text, OpenWop.Js.stringToNumber_text (h.isDouble e rfl), he]

end Timestamps

theorem Accepted.isDoubleTimestamp (h : Accepted hmac secret d state options clock) :
    IsDoubleTimestamp d.timestamp where
  toIsTimestamp := h.timestamp
  isDouble _ he := isDouble_stringToNumber he

theorem signedAccepted (hmac : Hmac) (secret : JsString) : SignedAccepted hmac secret := by
  intro timestamp rawBody state options clock hts hfresh hunseen
  have hread : (signPayload hmac secret timestamp rawBody).timestamp = timestamp :=
    hts.stringToNumber_text
  have hprovided : providedHex (signPayload hmac secret timestamp rawBody).signatureHeader =
      expectedHex hmac secret timestamp rawBody := List.drop_left
  rw [accepted_iff]
  constructor
  · exact Or.inr rfl
  · exact startsWith_iff.mpr (List.prefix_append _ _)
  · rw [hprovided, expectedHex]
    exact isHexText_hexText (List.ne_nil_of_length_pos (by simp))
  · exact hunseen
  · rw [hread]
    exact hts.toIsTimestamp
  · rw [hread]
    exact hfresh
  · rw [hread, hprovided, expectedHex, bytesOfHex_hexText]
    rfl

theorem staleness_anyTime (clock timestamp : JsNumber) :
    staleness anyTime clock timestamp = none := by
  have hwindow : (JsNumber.ofNat 0).lt (JsNumber.ofNat 0) = false := by decide +kernel
  simp [staleness, anyTime, hwindow]

/-- Whoever signs the same bytes under the same header is accepted wherever no freshness is
asked for and no header was accepted before. -/
theorem Accepted.of_signedBytes (h : Accepted hmac secret d state options clock) {d' : Delivery}
    (halg : d'.algorithmHeader = none) (hheader : d'.signatureHeader = d.signatureHeader)
    (hts : IsTimestamp d'.timestamp) (hsigned : d'.signedBytes = d.signedBytes) :
    Accepted hmac secret d' createReceiverState anyTime clock where
  algorithm := Or.inl halg
  hasPrefix := hheader ▸ h.hasPrefix
  hex := hheader ▸ h.hex
  unseen h := by cases h
  timestamp := hts
  fresh := staleness_anyTime ..
  digest := by
    rw [hheader, h.digest]
    exact congrArg (fun m => (hmac secret m).toList) hsigned.symm

theorem signedBytes_eq_iff {d d' : Delivery} : d'.signedBytes = d.signedBytes ↔
    scalars (signedText d'.timestamp d'.rawBody) = scalars (signedText d.timestamp d.rawBody) :=
  ⟨flatMap_utf8EncodeChar_inj, congrArg _⟩

/-- Deliveries accepted with one header are signed over the same bytes. -/
theorem Accepted.signedBytes_eq {d' : Delivery} {state' : WebhookReceiverState}
    {options' : VerifyOptions} {clock' : JsNumber}
    (h : Accepted hmac secret d state options clock)
    (h' : Accepted hmac secret d' state' options' clock')
    (hheader : d'.signatureHeader = d.signatureHeader)
    (hmac' : hmac secret d'.signedBytes = hmac secret d.signedBytes →
      d'.signedBytes = d.signedBytes) : d'.signedBytes = d.signedBytes := by
  have hdigest : (hmac secret d'.signedBytes).toList = (hmac secret d.signedBytes).toList := by
    rw [Delivery.signedBytes, Delivery.signedBytes, ← h.digest, ← h'.digest, hheader]
  exact hmac' (Vector.toList_inj.mp hdigest)

/-- Where no other timestamp begins the signed text, and the body is UTF-8, the signed
bytes determine both. -/
theorem bodyIntegrity_of (h : Accepted hmac secret d state options clock)
    (hutf8 : replacementChar ∉ utf8Decode d.rawBody.bytes) (hts : ¬ d.Ambiguous) :
    BodyIntegrity hmac secret d := by
  intro d' state' options' clock' h' hheader hcollision
  rw [accepted_iff] at h'
  have hsame := signedBytes_eq_iff.mp (h.signedBytes_eq h' hheader hcollision)
  have htimestamp : d'.timestamp = d.timestamp := by
    by_contra hne
    refine hts ⟨_, h'.isDoubleTimestamp, hne, ?_⟩
    rw [← hsame, scalars_signedText h'.timestamp]
    exact List.prefix_append _ _
  refine ⟨htimestamp, ?_⟩
  rw [scalars_signedText h.timestamp, scalars_signedText h'.timestamp, htimestamp] at hsame
  have hread := List.append_cancel_left hsame
  rw [← flatMap_utf8Decode hutf8, ← hread, flatMap_utf8Decode (hread ▸ hutf8)]

theorem not_mem_of_bodyIntegrity (h : Accepted hmac secret d state options clock)
    (hd : BodyIntegrity hmac secret d) : replacementChar ∉ utf8Decode d.rawBody.bytes := by
  intro hmem
  -- Other bytes are read as the same text.
  obtain ⟨bytes, hne, hread⟩ := exists_utf8Decode_eq hmem d.rawBody.bytes
  let d' : Delivery := { d with algorithmHeader := none, rawBody := .buffer bytes }
  have hsigned : d'.signedBytes = d.signedBytes := by
    have hbuffer := scalars_signedText h.timestamp (.buffer bytes)
    rw [signedBytes_eq_iff, scalars_signedText h.timestamp, ← hread]
    exact hbuffer
  have h' : Accepted hmac secret d' createReceiverState anyTime clock :=
    h.of_signedBytes rfl rfl h.timestamp hsigned
  exact hne (hd d' _ _ _ (accepted_iff.mpr h') rfl fun _ => hsigned).2

theorem not_ambiguous_of_bodyIntegrity (h : Accepted hmac secret d state options clock)
    (hd : BodyIntegrity hmac secret d) : ¬ d.Ambiguous := by
  rintro ⟨other, hts, hne, rest, hrest⟩
  -- The other timestamp, with what follows its point as the body.
  let d' : Delivery := ⟨d.signatureHeader, none, other.text, .text (rest.flatMap utf16Units)⟩
  have hread : d'.timestamp = other := hts.stringToNumber_text
  have hsigned : d'.signedBytes = d.signedBytes := by
    rw [signedBytes_eq_iff, ← hrest, hread, scalars_signedText hts.toIsTimestamp, ← scalars_bodyStr,
      RawBody.bodyStr, scalars_flatMap_utf16Units]
  have h' : Accepted hmac secret d' createReceiverState anyTime clock :=
    h.of_signedBytes rfl rfl (hread ▸ hts.toIsTimestamp) hsigned
  exact hne (hread ▸ (hd d' _ _ _ (accepted_iff.mpr h') rfl fun _ => hsigned).1)

/-- The signature of an accepted delivery vouches for its bytes and its timestamp, and what is
signed is accepted, exactly if the body is UTF-8 without U+FFFD and no other timestamp begins
the signed text. -/
theorem bodyIntegrity_iff
    (h : (verifyWebhookDelivery hmac secret d state options clock).1 = .accepted) :
    BodyIntegrity hmac secret d ∧ SignedAccepted hmac secret ↔
      replacementChar ∉ utf8Decode d.rawBody.bytes ∧ ¬ d.Ambiguous := by
  rw [accepted_iff] at h
  constructor
  · rintro ⟨hd, _⟩
    exact ⟨not_mem_of_bodyIntegrity h hd, not_ambiguous_of_bodyIntegrity h hd⟩
  · rintro ⟨hutf8, hts⟩
    exact ⟨bodyIntegrity_of h hutf8 hts, signedAccepted hmac secret⟩

/-- The sample is delivered intact. -/
theorem bodyIntegrity_sample :
    BodyIntegrity sampleHmac (js "s") sampleDelivery ∧ SignedAccepted sampleHmac (js "s") ↔
      replacementChar ∉ utf8Decode sampleDelivery.rawBody.bytes ∧ ¬ sampleDelivery.Ambiguous := by
  have haccepted : (verifyWebhookDelivery sampleHmac (js "s") sampleDelivery createReceiverState
      anyTime (.ofNat 1)).1 = .accepted := by decide +kernel
  exact bodyIntegrity_iff haccepted

/-- The HMAC of `1.` and U+FFFD under the secret `s`. -/
def replacementHmac : Hmac := fun _ _ =>
  ⟨#[165, 42, 204, 100, 250, 66, 20, 214, 85, 122, 99, 209, 76, 136, 120, 149, 208, 185, 247, 74,
    10, 229, 158, 29, 101, 254, 168, 37, 169, 253, 16, 202], rfl⟩

/-- The one byte FF delivered at the timestamp 1. -/
def replacementDelivery : Delivery :=
  signPayload replacementHmac (js "s") (.ofNat 1) (.buffer [0xff])

/-- It is accepted, and its header is accepted for the bytes of U+FFFD too. -/
theorem not_bodyIntegrity_replacement :
    (verifyWebhookDelivery replacementHmac (js "s") replacementDelivery createReceiverState anyTime
      (.ofNat 1)).1 = .accepted ∧
    ¬ BodyIntegrity replacementHmac (js "s") replacementDelivery := by
  have h : (verifyWebhookDelivery replacementHmac (js "s") replacementDelivery createReceiverState
      anyTime (.ofNat 1)).1 = .accepted := by decide +kernel
  refine ⟨h, fun hd => ?_⟩
  exact absurd (not_mem_of_bodyIntegrity (accepted_iff.mp h) hd) (by decide +kernel)

end OpenWop.Webhook
