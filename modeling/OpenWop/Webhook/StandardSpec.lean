import OpenWop.Webhook.Standard

/-!
# What a Standard Webhooks verification accepts

A delivery whose headers are there, well-formed and fresh is compared entry by entry; every other
delivery is turned down before a secret is read. Only a compared delivery can meet the exception of
the signer, and one entry that decodes to the HMAC is enough, whatever stands beside it.
-/

namespace OpenWop.Webhook

open OpenWop.Js

section Entries

theorem v1Text_append {front rest : JsString} (h : unit ',' ∉ front) :
    v1Text (front ++ unit ',' :: rest) = if front = js "v1" then some rest else none := by
  have hindex : indexOf (front ++ unit ',' :: rest) (js ",") = some front.length :=
    indexOf_append h
  have hrest : (front ++ unit ',' :: rest).drop (front.length + 1) = rest := by
    rw [List.drop_append, List.drop_eq_nil_of_le (by omega), Nat.add_sub_cancel_left]
    rfl
  rw [v1Text, hindex]
  change (if (front ++ unit ',' :: rest).take front.length = js "v1" then some _ else none) = _
  rw [List.take_left, hrest]

theorem v1Text_of_not_mem {entry : JsString} (h : unit ',' ∉ entry) : v1Text entry = none := by
  have hindex : indexOf entry (js ",") = none := indexOf_of_not_mem h
  rw [v1Text, hindex]

/-- The entries with a text for `v1` are those that start with `v1,`. -/
theorem v1Text_eq_some_iff {entry text : JsString} :
    v1Text entry = some text ↔ entry = js "v1," ++ text := by
  have hv1 : js "v1," ++ text = js "v1" ++ unit ',' :: text := rfl
  have hcomma : unit ',' ∉ js "v1" := by decide
  by_cases h : unit ',' ∈ entry
  · obtain ⟨front, rest, rfl, hfront⟩ := List.eq_append_cons_of_mem h
    rw [v1Text_append hfront, hv1]
    constructor
    · intro hsome
      obtain ⟨rfl, htext⟩ := Option.ite_none_right_eq_some.mp hsome
      rw [Option.some.inj htext]
    · intro heq
      have hsplit := congrArg (fun s => splitOn s (unit ',')) heq
      simp only [splitOn_append hfront, splitOn_append hcomma, List.cons.injEq] at hsplit
      obtain ⟨rfl, -⟩ := hsplit
      rw [if_pos rfl, (List.cons.inj (List.append_cancel_left heq)).2]
  · rw [v1Text_of_not_mem h]
    refine iff_of_false (Option.some_ne_none text).symm fun heq => h ?_
    rw [heq, hv1]
    exact List.mem_append_right _ (List.mem_cons_self ..)

theorem entryMatches_iff {expected : List UInt8} {entry : JsString} :
    entryMatches expected entry = true ↔
      ∃ text, entry = js "v1," ++ text ∧ bytesOfBase64 text = expected := by
  simp only [← v1Text_eq_some_iff]
  unfold entryMatches
  cases v1Text entry with
  | none => simp
  | some text => simp

end Entries

section Compared

/-- The delivery is compared: its headers are there, its id is not empty and has no point, its
timestamp has digits only and is fresh. -/
structure Compared (headers : HeaderBag) (options : StandardOptions) (clock : JsNumber)
    (id ts sig : JsString) : Prop where
  idHeader : header headers (js "webhook-id") = some id
  timestampHeader : header headers (js "webhook-timestamp") = some ts
  signatureHeader : header headers (js "webhook-signature") = some sig
  undotted : unit '.' ∉ id
  nonempty : id ≠ []
  digits : isDigitText ts = true
  fresh : outOfTolerance options clock ts = false

variable (hmac : KeyedHmac) (rawBody : RawBody) (secret : JsString) {headers : HeaderBag}
  {options : StandardOptions} {clock : JsNumber}

/-- The headers of a delivery determine what is compared. -/
theorem Compared.unique {id ts sig id' ts' sig' : JsString}
    (h : Compared headers options clock id ts sig)
    (h' : Compared headers options clock id' ts' sig') : id = id' ∧ ts = ts' ∧ sig = sig' :=
  ⟨Option.some.inj (h.idHeader.symm.trans h'.idHeader),
    Option.some.inj (h.timestampHeader.symm.trans h'.timestampHeader),
    Option.some.inj (h.signatureHeader.symm.trans h'.signatureHeader)⟩

/-- A compared delivery is signed again and its entries counted. -/
theorem verify_of_compared {id ts sig : JsString} (h : Compared headers options clock id ts sig) :
    verifyStandardWebhooks hmac rawBody headers secret options clock = do
      let signature ← standardWebhooksSign hmac secret id (.text ts) rawBody
      let entries := (splitOn sig (unit ' ')).filter (· ≠ [])
      let matched := (entries.filter (entryMatches (bytesOfBase64 (signature.drop 3)))).length
      if 0 < matched then return ⟨true, none, entries, matched⟩
      else return ⟨false, some .noMatchingSignature, entries, matched⟩ := by
  have hid : (includes id (js ".") || decide (id = [])) = false := by
    rw [Bool.or_eq_false_iff, decide_eq_false_iff_not, ← Bool.not_eq_true]
    exact ⟨fun hdot => h.undotted (includes_singleton.mp hdot), h.nonempty⟩
  unfold verifyStandardWebhooks
  rw [h.idHeader, h.timestampHeader, h.signatureHeader]
  simp only [hid, h.digits, h.fresh, Bool.false_eq_true, if_false, Bool.not_true]

/-- A delivery that is not compared is turned down. -/
theorem verify_of_not_compared (h : ∀ id ts sig, ¬ Compared headers options clock id ts sig) :
    ∃ verdict, verifyStandardWebhooks hmac rawBody headers secret options clock = .ok verdict ∧
      verdict.accepted = false := by
  unfold verifyStandardWebhooks
  split
  · next id ts sig hid hts hsig =>
    split
    · exact ⟨_, rfl, rfl⟩
    · next hwell =>
      split
      · exact ⟨_, rfl, rfl⟩
      · next hdigits =>
        split
        · exact ⟨_, rfl, rfl⟩
        · next hfresh =>
          rw [Bool.or_eq_true, not_or, decide_eq_true_eq] at hwell
          refine absurd ⟨hid, hts, hsig, ?_, hwell.2, ?_, ?_⟩ (h id ts sig)
          · exact fun hdot => hwell.1 (includes_singleton.mpr hdot)
          · simpa using hdigits
          · simpa using hfresh
  · exact ⟨_, rfl, rfl⟩

end Compared

section Verdicts

variable (hmac : KeyedHmac) (rawBody : RawBody) {headers : HeaderBag} {secret : JsString}
  {options : StandardOptions} {clock : JsNumber}

theorem sign_of_decodeWhsec {key : List UInt8} (h : decodeWhsec secret = some key)
    (id : JsString) (timestamp : SignedTimestamp) :
    standardWebhooksSign hmac secret id timestamp rawBody = .ok (js "v1," ++
      base64Text (hmac key (standardContent id timestamp.string rawBody)).toList) := by
  rw [standardWebhooksSign, h]

theorem sign_of_not_whsec (h : decodeWhsec secret = none) (id : JsString)
    (timestamp : SignedTimestamp) :
    standardWebhooksSign hmac secret id timestamp rawBody = .error notWhsec := by
  rw [standardWebhooksSign, h]

/-- Some entry of the list is read as the HMAC. -/
def Signed (hmac : KeyedHmac) (key : List UInt8) (rawBody : RawBody) (id ts sig : JsString) :
    Prop :=
  ∃ text, js "v1," ++ text ∈ splitOn sig (unit ' ') ∧
    bytesOfBase64 text = (hmac key (standardContent id ts rawBody)).toList

/-- Under a secret that decodes, a compared delivery is accepted exactly where it is signed. -/
theorem verify_compared_iff {id ts sig : JsString} {key : List UInt8}
    (h : Compared headers options clock id ts sig) (hkey : decodeWhsec secret = some key) :
    ∃ verdict, verifyStandardWebhooks hmac rawBody headers secret options clock = .ok verdict ∧
      (verdict.accepted = true ↔ Signed hmac key rawBody id ts sig) := by
  let expected := (hmac key (standardContent id ts rawBody)).toList
  let entries := (splitOn sig (unit ' ')).filter (· ≠ [])
  have hexpected : bytesOfBase64 ((js "v1," ++ base64Text expected).drop 3) = expected :=
    bytesOfBase64_base64Text expected
  have hmatched : 0 < (entries.filter (entryMatches expected)).length ↔
      Signed hmac key rawBody id ts sig := by
    rw [List.length_pos_iff_exists_mem]
    simp only [List.mem_filter, entryMatches_iff, entries]
    constructor
    · rintro ⟨entry, ⟨hmem, -⟩, text, rfl, htext⟩
      exact ⟨text, hmem, htext⟩
    · rintro ⟨text, hmem, htext⟩
      have hne : js "v1," ++ text ≠ [] := List.append_ne_nil_of_left_ne_nil (by decide) text
      exact ⟨_, ⟨hmem, decide_eq_true hne⟩, text, rfl, htext⟩
  rw [verify_of_compared hmac rawBody secret h, sign_of_decodeWhsec hmac rawBody hkey]
  change ∃ verdict, (if 0 < (entries.filter (entryMatches (bytesOfBase64
    ((js "v1," ++ base64Text expected).drop 3)))).length then Except.ok _ else Except.ok _) =
      .ok verdict ∧ _
  rw [hexpected]
  split
  · next hpos => exact ⟨_, rfl, iff_of_true rfl (hmatched.mp hpos)⟩
  · next hzero => exact ⟨_, rfl, iff_of_false Bool.false_ne_true fun hs => hzero (hmatched.mpr hs)⟩

/-- It throws exactly where a compared delivery meets a secret that does not decode. -/
theorem verify_eq_error_iff {message : JsString} :
    verifyStandardWebhooks hmac rawBody headers secret options clock = .error message ↔
      message = notWhsec ∧ decodeWhsec secret = none ∧
        ∃ id ts sig, Compared headers options clock id ts sig := by
  by_cases h : ∃ id ts sig, Compared headers options clock id ts sig
  · obtain ⟨id, ts, sig, h⟩ := h
    cases hkey : decodeWhsec secret with
    | none =>
      rw [verify_of_compared hmac rawBody secret h, sign_of_not_whsec hmac rawBody hkey]
      change Except.error notWhsec = Except.error message ↔ _
      rw [Except.error.injEq]
      exact ⟨fun heq => ⟨heq.symm, rfl, id, ts, sig, h⟩, fun heq => heq.1.symm⟩
    | some key =>
      obtain ⟨verdict, hok, -⟩ := verify_compared_iff hmac rawBody h hkey
      rw [hok]
      simp
  · obtain ⟨verdict, hok, -⟩ := verify_of_not_compared hmac rawBody secret
      fun id ts sig hc => h ⟨id, ts, sig, hc⟩
    rw [hok]
    exact iff_of_false (by simp) fun heq => h heq.2.2

/-- Under a secret that decodes there is a verdict, and it accepts exactly the deliveries that are
compared and signed. -/
theorem verify_iff {key : List UInt8} (hkey : decodeWhsec secret = some key) :
    ∃ verdict, verifyStandardWebhooks hmac rawBody headers secret options clock = .ok verdict ∧
      (verdict.accepted = true ↔ ∃ id ts sig, Compared headers options clock id ts sig ∧
        Signed hmac key rawBody id ts sig) := by
  by_cases h : ∃ id ts sig, Compared headers options clock id ts sig
  · obtain ⟨id, ts, sig, h⟩ := h
    obtain ⟨verdict, hok, hiff⟩ := verify_compared_iff hmac rawBody h hkey
    refine ⟨verdict, hok, hiff.trans ⟨fun hs => ⟨id, ts, sig, h, hs⟩, ?_⟩⟩
    rintro ⟨id', ts', sig', h', hs⟩
    obtain ⟨rfl, rfl, rfl⟩ := h.unique h'
    exact hs
  · obtain ⟨verdict, hok, hno⟩ := verify_of_not_compared hmac rawBody secret
      fun id ts sig hc => h ⟨id, ts, sig, hc⟩
    refine ⟨verdict, hok, iff_of_false (by simp [hno]) ?_⟩
    rintro ⟨id, ts, sig, hc, -⟩
    exact h ⟨id, ts, sig, hc⟩

end Verdicts

section Signer

variable {hmac : KeyedHmac} {rawBody : RawBody} {secret : JsString}
  {options : StandardOptions} {clock : JsNumber}

/-- The three headers a sender sets. -/
def signedHeaders (id ts sig : JsString) : HeaderBag :=
  [(js "webhook-id", some (.one id)), (js "webhook-timestamp", some (.one ts)),
    (js "webhook-signature", some (.one sig))]

theorem header_signedHeaders (id ts sig : JsString) :
    header (signedHeaders id ts sig) (js "webhook-id") = some id ∧
      header (signedHeaders id ts sig) (js "webhook-timestamp") = some ts ∧
      header (signedHeaders id ts sig) (js "webhook-signature") = some sig := ⟨rfl, rfl, rfl⟩

theorem signed_of_sign {key : List UInt8} (id ts : JsString) :
    Signed hmac key rawBody id ts (js "v1," ++
      base64Text (hmac key (standardContent id ts rawBody)).toList) := by
  have hspace : unit ' ' ∉ js "v1," ++
      base64Text (hmac key (standardContent id ts rawBody)).toList := by
    rw [List.mem_append, not_or]
    exact ⟨by decide, space_not_mem_base64Text _⟩
  rw [Signed, splitOn_of_not_mem hspace]
  exact ⟨_, List.mem_singleton_self _, bytesOfBase64_base64Text _⟩

/-- What the signer makes of a well-formed id and a fresh timestamp of digits is accepted. -/
theorem verify_sign {id entry : JsString} {timestamp : SignedTimestamp}
    (hsign : standardWebhooksSign hmac secret id timestamp rawBody = .ok entry)
    (hid : id ≠ [] ∧ unit '.' ∉ id) (hdigits : isDigitText timestamp.string = true)
    (hfresh : outOfTolerance options clock timestamp.string = false) :
    ∃ verdict, verifyStandardWebhooks hmac rawBody (signedHeaders id timestamp.string entry) secret
      options clock = .ok verdict ∧ verdict.accepted = true := by
  obtain ⟨hidHeader, htsHeader, hsigHeader⟩ := header_signedHeaders id timestamp.string entry
  cases hkey : decodeWhsec secret with
  | none =>
    rw [sign_of_not_whsec hmac rawBody hkey] at hsign
    exact absurd hsign (by simp)
  | some key =>
    rw [sign_of_decodeWhsec hmac rawBody hkey, Except.ok.injEq] at hsign
    subst hsign
    obtain ⟨verdict, hok, hiff⟩ := verify_compared_iff hmac rawBody
      ⟨hidHeader, htsHeader, hsigHeader, hid.2, hid.1, hdigits, hfresh⟩ hkey
    exact ⟨verdict, hok, hiff.mpr (signed_of_sign id timestamp.string)⟩

end Signer

/-- A verification throws only for a secret that does not decode, where the delivery has come to
the comparison. Under any other secret it accepts exactly what is compared and signed, and what the
signer makes of a well-formed id and a fresh timestamp of digits is. -/
theorem verifyStandardWebhooks_spec (hmac : KeyedHmac) (rawBody : RawBody) (headers : HeaderBag)
    (secret : JsString) (options : StandardOptions) (clock : JsNumber) :
    (∀ message, verifyStandardWebhooks hmac rawBody headers secret options clock = .error message ↔
      message = notWhsec ∧ decodeWhsec secret = none ∧
        ∃ id ts sig, Compared headers options clock id ts sig) ∧
    (∀ key, decodeWhsec secret = some key →
      ∃ verdict, verifyStandardWebhooks hmac rawBody headers secret options clock = .ok verdict ∧
        (verdict.accepted = true ↔ ∃ id ts sig, Compared headers options clock id ts sig ∧
          Signed hmac key rawBody id ts sig)) ∧
    (∀ id entry timestamp, standardWebhooksSign hmac secret id timestamp rawBody = .ok entry →
      id ≠ [] → unit '.' ∉ id → isDigitText timestamp.string = true →
      outOfTolerance options clock timestamp.string = false →
      ∃ verdict, verifyStandardWebhooks hmac rawBody (signedHeaders id timestamp.string entry)
        secret options clock = .ok verdict ∧ verdict.accepted = true) :=
  ⟨fun _ => verify_eq_error_iff hmac rawBody, fun _ hkey => verify_iff hmac rawBody hkey,
    fun _ _ _ hsign hne hdot hdigits hfresh => verify_sign hsign ⟨hne, hdot⟩ hdigits hfresh⟩

/-- 24 zero bytes. -/
def zeroWhsec : JsString := js "whsec_AAAAAAAAAAAAAAAAAAAAAAAAAAAAAAAA"

/-- The HMAC of `a.0.x` under 24 zero bytes. -/
def plainHmac : KeyedHmac := fun _ _ =>
  ⟨#[71, 189, 205, 223, 246, 38, 200, 216, 194, 89, 159, 164, 116, 111, 216, 234, 110, 197, 59,
    155, 35, 254, 228, 5, 20, 247, 219, 17, 190, 117, 163, 83], rfl⟩

/-- The signer's entry for the id `a` at the timestamp 0. -/
theorem verifyStandardWebhooks_plain :
    ∃ verdict, verifyStandardWebhooks plainHmac (.text (js "x")) (signedHeaders (js "a") (js "0")
        (js "v1,R73N3/YmyNjCWZ+kdG/Y6m7FO5sj/uQFFPfbEb51o1M=")) zeroWhsec ⟨none, none⟩ (.ofNat 0) =
      .ok verdict ∧ verdict.accepted = true :=
  (verifyStandardWebhooks_spec plainHmac (.text (js "x")) [] zeroWhsec ⟨none, none⟩ (.ofNat 0)).2.2
    (js "a") _ (.text (js "0")) (by decide) (by decide) (by decide) (by decide) (by decide +kernel)

/-- The HMAC of `a.b.0.x` under 24 zero bytes. -/
def dottedHmac : KeyedHmac := fun _ _ =>
  ⟨#[128, 17, 226, 206, 55, 237, 208, 52, 70, 209, 20, 180, 61, 68, 144, 87, 128, 2, 78, 79, 87,
    164, 236, 137, 228, 250, 194, 107, 188, 156, 33, 67], rfl⟩

/-- A fresh delivery under the secret `s` meets the exception. A signed one with the id `a.b` is
turned down. -/
theorem otherSecret_throws_dottedId_rejected :
    verifyStandardWebhooks dottedHmac (.text (js "x")) (signedHeaders (js "a") (js "0") (js "v1,"))
      (js "s") ⟨none, none⟩ (.ofNat 0) = .error notWhsec ∧
    standardWebhooksSign dottedHmac zeroWhsec (js "a.b") (.text (js "0")) (.text (js "x")) =
      .ok (js "v1,gBHizjft0DRG0RS0PUSQV4ACTk9XpOyJ5PrCa7ycIUM=") ∧
    verifyStandardWebhooks dottedHmac (.text (js "x")) (signedHeaders (js "a.b") (js "0")
        (js "v1,gBHizjft0DRG0RS0PUSQV4ACTk9XpOyJ5PrCa7ycIUM=")) zeroWhsec ⟨none, none⟩ (.ofNat 0) =
      .ok ⟨false, some .malformedId, [js "v1,gBHizjft0DRG0RS0PUSQV4ACTk9XpOyJ5PrCa7ycIUM="],
        0⟩ := by
  refine ⟨?_, ?_, ?_⟩
  · exact (verify_eq_error_iff ..).mpr ⟨rfl, by decide, js "a", js "0", js "v1,",
      ⟨rfl, rfl, rfl, by decide, by decide, by decide, by decide +kernel⟩⟩
  · decide
  · rfl

end OpenWop.Webhook
