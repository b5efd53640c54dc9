import OpenWop.Js.Base64
import OpenWop.Js.Record
import OpenWop.Webhook.Receiver

/-!
# The Standard Webhooks scheme

A delivery carries its id, its timestamp and a list of signatures. The signature of `v1` is the
HMAC over the id, the timestamp and the body under the bytes of a `whsec_` secret, in base64.
-/

namespace OpenWop.Webhook

open OpenWop.Js

/-- HMAC-SHA256 under a key. -/
abbrev KeyedHmac := List UInt8 → List UInt8 → Vector UInt8 32

section Secrets

/-- `WHSEC_PREFIX`. -/
def whsecPrefix : JsString := js "whsec_"

/-- `[A-Za-z0-9+/]`. -/
def isBase64Unit (u : UInt16) : Bool :=
  (unit 'A' ≤ u && u ≤ unit 'Z') || (unit 'a' ≤ u && u ≤ unit 'z') || isDigit u ||
    u == unit '+' || u == unit '/'

/-- `/^[A-Za-z0-9+/]+={0,2}$/`. -/
def isBase64Body (body : JsString) : Bool :=
  body.takeWhile isBase64Unit ≠ [] && body.dropWhile isBase64Unit ∈ [[], js "=", js "=="]

/-- `decodeWhsec`. -/
def decodeWhsec (secret : JsString) : Option (List UInt8) :=
  if startsWith secret whsecPrefix then
    let body := secret.drop whsecPrefix.length
    if isBase64Body body then
      let key := bytesOfBase64 body
      if 24 ≤ key.length ∧ key.length ≤ 64 then some key else none
    else none
  else none

end Secrets

section Sign

/-- The timestamp to sign, a string or a Number. -/
inductive SignedTimestamp where
  | text (s : JsString)
  | number (x : JsNumber)

/-- `String(timestamp)`. -/
def SignedTimestamp.string : SignedTimestamp → JsString
  | .text s => s
  | .number x => x.text

/-- What the HMAC is computed over. -/
def standardContent (id timestamp : JsString) (rawBody : RawBody) : List UInt8 :=
  utf8 (id ++ js "." ++ timestamp ++ js "." ++ rawBody.bodyStr)

/-- The message `standardWebhooksSign` throws. -/
def notWhsec : JsString :=
  js "standardWebhooksSign: secret is not a whsec_ secret of 24–64 bytes"

/-- `standardWebhooksSign`. -/
def standardWebhooksSign (hmac : KeyedHmac) (secret id : JsString) (timestamp : SignedTimestamp)
    (rawBody : RawBody) : Except JsString JsString :=
  match decodeWhsec secret with
  | none => .error notWhsec
  | some key => .ok (js "v1," ++
      base64Text (hmac key (standardContent id timestamp.string rawBody)).toList)

end Sign

section Headers

/-- A header's value: one line or several. -/
inductive HeaderValue where
  | one (s : JsString)
  | many (values : List JsString)

/-- `HeaderBag`, `none` where the value is `undefined`. -/
abbrev HeaderBag := Record JsString (Option HeaderValue)

/-- A unit of `toLowerCase`, as far as a comparison with an ASCII name can tell. U+212A is the one
unit outside ASCII with a lower case inside. -/
def lowerHeaderUnit (u : UInt16) : UInt16 :=
  if unit 'A' ≤ u ∧ u ≤ unit 'Z' then u + 32 else if u = 0x212a then unit 'k' else u

def HeaderValue.text : HeaderValue → JsString
  | .one s => s
  | .many values => join (js ", ") values

/-- `header`: the first entry of the name counts, also where it is `undefined`. -/
def header (headers : HeaderBag) (name : JsString) : Option JsString :=
  match headers.find? fun entry => entry.1.map lowerHeaderUnit = name.map lowerHeaderUnit with
  | some (_, value) => value.map HeaderValue.text
  | none => none

end Headers

section Verify

inductive StandardWebhooksRejection where
  | missingHeaders
  | malformedId
  | malformedTimestamp
  | timestampOutOfTolerance
  | noMatchingSignature
  deriving DecidableEq, Repr

structure StandardWebhooksVerdict where
  accepted : Bool
  reason : Option StandardWebhooksRejection
  entries : List JsString
  matched : Nat
  deriving DecidableEq, Repr

structure StandardOptions where
  toleranceSeconds : Option JsNumber
  nowSeconds : Option JsNumber

/-- `/^\d+$/.test(ts)`. -/
def isDigitText (ts : JsString) : Bool := ts ≠ [] && ts.all isDigit

/-- The distance of the timestamp from the clock exceeds the tolerance. -/
def outOfTolerance (options : StandardOptions) (clock : JsNumber) (ts : JsString) : Bool :=
  let tolerance := options.toleranceSeconds.getD defaultFreshnessWindowSeconds
  let now := options.nowSeconds.getD clock
  tolerance.lt (now.sub (stringToNumber ts)).abs

/-- What follows the first comma of an entry, where `v1` stands before it. -/
def v1Text (entry : JsString) : Option JsString :=
  match indexOf entry (js ",") with
  | some comma => if entry.take comma = js "v1" then some (entry.drop (comma + 1)) else none
  | none => none

/-- The entry's text is read as the expected bytes. -/
def entryMatches (expected : List UInt8) (entry : JsString) : Bool :=
  match v1Text entry with
  | some text => bytesOfBase64 text = expected
  | none => false

/-- `verifyStandardWebhooks`. The clock reads `Math.floor(Date.now() / 1000)`. -/
def verifyStandardWebhooks (hmac : KeyedHmac) (rawBody : RawBody) (headers : HeaderBag)
    (secret : JsString) (options : StandardOptions) (clock : JsNumber) :
    Except JsString StandardWebhooksVerdict :=
  match header headers (js "webhook-id"), header headers (js "webhook-timestamp"),
      header headers (js "webhook-signature") with
  | some id, some ts, some sig =>
    let entries := (splitOn sig (unit ' ')).filter (· ≠ [])
    if includes id (js ".") || id = [] then .ok ⟨false, some .malformedId, entries, 0⟩
    else if !isDigitText ts then .ok ⟨false, some .malformedTimestamp, entries, 0⟩
    else if outOfTolerance options clock ts then
      .ok ⟨false, some .timestampOutOfTolerance, entries, 0⟩
    else do
      let signature ← standardWebhooksSign hmac secret id (.text ts) rawBody
      let expected := bytesOfBase64 (signature.drop 3)
      let matched := (entries.filter (entryMatches expected)).length
      if 0 < matched then return ⟨true, none, entries, matched⟩
      else return ⟨false, some .noMatchingSignature, entries, matched⟩
  | _, _, _ => .ok ⟨false, some .missingHeaders, [], 0⟩

end Verify

end OpenWop.Webhook
