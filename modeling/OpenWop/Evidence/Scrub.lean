import OpenWop.Audit.Checkpoint
import OpenWop.Js.OwnMembers
import OpenWop.Js.Sort
import OpenWop.Js.Split
import OpenWop.Js.ToNumber

/-!
# Scrubbing evidence

The finished document goes through `scrubEvidence`, which puts a marker for every occurrence of
every secret in its strings and member names. A string that is a digest as a whole is left alone.
-/

namespace OpenWop.Evidence

open OpenWop.Js OpenWop.Audit OpenWop.Replace

section Secrets

variable (sha256 : Sha256)

/-- `redactionMarker`. -/
def redactionMarker (secret : JsString) : JsString :=
  js "«redacted:" ++ (slice (sha256Hex sha256 secret) 0 12 ++ js "»")

/-- `/^[0-9a-f]{32,}$/i`. -/
def isHexRun (s : JsString) : Bool := 32 ≤ s.length && s.all (digitValue · < 16)

/-- A letter without its case. -/
def lowerUnit (u : UInt16) : UInt16 := if 65 ≤ u ∧ u ≤ 90 then u + 32 else u

/-- `HEX_DIGEST.test(s)`. -/
def isHexDigest (s : JsString) : Bool :=
  isHexRun s || ((s.take 7).map lowerUnit = js "sha256:" && isHexRun (s.drop 7))

/-- `(a, b) => b.length - a.length`. -/
def longerFirst : Comparator JsString where
  compare a b := (b.length : Int) - a.length
  swap a b := by omega
  trans a b c := by omega

/-- `live`: every secret that is not blank, the longer ones first. -/
def liveSecrets (secrets : List JsString) : List JsString :=
  sortBy longerFirst (uniq (secrets.filter fun s => trim s ≠ []))

end Secrets

section Scrub

variable (sha256 : Sha256) (live : List JsString)

/-- One turn of the loop over the secrets: the string, and whether one was found. -/
def scrubSecret (acc : JsString × Bool) (secret : JsString) : JsString × Bool :=
  if includes acc.1 secret then
    (join (redactionMarker sha256 secret) (pieces secret 0 acc.1), true)
  else acc

/-- `scrubString`, with the paths it pushes to `redactedAt`. -/
def scrubString (path s : JsString) : JsString × List JsString :=
  if isHexDigest s = true ∧ s ∉ live then (s, [])
  else
    let (out, hit) := live.foldl (scrubSecret sha256) (s, false)
    (out, if hit then [path] else [])

mutual

/-- `walk`, with the paths it pushes to `redactedAt`. -/
def walk (path : JsString) : Json → Json × List JsString
  | .str s =>
    let (out, found) := scrubString sha256 live path s
    (.str out, found)
  | .arr items =>
    let (out, found) := walkItems path 0 items
    (.arr out, found)
  | .obj members =>
    let (out, found) := walkMembers path [] members
    (.obj out, found)
  | v => (v, [])

/-- `v.map((x, i) => walk(x, path[i]))`, from that index on. -/
def walkItems (path : JsString) (i : Nat) : List Json → List Json × List JsString
  | [] => ([], [])
  | x :: items =>
    let (item, found) := walk (path ++ (js "[" ++ (decimal i ++ js "]"))) x
    let (rest, later) := walkItems path (i + 1) items
    (item :: rest, found ++ later)

/-- The loop over `Object.entries`, with the members assigned so far. -/
def walkMembers (path : JsString) (out : Record JsString Json) :
    List (JsString × Json) → Record JsString Json × List JsString
  | [] => (out, [])
  | (k, x) :: members =>
    let (name, found) := scrubString sha256 live (path ++ (js "." ++ k)) k
    let (value, inside) := walk (path ++ (js "." ++ k)) x
    let (rest, later) := walkMembers path (assign out name value) members
    (rest, found ++ (inside ++ later))

end

/-- `ScrubResult`. -/
structure ScrubResult where
  value : Json
  redactedAt : List JsString

/-- `scrubEvidence`. -/
def scrubEvidence (value : Json) (secrets : List JsString) : ScrubResult :=
  let live := liveSecrets secrets
  if live = [] then ⟨value, []⟩
  else
    let (value, redactedAt) := walk sha256 live (js "$") value
    ⟨value, redactedAt⟩

end Scrub

end OpenWop.Evidence
