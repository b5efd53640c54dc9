import OpenWop.Bundle.Pairing
import OpenWop.Codemods.Walk
import OpenWop.Content.Locales
import OpenWop.Otlp.Collector

/-!
# A pack manifest toward v2

The codemod names the kind, checks the ceiling of the protocol range, relabels the signature and
files the peer dependencies under their declaration-file keys. An entry of `peerDependenciesMeta`
moves with its key.
-/

namespace OpenWop.Codemods.PackManifest

open OpenWop.Js OpenWop.Eval OpenWop.Content OpenWop.Codemods

section Tables

/-- `id`. -/
def codemodId : JsString := js "openwop.codemod.pack-manifest-v2"

/-- A row of the alias table. An undefined family is the property `undefined`. -/
structure Alias where
  family : JsString
  facets : Option (List JsString)
  deriving DecidableEq, Repr

/-- `ALIASES`. -/
def aliases : Record JsString Alias :=
  [(js "host.fs", ⟨js "fs", none⟩),
   (js "host.queueBus", ⟨js "queueBus", none⟩),
   (js "openwop.agents.memoryBackends", ⟨js "agents", some [js "memoryBackends"]⟩),
   (js "host.workspace", ⟨js "workspace", none⟩),
   (js "host.aiEnvelope.await", ⟨js "aiEnvelope", some [js "await"]⟩),
   (js "aiProviders.imageGeneration", ⟨js "aiProviders", some [js "imageGeneration"]⟩),
   (js "aiProviders.videoGeneration", ⟨js "aiProviders", some [js "videoGeneration"]⟩)]

/-- The name of a member that every object inherits. -/
def isInherited (k : JsString) : Bool := k = proto || inheritedFunctions.contains k

/-- `ALIASES[k]`; an inherited member has neither a family nor facets. -/
def aliasOf? (k : JsString) : Option Alias :=
  (Record.get? aliases k).or (if isInherited k then some ⟨js "undefined", none⟩ else none)

/-- `[a-z][A-Za-z0-9]*`. -/
def isSegment : JsString → Bool
  | [] => false
  | u :: rest => isLower u && rest.all fun v => isLower v || isUpper v || isDigit v

/-- `KEY.test(k)`. -/
def isKey (k : JsString) : Bool :=
  !startsWith k (js "host.") && !startsWith k (js "openwop.") &&
    match splitOn k (unit '.') with
    | [a] => isSegment a
    | [a, b] => isSegment a && isSegment b
    | _ => false

/-- What is left behind at most that many `\.\d+`. -/
def dropParts : ℕ → JsString → JsString
  | n + 1, u :: v :: rest =>
    if u = unit '.' && isDigit v then dropParts n (rest.dropWhile isDigit) else u :: v :: rest
  | _, s => s

/-- `RANGE.exec(s)?.[2]`: `^>=\s*(\d+)(?:\.\d+){0,2}\s+<\s*(\d+)\.0\.0$`. -/
def ceiling? (s : JsString) : Option JsString :=
  let floor := (s.drop 2).dropWhile isTrimmed
  let gap := dropParts 2 (floor.dropWhile isDigit)
  let bound := gap.dropWhile isTrimmed
  let major := (bound.drop 1).dropWhile isTrimmed
  if startsWith s (js ">=") && floor.takeWhile isDigit ≠ [] && gap.takeWhile isTrimmed ≠ [] &&
      startsWith bound (js "<") && major.takeWhile isDigit ≠ [] &&
      major.dropWhile isDigit = js ".0.0" then
    some (major.takeWhile isDigit)
  else none

end Tables

section Steps

/-- `refuse(msg)`. -/
def refuse {α : Type} (msg : JsString) : Except Thrown α :=
  .error (.error (codemodId ++ js ": " ++ msg ++ js "; refusing"))

/-- `if (!('kind' in out)) out.kind = 'node'`. -/
def withKind (out : Record JsString Json) : Record JsString Json :=
  if (Record.get? out (js "kind")).isSome then out
  else Record.set out (js "kind") (.str (js "node"))

/-- The author declares the ceiling; the codemod checks it. -/
def checkCeiling (out : Record JsString Json) : Except Thrown Unit :=
  match Json.read? (Record.get? out (js "engines")) (js "openwop") with
  | some (.str range) =>
    match ceiling? (trim range) with
    | none =>
      refuse (js "\x60engines.openwop\x60 \"" ++ range ++
        js "\" has no explicit upper bound or is not \x60>=x[.y[.z]] <M.0.0\x60")
    | some major =>
      if JsNumber.le (stringToNumber major) (.ofNat 2) then
        refuse (js "\x60engines.openwop\x60 \"" ++ range ++
          js "\" does not admit protocol major 2 — the author must declare v2 compatibility")
      else .ok ()
  | _ => refuse (js "\x60engines.openwop\x60 is missing")

/-- The one v2 scheme. -/
def canonicalScheme : Json := .str (js "ed25519-canonical-json")

/-- `publicKeyRef` becomes `keyId`. -/
def withKeyId (s : Record JsString Json) : Except Thrown (Record JsString Json) :=
  match Record.get? s (js "publicKeyRef") with
  | none => .ok s
  | some ref =>
    let keyId := Record.get? s (js "keyId")
    if keyId.isSome && !Bundle.strictEquals keyId (some ref) then
      refuse (js "\x60signing.keyId\x60 and \x60signing.publicKeyRef\x60 disagree")
    else .ok (Record.erase (Record.set s (js "keyId") ref) (js "publicKeyRef"))

/-- `method` becomes `scheme`. -/
def withScheme (s : Record JsString Json) : Except Thrown (Record JsString Json) :=
  match Record.get? s (js "method") with
  | some method =>
    if method = .str (js "ed25519") then
      refuse (js "\x60signing.method: ed25519\x60 signs tarball bytes — re-sign under " ++
        js "\x60ed25519-canonical-json\x60")
    else if method = .str (js "sigstore") then
      refuse (js "\x60signing.method: sigstore\x60 has no v2 scheme — re-sign")
    else if method ≠ .str (js "manual") then
      refuse (js "unknown \x60signing.method\x60 \"" ++ method.text ++ js "\"")
    else .ok (Record.set (Record.erase s (js "method")) (js "scheme") canonicalScheme)
  | none =>
    if Record.get? s (js "scheme") ≠ some canonicalScheme then
      refuse (js "\x60signing\x60 names neither \x60method\x60 nor the v2 \x60scheme\x60")
    else .ok s

/-- The signature block, where it is an object. -/
def withSigning (out : Record JsString Json) : Except Thrown (Record JsString Json) :=
  match Record.get? out (js "signing") with
  | some v =>
    if Json.isObject (some v) then do
      let s ← withKeyId (spread (.json v))
      let s ← withScheme s
      return Record.set out (js "signing") (.obj s)
    else .ok out
  | none => .ok out

end Steps

section Peers

/-- The filed peers and their meta entries. -/
structure Filed where
  peers : Record JsString Json
  entries : Record JsString Json

/-- `seen.add(v)`: two objects are never one, and both zeros are `0`. -/
def addItem (seen : List Json) : Json → List Json
  | .num n => if .num n.unsigned ∈ seen then seen else seen ++ [.num n.unsigned]
  | v => if v ∈ seen ∧ ¬ Json.isObject (some v) then seen else seen ++ [v]

/-- `[...new Set(items)]`. -/
def distinct (items : List Json) : List Json := items.foldl addItem []

/-- The value as it is read. -/
def accessed (v : Option Json) : Accessed := v.elim .undefined .json

/-- The family lists the facets its alias names. -/
def withFacets (entries : Record JsString Json) (family : JsString) (facets : List JsString) :
    Except Thrown (Record JsString Json) :=
  let entry := Record.get? entries family
  match Otlp.iterateOrEmpty (Json.read? entry (js "facets")) with
  | none => .error (.typeError (js "not iterable")) -- the wording is the engine's
  | some had =>
    .ok (Record.set entries family (.obj (Record.set (spread (accessed entry)) (js "facets")
      (.arr (distinct (had ++ facets.map .str))))))

/-- The entry of the alias moves to its family. Assigning the others to themselves changes
nothing. -/
def moveEntry (entries : Record JsString Json) (family k : JsString) : Record JsString Json :=
  match (Accessed.json (.obj entries)).access k with
  | none => entries
  | some old =>
    Record.erase (Record.set entries family
      (.obj (merged (spread old) (accessed (Record.get? entries family))))) k

/-- What an alias makes of the entries. -/
def fileEntry (entries : Record JsString Json) (k : JsString) (a : Alias) :
    Except Thrown (Record JsString Json) :=
  match a.facets with
  | none => .ok (moveEntry entries a.family k)
  | some facets => (withFacets entries a.family facets).map fun out => moveEntry out a.family k

/-- One peer dependency is filed. -/
def filePeer (st : Filed) (m : JsString × Json) : Except Thrown Filed :=
  match aliasOf? m.1 with
  | some a =>
    let had := Record.get? st.peers a.family
    let range := if Json.isNullish had then m.2 else had.getD m.2
    (fileEntry st.entries m.1 a).map (Filed.mk (Record.set st.peers a.family range))
  | none =>
    if isKey m.1 then .ok { st with peers := Record.set st.peers m.1 m.2 }
    else refuse (js "peer dependency \"" ++ m.1 ++
      js "\" is neither a declaration-file key nor an alias-table row")

/-- The peers are filed in their order. -/
def filePeers : Filed → List (JsString × Json) → Except Thrown Filed
  | st, [] => .ok st
  | st, m :: ms => filePeer st m >>= fun st => filePeers st ms

/-- The peer dependencies, where they are an object. -/
def withPeers (out : Record JsString Json) : Except Thrown (Record JsString Json) :=
  match Record.get? out (js "peerDependencies") with
  | some v =>
    if Json.isObject (some v) then do
      let entries := spread (accessed (Record.get? out (js "peerDependenciesMeta")))
      let st ← filePeers ⟨[], entries⟩ (spread (.json v))
      let out := Record.set out (js "peerDependencies") (.obj st.peers)
      if st.entries.isEmpty then return out
      else return Record.set out (js "peerDependenciesMeta") (.obj st.entries)
    else .ok out
  | none => .ok out

end Peers

/-- `transform(doc)`. -/
def transform : Json → Except Thrown Json
  | .obj doc => do
    let out := withKind doc
    checkCeiling out
    let out ← withSigning out
    let out ← withPeers out
    return .obj out
  | _ => .error (.typeError (codemodId ++ js ": input must be a manifest object"))

end OpenWop.Codemods.PackManifest
