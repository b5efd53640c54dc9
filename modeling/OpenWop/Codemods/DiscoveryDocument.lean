import OpenWop.Bundle.Digest
import OpenWop.Codemods.Walk
import OpenWop.Content.Locales
import OpenWop.Js.Writes

/-!
# A discovery document toward v2

The codemod drops or promotes the dotted mirrors of root members, rewrites the members whose v2
form differs, each by itself, and moves the extension families to the extensions of the vendor.
-/

namespace OpenWop.Codemods.DiscoveryDocument

open OpenWop.Js OpenWop.Eval OpenWop.Content OpenWop.Codemods

section Values

/-- `id`. -/
def codemodId : JsString := js "openwop.codemod.discovery-document-v2"

/-- `EXTENSION_FAMILIES`. -/
def extensionFamilies : List JsString :=
  [js "brand", js "canvas", js "chat", js "coordination", js "dataIntegration", js "entities",
    js "kanban", js "knowledge", js "launchStudio", js "messaging", js "webResearch"]

/-- An own member is created, also one named `__proto__`. -/
def define {V : Type} (out : Record JsString V) (name : JsString) (value : V) : Record JsString V :=
  if name ∈ Record.keys out then Record.set out name value
  else out.takeWhile (fun m => listedBefore name m.1) ++
    (name, value) :: out.dropWhile fun m => listedBefore name m.1

/-- `Object.fromEntries(entries)`. -/
def fromEntries {V : Type} (entries : List (JsString × V)) : Record JsString V :=
  entries.foldl (fun out m => define out m.1 m.2) []

mutual

/-- `sort(v)`. -/
def sort : Json → Json
  | .arr items => .arr (sortItems items)
  | .obj members =>
    .obj (fromEntries (sortBy (codeUnitOrder.on Prod.fst) (sortMembers members)))
  | v => v

/-- The sorted items. -/
def sortItems : List Json → List Json
  | [] => []
  | v :: vs => sort v :: sortItems vs

/-- The members with sorted values. -/
def sortMembers : List (JsString × Json) → List (JsString × Json)
  | [] => []
  | (k, v) :: ms => (k, sort v) :: sortMembers ms

end

/-- `eq(a, b)`. -/
def eq (a b : Json) : Bool := (sort a).stringify = (sort b).stringify

/-- `eq(a, b)`, where the first value may be inherited: the prototype has no own members, and the
text of a function is undefined. -/
def eqAccessed : Accessed → Json → Bool
  | .json a, b => eq a b
  | .objectPrototype, b => eq (.obj []) b
  | _, _ => false

/-- `refuse(why)`. -/
def refuse {α : Type} (why : JsString) : Except Thrown α :=
  .error (.error (codemodId ++ js ": " ++ why ++
    js "; refusing to guess — fix the host, then re-run"))

/-- `host.` before the name. -/
def dotted (name : JsString) : JsString := js "host." ++ name

end Values

section Mirrors

/-- C2.2 at one name: a mirror of a root member is dropped, and a family that is declared by its
mirror only is promoted. -/
def mirror (out : Record JsString Json) (k : JsString) : Except Thrown (Record JsString Json) :=
  match startsWith k (js "host."), Record.get? out k with
  | true, some v =>
    let plain := k.drop 5
    match (Accessed.json (.obj out)).access plain with
    | some twin =>
      if eqAccessed twin v then .ok (Record.erase out k)
      else refuse (js "\x60" ++ k ++ js "\x60 disagrees with root \x60" ++ plain ++ js "\x60")
    | none =>
      if plain ∈ extensionFamilies then .ok out
      else .ok (Record.erase (assign out plain v) k)
  -- a name that is visited is still there
  | _, _ => .ok out

/-- The names are visited in their order. -/
def mirrors : Record JsString Json → List JsString → Except Thrown (Record JsString Json)
  | out, [] => .ok out
  | out, k :: ks => mirror out k >>= fun out => mirrors out ks

end Mirrors

section Members

/-- The member of that name, where there is one, is written anew, dropped or refused. -/
def rewriteMember (k : JsString) (rewrite : Json → Except Thrown (Option Json))
    (out : Record JsString Json) : Except Thrown (Record JsString Json) :=
  match Record.get? out k with
  | none => .ok out
  | some v => (rewrite v).map fun
    | some w => Record.set out k w
    | none => Record.erase out k

/-- C2.3 -/
def aliased : Json → Json
  | .arr items => .arr (items.map fun p =>
      if p = .str (js "openwop-core") then .str (js "openwop-discovery-core") else p)
  | v => v

/-- C2.5 -/
def withoutSubjectLinking : Json → Json
  | .obj auth => .obj (Record.erase auth (js "subjectLinking"))
  | v => v

/-- C2.6 -/
def withoutSupported (fam : JsString) (v : Json) : Except Thrown (Option Json) :=
  match v.member? (js "supported") with
  | some (.bool false) => .ok none
  | some (.bool true) =>
    match v.member? (js "protocolVersions") with
    | some (.arr (_ :: _)) => .ok (some (.obj (Record.erase (spread (.json v)) (js "supported"))))
    | _ => refuse (js "\x60" ++ fam ++
        js ".supported: true\x60 is a bare boolean with no protocolVersions[]")
  | _ => .ok (some v)

/-- C2.7 -/
def withModes (v : Json) : Except Thrown (Option Json) :=
  match v.member? (js "fork") with
  | none => .ok (some v)
  | some fork =>
    let r := spread (.json v)
    let modes := Record.get? r (js "modes")
    if fork = .bool true ∧ modes = some (.arr []) then
      refuse (js "\x60replay.fork: true\x60 contradicts an explicit empty \x60replay.modes\x60")
    else
      let r := if fork = .bool true ∧ Json.items? modes = none then
        Record.set r (js "modes") (.arr [.str (js "branch"), .str (js "replay")]) else r
      .ok (some (.obj (Record.erase r (js "fork"))))

/-- An embedded protocol with its legacy profile and version. -/
structure Legacy where
  fam : JsString
  id : JsString
  version : JsString

def a2aLegacy : Legacy := ⟨js "a2a", js "a2a-0.3-legacy", js "0.3"⟩

def mcpLegacy : Legacy := ⟨js "mcp", js "mcp-2025-06-18-legacy", js "2025-06-18"⟩

/-- The array without that text. -/
def without (s : JsString) : Json → Json
  | .arr items => .arr (items.filter (· ≠ .str s))
  | v => v

/-- The member of that name without that text, where it is an array. -/
def stripped (g : Record JsString Json) (k s : JsString) : Record JsString Json :=
  match Json.items? (Record.get? g k) with
  | some items => Record.set g k (without s (.arr items))
  | none => g

/-- C8.1 -/
def withoutLegacy (l : Legacy) (v : Json) : Except Thrown (Option Json) :=
  if Json.isObject (some v) then
    let g := spread (.json v)
    if ((Json.items? (Record.get? g (js "profiles"))).getD []).contains (.str l.id) then
      if Record.get? g (js "preferredVersion") = some (.str l.version) then
        refuse (js "\x60" ++ l.fam ++ js ".preferredVersion\x60 is the legacy version " ++ l.version ++
          js "; a host that prefers the legacy era cannot be rewritten as v2")
      else .ok (some (.obj (stripped (stripped g (js "profiles") l.id) (js "protocolVersions")
        l.version)))
    else .ok (some (.obj g))
  else .ok (some v)

end Members

section Extensions

variable (toLowerCase : JsString → JsString)

/-- `implementation.vendor.trim().toLowerCase()`; without a vendor it is empty. -/
def organization (implementation : Option Json) : JsString :=
  match Json.read? implementation (js "vendor") with
  | some (.str vendor) => if trim vendor = [] then [] else toLowerCase (trim vendor)
  | _ => []

/-- A mirror of an extension family. -/
def isMoving (k : JsString) : Bool :=
  startsWith k (js "host.") && extensionFamilies.contains (k.drop 5)

/-- The name of the family among the extensions of the vendor. -/
def extensionName (org k : JsString) : JsString := org ++ js "." ++ k.drop 5

/-- The extensions there are. -/
def extensionsOf (out : Record JsString Json) : Record JsString Json :=
  match Record.get? out (js "extensions") with
  | some v => if Json.isObject (some v) then spread (.json v) else []
  | none => []

/-- C2.8 -/
def moveExtensions (out : Record JsString Json) : Except Thrown (Record JsString Json) :=
  let moving := out.filter fun m => isMoving m.1
  if moving = [] then .ok out
  else
    let org := organization toLowerCase (Record.get? out (js "implementation"))
    if org = [] then
      refuse (js "extension-class host.* families are present but \x60implementation.vendor\x60 " ++
        js "names no org")
    else
      let ext := moving.foldl (fun ext m => Record.set ext (extensionName org m.1) m.2)
        (extensionsOf out)
      .ok (Record.set (out.filter fun m => !isMoving m.1) (js "extensions") (.obj ext))

end Extensions

/-- `delete out[k]`. -/
def dropped (_v : Json) : Except Thrown (Option Json) := .ok none

/-- The members that are written anew, in the order of the codemod. -/
def rewrites : List (JsString × (Json → Except Thrown (Option Json))) :=
  [(js "profiles", fun v => .ok (some (aliased v))),
   (js "contractProvenance", dropped),
   (js "auth", fun v => .ok (some (withoutSubjectLinking v))),
   (js "a2a", withoutSupported (js "a2a")),
   (js "mcp", withoutSupported (js "mcp")),
   (js "replay", withModes),
   (js "a2a", withoutLegacy a2aLegacy),
   (js "mcp", withoutLegacy mcpLegacy),
   (js "supportedTransports", dropped),
   (js "grpc", dropped)]

/-- The members are written anew one after the other. -/
def rewriteMembers : List (JsString × (Json → Except Thrown (Option Json))) →
    Record JsString Json → Except Thrown (Record JsString Json)
  | [], out => .ok out
  | (k, rewrite) :: rest, out => rewriteMember k rewrite out >>= rewriteMembers rest

/-- `transform(doc)`. -/
def transform (toLowerCase : JsString → JsString) : Json → Except Thrown Json
  | .obj doc => do
    let out ← mirrors doc (Record.keys doc)
    let out ← rewriteMembers rewrites out
    let out ← moveExtensions toLowerCase out
    return .obj out
  | _ => .error (.typeError (codemodId ++ js ": input must be a discovery document object"))

end OpenWop.Codemods.DiscoveryDocument
