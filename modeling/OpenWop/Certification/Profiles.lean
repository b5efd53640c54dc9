import OpenWop.Js.Json

/-!
# Profiles and their floors

A profile is derived from the captured discovery document by a predicate, and it
certifies on a floor: the scenario files it requires, some of them only when the
document advertises a mode, prefix groups that any matching scenario meets, and
any-of groups that one of their members meets.
-/

namespace OpenWop.Certification

open OpenWop.Js

section Derivation

/-- `isStringArray`, with the strings. -/
def stringArray? (v : Option Json) : Option (List JsString) := do
  let items ← Json.items? v
  items.mapM fun item => match item with
    | .str s => some s
    | _ => none

/-- The string array includes that string. -/
def includesString (v : Option Json) (s : JsString) : Bool :=
  (stringArray? v).any fun strings => s ∈ strings

/-- `isNonNegativeInteger`. -/
def isNonNegativeInteger : Option Json → Bool
  | some (.num (.finite d)) => 0 ≤ d.exponent ∧ (d.negative = false ∨ d.coefficient = 0)
  | _ => false

/-- A decimal integer without leading zeros. -/
def isVersionPart (s : JsString) : Bool :=
  s = js "0" || (!s.isEmpty && s.all (fun u => 48 ≤ u && u ≤ 57) && s.head? ≠ some (unit '0'))

/-- `isCore`: the discovery document of a major-1 host. -/
def isCore (c : Json) : Bool :=
  (match c.member? (js "protocolVersion") with
    | some (.str version) =>
      match splitOn version (unit '.') with
      | [major, minor] => isVersionPart major && isVersionPart minor && major = js "1"
      | _ => false
    | _ => false) &&
  (stringArray? (c.member? (js "supportedEnvelopes"))).isSome &&
  Json.isObject (c.member? (js "schemaVersions")) &&
  Json.isObject (c.member? (js "limits")) &&
  isNonNegativeInteger (Json.read? (c.member? (js "limits")) (js "clarificationRounds")) &&
  isNonNegativeInteger (Json.read? (c.member? (js "limits")) (js "schemaRounds")) &&
  isNonNegativeInteger (Json.read? (c.member? (js "limits")) (js "envelopesPerTurn"))

/-- `isInterrupts`. -/
def isInterrupts (c : Json) : Bool :=
  isCore c && includesString (c.member? (js "supportedEnvelopes")) (js "clarification.request")

/-- The REST transport is advertised, or no transport is. -/
def restTransport (c : Json) : Bool :=
  Json.isNullish (c.member? (js "supportedTransports")) ||
    includesString (c.member? (js "supportedTransports")) (js "rest")

/-- `isStreamSse`. -/
def isStreamSse (c : Json) : Bool := isCore c && restTransport c

/-- `isStreamPoll`. -/
def isStreamPoll (c : Json) : Bool := isCore c && restTransport c

/-- `blockSupported`: the block says `supported: true`. -/
def blockSupported (v : Option Json) : Bool := Json.read? v (js "supported") = some (.bool true)

/-- `isSecrets`. -/
def isSecrets (c : Json) : Bool :=
  isCore c && blockSupported (c.member? (js "secrets")) &&
    includesString (Json.read? (c.member? (js "secrets")) (js "scopes")) (js "user")

/-- `isProviderPolicy`. -/
def isProviderPolicy (c : Json) : Bool :=
  isCore c && includesString
    (Json.read? (Json.read? (c.member? (js "aiProviders")) (js "policies")) (js "modes"))
    (js "optional")

/-- `isNodePacksDiscovery`. -/
def isNodePacksDiscovery (c : Json) : Bool := isCore c

/-- `isReplayFork`. -/
def isReplayFork (c : Json) : Bool :=
  isCore c && blockSupported (c.member? (js "replay")) &&
    (stringArray? (Json.read? (c.member? (js "replay")) (js "modes"))).any fun modes => modes ≠ []

/-- `isFixtures`. -/
def isFixtures (c : Json) : Bool :=
  isCore c && (stringArray? (c.member? (js "fixtures"))).any fun ids => ids ≠ [] && ids.all (· ≠ [])

/-- `isMemory`. -/
def isMemory (c : Json) : Bool :=
  isCore c && blockSupported (c.member? (js "memory")) &&
    Json.read? (c.member? (js "memory")) (js "writable") ≠ some (.bool false) &&
    includesString (Json.read? (c.member? (js "agents")) (js "memoryBackends")) (js "long-term")

/-- `isTriggerBridge`. -/
def isTriggerBridge (c : Json) : Bool :=
  let externalSources := (Json.items? (Json.read? (Json.read? (c.member? (js "triggerBridge"))
    (js "ingestion")) (js "externalSources"))).getD []
  let externalEmailOrForm :=
    Json.str (js "email") ∈ externalSources || Json.str (js "form") ∈ externalSources
  isCore c && blockSupported (c.member? (js "triggerBridge")) &&
    blockSupported (c.member? (js "deadLetter")) &&
    (blockSupported (c.member? (js "queueBus")) || blockSupported (c.member? (js "scheduling")) ||
      Json.read? (c.member? (js "webhooks")) (js "durable") = some (.bool true) ||
      externalEmailOrForm)

/-- `isAgentPlatformPartial`. -/
def isAgentPlatformPartial (c : Json) : Bool :=
  isCore c && blockSupported (Json.read? (c.member? (js "agents")) (js "manifestRuntime")) &&
    blockSupported (Json.read? (c.member? (js "agents")) (js "liveRuntime")) &&
    blockSupported (c.member? (js "toolCatalog")) && blockSupported (c.member? (js "toolHooks")) &&
    blockSupported (Json.read? (c.member? (js "httpClient")) (js "safeFetch")) &&
    blockSupported (c.member? (js "providerUsage")) && blockSupported (c.member? (js "prompts")) &&
    blockSupported (c.member? (js "memory")) && blockSupported (c.member? (js "feedback")) &&
    (blockSupported (c.member? (js "replay")) ||
      Json.read? (c.member? (js "nondeterminismPolicy")) (js "declared") = some (.bool true))

/-- `isCoreStandard`. -/
def isCoreStandard (c : Json) : Bool := isCore c && isInterrupts c && (isStreamSse c || isStreamPoll c)

/-- `deriveProfiles`: the profiles of the closed catalog whose predicate holds. -/
def deriveProfiles (c : Json) : List JsString :=
  ([(isCore c, js "openwop-discovery-core"), (isCore c, js "openwop-core"),
    (isInterrupts c, js "openwop-interrupts"), (isStreamSse c, js "openwop-stream-sse"),
    (isStreamPoll c, js "openwop-stream-poll"), (isSecrets c, js "openwop-secrets"),
    (isProviderPolicy c, js "openwop-provider-policy"),
    (isNodePacksDiscovery c, js "openwop-node-packs"), (isReplayFork c, js "openwop-replay-fork"),
    (isFixtures c, js "openwop-fixtures"), (isMemory c, js "openwop-memory"),
    (isTriggerBridge c, js "openwop-trigger-bridge")].filter Prod.fst).map Prod.snd

/-- `profileDerivable` at major 1. A full agent platform is a partial one. -/
def profileDerivable (c : Json) (profile : JsString) : Bool :=
  if profile = js "openwop-core-standard" then isCoreStandard c
  else if profile = js "openwop-agent-platform" then isAgentPlatformPartial c
  else profile ∈ deriveProfiles c

end Derivation

section Floors

/-- A branch of a floor that binds when the document's array includes a value. -/
structure ConditionalFloor where
  path : JsString
  includes : JsString
  required : List JsString
  deriving DecidableEq, Repr

/-- The runtime floor of a profile. -/
structure ProfileFloor where
  required : List JsString
  requiredAnyPrefix : List JsString := []
  requiredAnyOf : List (List JsString) := []
  discoveryOnly : Bool := false
  runtimeDerived : Bool := false
  conditional : List ConditionalFloor := []
  deriving DecidableEq, Repr

/-- `floorMemberFiles`: every file the floor can require. -/
def floorMemberFiles (floor : ProfileFloor) : List JsString :=
  floor.required ++ floor.conditional.flatMap ConditionalFloor.required ++ floor.requiredAnyOf.flatten

/-- `DEPRECATED_PROFILE_ALIASES`, applied to a claim. -/
def undeprecated (profile : JsString) : JsString :=
  if profile = js "openwop-core" then js "openwop-discovery-core" else profile

/-- `PROFILE_FLOOR_SCENARIOS`. -/
def profileFloorScenarios : Record JsString ProfileFloor :=
  [(js "openwop-core-standard",
    { required := [js "runs-lifecycle.test.ts", js "discovery.test.ts", js "auth.test.ts",
        js "eventOrdering.test.ts", js "failure-path.test.ts", js "idempotency.test.ts",
        js "idempotency-key-determinism.test.ts", js "webhook-negative.test.ts"]
      requiredAnyPrefix := [js "interrupt-"] }),
   (js "openwop-discovery-core", { required := [], discoveryOnly := true }),
   (js "openwop-core", { required := [], discoveryOnly := true }),
   (js "openwop-fixtures", { required := [], discoveryOnly := true }),
   (js "openwop-stream-sse",
    { required := [js "stream-modes.test.ts", js "stream-modes-buffer.test.ts",
        js "stream-modes-mixed.test.ts"] }),
   (js "openwop-stream-poll", { required := [js "stream-modes.test.ts"] }),
   (js "openwop-node-packs",
    { required := [js "pack-registry.test.ts", js "pack-registry-publish.test.ts"]
      runtimeDerived := true }),
   (js "openwop-interrupts",
    { required := [js "interrupt-clarification.test.ts"]
      requiredAnyPrefix := [js "interrupt-"] }),
   (js "openwop-secrets",
    { required := []
      requiredAnyOf := [[js "byok-roundtrip.test.ts", js "secrets-run-witness.test.ts"]] }),
   (js "openwop-provider-policy",
    { required := [js "policies.test.ts", js "providerPolicyEnforcement.test.ts"] }),
   (js "openwop-memory",
    { required := [js "memory-capability-model-shape.test.ts", js "memory-attribution-shape.test.ts",
        js "memory-attribution-emits-on-write.test.ts", js "memory-degraded-projection.test.ts"] }),
   (js "openwop-trigger-bridge",
    { required := [js "trigger-bridge-shape.test.ts", js "trigger-bridge-delivery.test.ts"] }),
   (js "openwop-agent-platform",
    { required := [js "agent-platform-aggregate-evidence.test.ts", js "agent-manifest-runtime.test.ts",
        js "agent-live-runtime-shape.test.ts", js "tool-descriptor-shape.test.ts",
        js "tool-hooks-shape.test.ts", js "safefetch-behavior.test.ts", js "provider-usage.test.ts",
        js "prompt-list-and-fetch.test.ts", js "memory-capability-model-shape.test.ts",
        js "feedback-capability-shape.test.ts"]
      conditional := [
        { path := js "replay.modes", includes := js "replay"
          required := [js "replayDeterminism.test.ts"] }] }),
   (js "openwop-replay-fork",
    { required := []
      conditional := [
        { path := js "replay.modes", includes := js "replay"
          required := [js "replayDeterminism.test.ts",
            js "replay-side-effect-suppression.test.ts"] },
        { path := js "replay.modes", includes := js "branch"
          required := [js "replay-fork.test.ts"] }] })]

/-- `PROFILE_FLOOR_SCENARIOS[profile]`. -/
def floorOf (profile : JsString) : Option ProfileFloor := Record.get? profileFloorScenarios profile

end Floors

end OpenWop.Certification
