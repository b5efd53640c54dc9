import OpenWop.Js.Stringify

/-!
# The census of a schema

`enumerateSchema` walks a schema by the path a document takes. References are resolved
in place, every branch of a combinator is walked at the path of its parent, and each
surface is recorded with the branches it comes from. A `required` or `closed` surface
counts when as many branches impose it as reach its path.
-/

namespace OpenWop.Schema

open OpenWop.Js

section Pointers

/-- `esc`: the escape of one segment of a JSON Pointer. -/
def esc (s : JsString) : JsString :=
  s.flatMap fun u => if u = unit '~' then js "~0" else if u = unit '/' then js "~1" else [u]

/-- The segment an escaped one stands for. -/
def unescape : JsString → JsString
  | [] => []
  | [u] => [u]
  | u :: v :: rest =>
    if u = unit '~' ∧ v = unit '1' then unit '/' :: unescape rest
    else if u = unit '~' ∧ v = unit '0' then unit '~' :: unescape rest
    else u :: unescape (v :: rest)

/-- `node[k]`, where `k in node`. -/
def child? (node : Json) (k : JsString) : Option Json :=
  match node with
  | .obj members => Record.get? members k
  | .arr items => (items.zipIdx.find? fun p => decimal p.2 = k).map Prod.fst
  | _ => none

/-- The node a local pointer leads to. -/
def resolvePointer (schema : Json) (ptr : JsString) : Option Json :=
  if startsWith ptr (js "#/") then
    (splitOn (ptr.drop 2) (unit '/')).foldl
      (fun node seg => node.bind fun node => child? node (unescape seg)) (some schema)
  else none

/-- `Object.entries(v)`. -/
def entries (v : Json) : List (JsString × Json) :=
  match v with
  | .obj members => members
  | .arr items => items.zipIdx.map fun p => (decimal p.2, p.1)
  | _ => []

end Pointers

section Surfaces

/-- The kinds of surface a schema has. -/
inductive SurfaceKind where
  | property
  | enumMember
  | required
  | closed
  | type
  deriving DecidableEq, Repr

/-- The word for a kind. -/
def SurfaceKind.text : SurfaceKind → JsString
  | .property => js "property"
  | .enumMember => js "enum-member"
  | .required => js "required"
  | .closed => js "closed"
  | .type => js "type"

/-- `RESTRICTION_KINDS` other than `type`: the kinds that are intersected. -/
def SurfaceKind.isIntersected : SurfaceKind → Bool
  | .required | .closed => true
  | _ => false

/-- A surface at the path a document takes. -/
structure Surface where
  path : JsString
  kind : SurfaceKind
  value : JsString
  deriving DecidableEq, Repr

/-- The tuple of a surface in the census. -/
def Surface.tuple (rel : JsString) (s : Surface) : JsString :=
  rel ++ js "#" ++ s.path ++ js "|" ++ s.kind.text ++ js "|" ++ s.value

end Surfaces

section Steps

/-- A call of `walk`. -/
structure Job where
  node : Json
  path : JsString
  branchKey : JsString
  conditionalAtSameSite : Bool
  deriving DecidableEq

/-- What the walk does at a node, after its reference. -/
inductive Step where
  | add (surface : Surface) (branchKey : JsString)
  | select (branchKey : JsString) (selector : Json)
  | visit (job : Job)

variable (members : List (JsString × Json)) (path branchKey : JsString)

/-- A subschema of the node. -/
def keyword (name : JsString) : Option Json := Record.get? members name

/-- The key of a branch: `${branchKey}>${name}@${path}`. -/
def branchOf (name : JsString) : JsString :=
  branchKey ++ js ">" ++ name ++ js "@" ++ path

/-- The branches of a combinator. `allOf` branches keep the key of the parent. -/
def combinatorSteps (comb : JsString) : List Step :=
  ((Json.items? (keyword members comb)).getD []).zipIdx.map fun b =>
    .visit ⟨b.1, path, if comb = js "allOf" then branchKey
      else branchOf path branchKey (comb ++ decimal b.2), false⟩

/-- A `then` or `else` arm, with the selector of a `then`. -/
def conditionalSteps (cond : JsString) : List Step :=
  match keyword members cond with
  | some arm =>
    if Json.isObject (some arm) then
      (match keyword members (js "if") with
        | some selector =>
          if cond = js "then" ∧ Json.isObject (some selector) = true then
            [Step.select (branchOf path branchKey (js "then")) selector]
          else []
        | none => []) ++ [.visit ⟨arm, path, branchOf path branchKey cond, true⟩]
    else []
  | none => []

/-- The surfaces of a kind at the node. -/
def addSteps (kind : SurfaceKind) (values : List JsString) : List Step :=
  values.map fun value => .add ⟨path, kind, value⟩ branchKey

/-- The types a node permits. -/
def typeNames : List JsString :=
  match keyword members (js "type") with
  | some (.arr types) => types.map Json.text
  | some type => [type.text]
  | none => []

/-- The members of `enum` and the value of `const`. -/
def enumValues : List JsString :=
  ((Json.items? (keyword members (js "enum"))).getD []).map Json.stringify ++
    (keyword members (js "const")).toList.map Json.stringify

/-- `additionalProperties: false`. -/
def closedValues : List JsString :=
  if keyword members (js "additionalProperties") = some (.bool false) then [js "true"] else []

/-- The names `required` lists. -/
def requiredNames : List JsString :=
  ((Json.items? (keyword members (js "required"))).getD []).map Json.text

/-- The members of a keyword whose value is an object. -/
def entriesOf (name : JsString) : List (JsString × Json) :=
  ((keyword members name).filter fun v => Json.isObject (some v)).elim [] entries

/-- A subschema of the node below its path. -/
def below (segment : JsString) (node : Json) : Step :=
  .visit ⟨node, path ++ js "/" ++ segment, branchKey, false⟩

/-- What the walk does at a node, in its order. -/
def steps : List Step :=
  [js "anyOf", js "oneOf", js "allOf"].flatMap (combinatorSteps members path branchKey) ++
  [js "then", js "else"].flatMap (conditionalSteps members path branchKey) ++
  addSteps path branchKey .type (typeNames members) ++
  addSteps path branchKey .enumMember (enumValues members) ++
  addSteps path branchKey .closed (closedValues members) ++
  addSteps path branchKey .required (requiredNames members) ++
  (entriesOf members (js "properties")).flatMap (fun p =>
    [.add ⟨path, .property, p.1⟩ branchKey, below path branchKey (esc p.1) p.2]) ++
  (entriesOf members (js "patternProperties")).map (fun p =>
    below path branchKey (js "~" ++ esc p.1) p.2) ++
  ((keyword members (js "additionalProperties")).filter
    fun v => Json.isObject (some v)).toList.map (below path branchKey (js "*")) ++
  ((keyword members (js "items")).filter fun v =>
    Json.isObject (some v) && (Json.items? (some v)).isNone).toList.map
      (below path branchKey (js "[]")) ++
  ((Json.items? (keyword members (js "prefixItems"))).getD []).zipIdx.map fun p =>
    below path branchKey (js "[" ++ decimal p.2 ++ js "]") p.1

end Steps

section Walk

/-- What `enumerateSchema` has collected. -/
structure CensusState where
  acc : List (Surface × JsString) := []
  reached : List (JsString × JsString) := []
  seen : List JsString := []
  selectorOf : Map JsString Json := Map.empty

/-- The key a reference is visited under. -/
def seenKey (ref path : JsString) : JsString := ref ++ js "@" ++ path

/-- The reference of a node. -/
def refOf (members : List (JsString × Json)) : Option JsString :=
  match keyword members (js "$ref") with
  | some (.str ref) => some ref
  | _ => none

variable (schema : Json)

/-- The target of a reference is visited once at a path. -/
def followRef (visit : CensusState → Job → CensusState) (st : CensusState)
    (members : List (JsString × Json)) (job : Job) : CensusState :=
  match refOf members with
  | some ref =>
    if seenKey ref job.path ∈ st.seen then st
    else
      let st' := { st with seen := seenKey ref job.path :: st.seen }
      match resolvePointer schema ref with
      | some target => visit st' ⟨target, job.path, job.branchKey, false⟩
      | none => st'
  | none => st

/-- A branch reaches a path, unless it is conditional there. -/
def reach (st : CensusState) (job : Job) : CensusState :=
  if job.conditionalAtSameSite then st
  else { st with reached := st.reached ++ [(job.path, job.branchKey)] }

/-- One step of the walk. -/
def runStep (visit : CensusState → Job → CensusState) (st : CensusState) : Step → CensusState
  | .add surface branchKey => { st with acc := st.acc ++ [(surface, branchKey)] }
  | .select branchKey selector =>
    { st with selectorOf := st.selectorOf.set branchKey selector }
  | .visit job => visit st job

/-- `walk`, by the number of levels the bound on the depth leaves. -/
def walk : Nat → CensusState → Job → CensusState
  | 0, st, _ => st
  | levels + 1, st, job =>
    match job.node with
    | .obj members =>
      (steps members job.path job.branchKey).foldl (runStep (walk levels))
        (reach (followRef schema (walk levels) st members job) job)
    | _ => st

/-- A walk is at most 60 levels deep. -/
def maxWalkDepth : Nat := 60

/-- What the walk of a schema collects. -/
def censusOf : CensusState :=
  walk schema (maxWalkDepth + 1) {} ⟨schema, [], js "root", false⟩

end Walk

section Listing

variable (st : CensusState)

/-- The branches that impose a surface. -/
def CensusState.branches (s : Surface) : List JsString :=
  uniq ((st.acc.filter fun e => e.1 = s).map Prod.snd)

/-- The branches that reach a path. -/
def CensusState.branchesHere (path : JsString) : List JsString :=
  uniq ((st.reached.filter fun e => e.1 = path).map Prod.snd)

/-- The surfaces collected, by kind and by path. -/
def CensusState.collected : List Surface :=
  let surfaces := uniq (st.acc.map Prod.fst)
  (uniq (surfaces.map Surface.kind)).flatMap fun kind =>
    let ofKind := surfaces.filter fun s => s.kind = kind
    (uniq (ofKind.map Surface.path)).flatMap fun path => ofKind.filter fun s => s.path = path

/-- An intersected surface counts when no fewer branches impose it than reach its path. -/
def CensusState.counts (s : Surface) : Bool :=
  !s.kind.isIntersected || decide ((st.branchesHere s.path).length ≤ (st.branches s).length)

/-- `enumerateSchema`. -/
def enumerateSchema (schema : Json) : List Surface :=
  (censusOf schema).collected.filter (censusOf schema).counts

/-- The selectors recorded with a `required` that only arms impose. -/
def CensusState.conditional? (s : Surface) : Option (List (Option Json)) :=
  if s.kind = .required ∧ ∀ b ∈ st.branches s, b ∉ st.branchesHere s.path then
    some ((st.branches s).map st.selectorOf.get?)
  else none

/-- The `conditionals` that `enumerateSchema` fills. -/
def conditionals (schema : Json) : List (Surface × List (Option Json)) :=
  (enumerateSchema schema).filterMap fun s => ((censusOf schema).conditional? s).map (s, ·)

end Listing

end OpenWop.Schema
