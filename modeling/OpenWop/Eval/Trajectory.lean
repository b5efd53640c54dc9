import OpenWop.Core.Matching
import OpenWop.Eval.JsonMatch

/-!
# Grading a trajectory

The observed calls are graded against the expected ones in one of four modes. The matched count
comes from a search for augmenting paths, whatever the mode.
-/

namespace OpenWop.Eval

open OpenWop.Js

section Calls

/-- `ArgsMatch` -/
inductive ArgsMatch where
  | ignore
  | exact
  | subset
  deriving DecidableEq

/-- `MatchMode` -/
inductive MatchMode where
  | exact
  | inOrder
  | anyOrder
  | subset
  deriving DecidableEq

/-- `ExpectedCall` -/
structure ExpectedCall where
  tool : JsString
  args : Option Json
  argsMatch : Option ArgsMatch

/-- `ObservedCall` -/
structure ObservedCall where
  tool : JsString
  inputs : Option Json

/-- `TrajectorySpec` -/
structure TrajectorySpec where
  mode : MatchMode
  calls : List ExpectedCall
  forbidden : Option (List JsString)

/-- `TrajectoryGrade` -/
structure TrajectoryGrade where
  mode : MatchMode
  matched : Bool
  expectedCount : ℕ
  observedCount : ℕ
  matchedCount : ℕ
  forbiddenCount : ℕ

/-- `o.inputs` -/
def ObservedCall.read (o : ObservedCall) : Accessed :=
  match o.inputs with
  | some v => .json v
  | none => .undefined

/-- `callMatches` -/
def callMatches (e : ExpectedCall) (o : ObservedCall) : Bool :=
  if e.tool ≠ o.tool then false
  else
    match e.argsMatch.getD .ignore, e.args with
    | .ignore, _ => true
    | _, none => true
    | .exact, some args => jsonEqual args o.read
    | .subset, some args => jsonSubset args o.read

/-- The call expected at a place matches the one observed at another. -/
def matchesAt (expected : List ExpectedCall) (observed : List ObservedCall) (i j : ℕ) : Bool :=
  match expected[i]?, observed[j]? with
  | some e, some o => callMatches e o
  | _, _ => false

end Calls

section Search

/-- `owner` and `seen`. -/
structure Search where
  owner : List (Option ℕ)
  seen : Finset ℕ

variable (matching : ℕ → ℕ → Bool)

/-- The loop of `augment` over the observed calls that are left; `next` is the recursive call. -/
def visit (next : ℕ → Search → Bool × Search) (i : ℕ) : List ℕ → Search → Bool × Search
  | [], s => (false, s)
  | j :: js, s =>
    if j ∈ s.seen ∨ matching i j = false then visit next i js s
    else
      let s := { s with seen := insert j s.seen }
      match s.owner[j]?.join with
      | none => (true, { s with owner := s.owner.set j (some i) })
      | some i' =>
        match next i' s with
        | (true, s) => (true, { s with owner := s.owner.set j (some i) })
        | (false, s) => visit next i js s

/-- `augment`, with a bound on the depth. -/
def augment (width : ℕ) : ℕ → ℕ → Search → Bool × Search
  | 0 => fun _ s => (false, s)
  | fuel + 1 => fun i => visit matching (augment width fuel) i (List.range width)

/-- One more expected call: the owners and the count after it. -/
def augmentOnce (width : ℕ) (state : List (Option ℕ) × ℕ) (i : ℕ) : List (Option ℕ) × ℕ :=
  match augment matching width (width + 1) i { owner := state.1, seen := ∅ } with
  | (true, s) => (s.owner, state.2 + 1)
  | (false, s) => (s.owner, state.2)

end Search

section Grading

/-- `maxMatching` -/
def maxMatching (expected : List ExpectedCall) (observed : List ObservedCall) : ℕ :=
  ((List.range expected.length).foldl (augmentOnce (matchesAt expected observed) observed.length)
    (List.replicate observed.length none, 0)).2

/-- `inOrder` -/
def inOrder : List ExpectedCall → List ObservedCall → Bool
  | [], _ => true
  | e :: expected, observed =>
    match observed.dropWhile fun o => !callMatches e o with
    | [] => false
    | _ :: after => inOrder expected after

/-- `modeOk` -/
def modeOk (spec : TrajectorySpec) (observed : List ObservedCall) : Bool :=
  match spec.mode with
  | .exact => observed.length = spec.calls.length &&
      (List.range spec.calls.length).all fun i => matchesAt spec.calls observed i i
  | .inOrder => inOrder spec.calls observed
  | .anyOrder => maxMatching spec.calls observed = spec.calls.length
  | .subset => observed.all fun o => spec.calls.any fun e => callMatches e o

/-- `gradeTrajectory` -/
def gradeTrajectory (spec : TrajectorySpec) (observed : List ObservedCall) : TrajectoryGrade :=
  let forbiddenCount := (observed.filter fun o => o.tool ∈ spec.forbidden.getD []).length
  { mode := spec.mode
    matched := modeOk spec observed && forbiddenCount = 0
    expectedCount := spec.calls.length
    observedCount := observed.length
    matchedCount := maxMatching spec.calls observed
    forbiddenCount := forbiddenCount }

end Grading

end OpenWop.Eval
