import OpenWop.Core.Reachable
import OpenWop.Js.Record
import OpenWop.Js.Sort

/-!
# The lock of a mock-AI node

Scenario files that drive one fixture node run in parallel workers. Each holds a directory per node
id: made by an atomic `mkdir`, taken in sorted order, removed in reverse, and broken by another
file once it is older than `STALE_MS`. A worker is a step machine over the shared file system, so
that other workers may act between any two of its calls.
-/

namespace OpenWop.MockNode

open OpenWop.Js OpenWop.Core

/-- `POLL_MS`. -/
def pollMs : Nat := 200

/-- `WAIT_MS`. -/
def waitMs : Nat := 300000

/-- `STALE_MS`. -/
def staleMs : Nat := 600000

/-- `tmpdir()` and the SHA-256 of a text in hex. -/
structure Host where
  tmpdir : JsString
  sha256Hex : JsString → JsString

/-- A scenario file: the `OPENWOP_BASE_URL` of its process and the ids it passes to
`holdMockNodes`. -/
structure File where
  baseUrl : JsString
  nodeIds : List JsString

/-- `lockDir(nodeId)`. -/
def lockDir (host : Host) (baseUrl nodeId : JsString) : JsString :=
  host.tmpdir ++ js "/openwop-mock-node-" ++
    slice (host.sha256Hex (baseUrl ++ 0 :: nodeId)) 0 24

/-- `[...new Set(nodeIds)].sort()`. -/
def File.wanted (file : File) : List JsString := sortBy codeUnitOrder (uniq file.nodeIds)

/-- Where a worker is. -/
inductive Phase
  /-- Before the hook. -/
  | idle
  /-- At the head of the `for` loop. -/
  | next
  /-- Before `mkdirSync`. -/
  | make (dir : JsString) (deadline : Nat)
  /-- The directory existed: before `statSync`. -/
  | stat (dir : JsString) (deadline : Nat)
  /-- It was stale, with that `mtimeMs`: before `rmSync`. -/
  | break (dir : JsString) (deadline mtimeMs : Nat)
  /-- In `setTimeout`. -/
  | sleep (dir : JsString) (deadline wake : Nat)
  /-- The directory is made: before `writeFileSync`. -/
  | write (dir : JsString)
  /-- The tests of the file. -/
  | running
  /-- In `afterAll`. -/
  | release
  | done
  deriving DecidableEq

/-- A worker process. -/
structure Worker where
  file : File
  phase : Phase
  /-- The ids not yet taken, the one being taken first. -/
  todo : List JsString
  /-- `held`, the last directory first. -/
  held : List JsString

/-- The modification times of the directories there are. -/
abbrev Dirs := JsString → Option Nat

/-- One call of a worker. The owner text that `writeFileSync` writes is not read by any code; that
it touches the directory is. -/
def Worker.step (host : Host) (now : Nat) (dirs : Dirs) (w : Worker) : Dirs × Worker :=
  match w.phase with
  | .idle =>
    if w.file.baseUrl = [] then (dirs, { w with phase := .running })
    else (dirs, { w with phase := .next, todo := w.file.wanted })
  | .next =>
    match w.todo with
    | [] => (dirs, { w with phase := .running })
    | id :: _ => (dirs, { w with phase := .make (lockDir host w.file.baseUrl id) (now + waitMs) })
  | .make dir deadline =>
    match dirs dir with
    | none => (Function.update dirs dir (some now), { w with phase := .write dir })
    | some _ => (dirs, { w with phase := .stat dir deadline })
  | .stat dir deadline =>
    match dirs dir with
    | none => (dirs, { w with phase := .make dir deadline })
    | some mtimeMs =>
      if mtimeMs + staleMs < now then (dirs, { w with phase := .break dir deadline mtimeMs })
      else if deadline < now then (dirs, { w with phase := .release })
      else (dirs, { w with phase := .sleep dir deadline (now + pollMs) })
  | .break dir deadline _ => (Function.update dirs dir none, { w with phase := .make dir deadline })
  | .sleep dir deadline wake =>
    if wake ≤ now then (dirs, { w with phase := .make dir deadline }) else (dirs, w)
  | .write dir =>
    match dirs dir with
    | none => (dirs, { w with phase := .release })
    | some _ => (Function.update dirs dir (some now),
        { w with phase := .next, todo := w.todo.tail, held := dir :: w.held })
  | .running => (dirs, { w with phase := .release })
  | .release =>
    match w.held with
    | [] => (dirs, { w with phase := .done })
    | dir :: rest => (Function.update dirs dir none, { w with held := rest })
  | .done => (dirs, w)

/-- A call of a worker throws for a reason of the file system. `statSync` and `rmSync` of a stale
directory are tried again; a failed `rmSync` of `afterAll` leaves what is still held. -/
def Worker.fail (w : Worker) : Worker :=
  match w.phase with
  | .make _ _ | .write _ => { w with phase := .release }
  | .stat dir deadline | .break dir deadline _ => { w with phase := .make dir deadline }
  | .release => { w with phase := .done, held := [] }
  | .idle | .next | .sleep _ _ _ | .running | .done => w

/-- A worker that is killed. -/
def Worker.kill (w : Worker) : Worker := { w with phase := .done, held := [] }

section System

variable {W : Type} [DecidableEq W]

/-- The workers of a machine, its clock and its temp directory. -/
structure State (W : Type) where
  now : Nat
  dirs : Dirs
  workers : W → Worker

/-- The worker of a file that has not begun. -/
def File.worker (file : File) : Worker := { file, phase := .idle, todo := [], held := [] }

/-- No file has begun; what an earlier run left is there. -/
def State.start (now : Nat) (left : Dirs) (files : W → File) : State W where
  now := now
  dirs := left
  workers w := (files w).worker

/-- What happens next. -/
inductive Event (W : Type)
  | tick (ms : Nat)
  | step (w : W)
  | fail (w : W)
  | kill (w : W)

/-- The state after an event. -/
def State.next (host : Host) (s : State W) : Event W → State W
  | .tick ms => { s with now := s.now + ms }
  | .step w =>
    let (dirs, worker) := (s.workers w).step host s.now s.dirs
    { s with dirs, workers := Function.update s.workers w worker }
  | .fail w => { s with workers := Function.update s.workers w (s.workers w).fail }
  | .kill w => { s with workers := Function.update s.workers w (s.workers w).kill }

/-- The lock directories a worker has made and not removed. -/
def Worker.locks (w : Worker) : List JsString :=
  match w.phase with
  | .write dir => dir :: w.held
  | _ => w.held

/-- The directory a worker waits for. -/
def Phase.awaited : Phase → Option JsString
  | .make dir _ | .stat dir _ | .break dir _ _ | .sleep dir _ _ => some dir
  | _ => none

/-- No lock is held past `STALE_MS`, and a stale lock is broken as it was seen: nothing was made in
its place since. -/
def Timely (s : State W) : Event W → Prop
  | .tick ms => ∀ w, ∀ dir ∈ (s.workers w).locks, ∀ mtimeMs, s.dirs dir = some mtimeMs →
      s.now + ms ≤ mtimeMs + staleMs
  | .step w => ∀ dir deadline mtimeMs, (s.workers w).phase = .break dir deadline mtimeMs →
      s.dirs dir = none ∨ s.dirs dir = some mtimeMs
  | .fail _ | .kill _ => True

/-- Moreover no call fails and no worker is killed. -/
def Undisturbed (s : State W) : Event W → Prop
  | .fail _ | .kill _ => False
  | e => Timely s e

end System

end OpenWop.MockNode
