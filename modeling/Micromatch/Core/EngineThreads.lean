import Micromatch.Core.Engine
import Micromatch.Utils.SPSCThreads

namespace Micromatch.Core
open Micromatch.Utils

instance : Inhabited OrderRequest := ⟨.newOrder default⟩

/-- Where a client thread is in its current call: the check of `running_`, then the steps of
`order_queue_.enqueue`, which always succeeds, so `while (!enqueue) yield();` runs once. -/
inductive ClientPc where
  | checkRunning
  | newNode
  | loadTail (node : Nat)
  | link (node tail : Nat)
  | storeCachedTail (node : Nat)
  | storeTail (node : Nat)
  deriving DecidableEq, Repr

/-- A client thread: the requests of its calls still to make, where it is in the first, and the
requests of the calls that returned without throwing. -/
structure Client where
  calls : List OrderRequest
  pc : ClientPc
  accepted : List OrderRequest
  deriving DecidableEq, Repr

/-- Where the worker thread is in `worker_loop`; `drain` is set in the loop after it. -/
inductive WorkerPc where
  | notStarted
  /-- Next: `running_.load()`. -/
  | checkRunning
  /-- Next: `order_queue_.dequeue()` begins. -/
  | callDequeue (drain : Bool)
  | dequeue (drain : Bool) (pc : SpscConsumerPc OrderRequest)
  /-- Next: `process_order_request(request)`. -/
  | process (drain : Bool) (request : OrderRequest)
  | exited
  deriving DecidableEq, Repr

inductive ControlCall where
  | start
  | stop
  deriving DecidableEq, Repr

/-- The thread calling `start()` and `stop()`: its calls still to make, and whether it is in
`stop()`'s `join`. -/
structure Controller where
  calls : List ControlCall
  joining : Bool
  deriving DecidableEq, Repr

/-- The engine with its threads: `running_`, `order_queue_`, the worker, the requests
`process_order_request` was called on, the other threads, and a ghost: the requests whose link
store has completed, in order. -/
structure EngineThreads where
  running : Bool
  queue : SPSCQueue OrderRequest
  worker : WorkerPc
  processed : List OrderRequest
  clients : List Client
  controller : Controller
  linked : List OrderRequest
  deriving DecidableEq, Repr

inductive Thread where
  | client (i : Nat)
  | worker
  | controller
  deriving DecidableEq, Repr

namespace EngineThreads

/-- A constructed engine with its clients' and controller's calls to come. -/
def create (calls : List (List OrderRequest)) (control : List ControlCall) : EngineThreads :=
  ⟨false, SPSCQueue.create, .notStarted, [],
    calls.map fun cs => ⟨cs, .checkRunning, []⟩, ⟨control, false⟩, []⟩

/-- One atomic step of client `c` on `running_` and `order_queue_`; `none` when it has no call
left. -/
def clientStep (running : Bool) (queue : SPSCQueue OrderRequest) (c : Client) :
    Option (Client × SPSCQueue OrderRequest) :=
  match c.calls, c.pc with
  | [], _ => none
  | _ :: rest, .checkRunning =>
    if running then some ({ c with pc := .newNode }, queue)
    else some ({ c with calls := rest }, queue)
  | request :: _, .newNode =>
    let (node, queue) := queue.alloc request
    some ({ c with pc := .loadTail node }, queue)
  | _, .loadTail node => some ({ c with pc := .link node queue.cachedTail }, queue)
  | _, .link node tail => some ({ c with pc := .storeCachedTail node }, queue.storeNext tail node)
  | _, .storeCachedTail node =>
    some ({ c with pc := .storeTail node }, { queue with cachedTail := node })
  | request :: rest, .storeTail node =>
    some (⟨rest, .checkRunning, c.accepted ++ [request]⟩, { queue with tail := node })

/-- The ghost `linked` after a client's step from `pc`: the link store appends its request. -/
def linkedAfter (linked : List OrderRequest) (queue : SPSCQueue OrderRequest) :
    ClientPc → List OrderRequest
  | .link node _ => linked ++ [(queue.node node).data]
  | _ => linked

/-- One step of `worker_loop`: the load of `running_`, a step of `order_queue_.dequeue()`, or
`process_order_request`; on `nullopt` the loop sleeps, the drain after it returns. -/
def workerStep (s : EngineThreads) : Option EngineThreads :=
  match s.worker with
  | .checkRunning => some { s with worker := .callDequeue !s.running }
  | .callDequeue drain =>
    some { s with worker := .dequeue drain (.loadNext s.linked.length s.queue.cachedHead) }
  | .dequeue drain pc =>
    match s.queue.dequeueStep pc with
    | none => none
    | some (queue, pc, none) => some { s with queue, worker := .dequeue drain pc }
    | some (queue, _, some (some request, _)) =>
      some { s with queue, worker := .process drain request }
    | some (queue, _, some (none, _)) =>
      some { s with queue, worker := if drain then .exited else .checkRunning }
  | .process drain request =>
    some { s with processed := s.processed ++ [request],
                  worker := if drain then .callDequeue true else .checkRunning }
  | _ => none

/-- One step of the controller: `start()` exchanges `running_` and spawns the worker;
`stop()` exchanges `running_` and, if it was set, waits in `join` until the worker exits. -/
def controllerStep (s : EngineThreads) : Option EngineThreads :=
  match s.controller.calls, s.controller.joining with
  | [], _ => none
  | _ :: rest, true =>
    if s.worker = .exited then some { s with controller := ⟨rest, false⟩ } else none
  | .start :: rest, false =>
    if s.running then some { s with controller := ⟨rest, false⟩ }
    else some { s with running := true, worker := .checkRunning, controller := ⟨rest, false⟩ }
  | .stop :: rest, false =>
    if s.running then some { s with running := false, controller := ⟨.stop :: rest, true⟩ }
    else some { s with controller := ⟨rest, false⟩ }

/-- One atomic step of one thread; `none` when that thread cannot move. -/
def step (s : EngineThreads) : Thread → Option EngineThreads
  | .client i => do
    let c ← s.clients.get? i
    let (c', queue) ← clientStep s.running s.queue c
    pure { s with clients := s.clients.set i c', queue,
                  linked := linkedAfter s.linked s.queue c.pc }
  | .worker => s.workerStep
  | .controller => s.controllerStep

/-- A schedule: the threads in the order they take their steps. -/
def runSchedule (s : EngineThreads) : List Thread → Option EngineThreads
  | [] => some s
  | t :: ts => (s.step t).bind (runSchedule · ts)

/-- Every client and the controller has returned from all its calls. -/
def finished (s : EngineThreads) : Bool :=
  s.clients.all (fun c => c.calls.isEmpty) && s.controller.calls.isEmpty

/-- The requests of the calls that returned without throwing, per client. -/
def accepted (s : EngineThreads) : List (List OrderRequest) := s.clients.map Client.accepted

end EngineThreads

end Micromatch.Core
