import Micromatch.Utils.MPMCQueue

namespace Micromatch.Spec
open Micromatch.Utils

variable {α : Type}

/-- Append when fewer than `capacity` items are held; otherwise refuse and change nothing. -/
def fifoEnqueue (capacity : Nat) (items : List α) (value : α) : Bool × List α :=
  if items.length < capacity then (true, items ++ [value]) else (false, items)

/-- Remove and return the oldest item, if there is one. -/
def fifoDequeue : List α → Option α × List α
  | [] => (none, [])
  | a :: items => (some a, items)

/-- One call on the bounded FIFO, which is what the ring is for on one thread. A refused call
changes nothing, so a blocking call is one try, or none when `max_retries` is 0. -/
def fifoCall (capacity : Nat) (items : List α) : QueueCall α → QueueResult α × List α
  | .tryEnqueue value | .enqueue value (_ + 1) =>
    let r := fifoEnqueue capacity items value; (.enqueued r.1, r.2)
  | .tryDequeue | .dequeue (_ + 1) => let r := fifoDequeue items; (.dequeued r.1, r.2)
  | .enqueue _ 0 => (.enqueued false, items)
  | .dequeue 0 => (.dequeued none, items)

/-- A sequence of calls on the bounded FIFO. -/
def fifoRun (capacity : Nat) (items : List α) : List (QueueCall α) → List (QueueResult α) × List α
  | [] => ([], items)
  | c :: cs =>
    let (r, items) := fifoCall capacity items c
    let (rs, items) := fifoRun capacity items cs
    (r :: rs, items)

end Micromatch.Spec
