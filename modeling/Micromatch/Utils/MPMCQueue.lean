import Mathlib

namespace Micromatch.Utils

/-- `MPMCQueue::Cell`: a sequence stamp and the slot's data. -/
structure Cell (α : Type) where
  sequence : UInt64
  data : α

/-- `MPMCQueue<T, Size>` as one thread drives it: the ring `buffer_`, read at `pos & MASK`,
and the positions `enqueue_pos_` and `dequeue_pos_`, all as 64-bit `size_t` words. -/
structure MPMCQueue (α : Type) (Size : Nat) where
  buffer : UInt64 → Cell α
  enqueuePos : UInt64
  dequeuePos : UInt64

/-- `static_assert((Size & (Size - 1)) == 0)` on a `size_t` template argument. -/
def sizeAdmitted (Size : Nat) : Bool :=
  Size < 2 ^ 64 && Size &&& (Size - 1) = 0

/-- `MASK = Size - 1`. -/
def mask (Size : Nat) : UInt64 := UInt64.ofNat Size - 1

/-- `static_cast<intptr_t>(a) - static_cast<intptr_t>(b)`: the 64-bit two's-complement
difference of two words. -/
def intptrDiff (a b : UInt64) : Int := (a - b).toBitVec.toInt

namespace MPMCQueue

variable {α : Type} {Size : Nat}

/-- The constructor: cell `i < Size` gets `sequence = i` and default data, and both positions are
zero; no masked index reaches the other cells. -/
def create [Inhabited α] (Size : Nat) : MPMCQueue α Size :=
  ⟨fun i => ⟨i, default⟩, 0, 0⟩

/-- `buffer_[pos & MASK]`. -/
def cell (Q : MPMCQueue α Size) (pos : UInt64) : Cell α :=
  Q.buffer (pos &&& mask Size)

/-- `buffer_[pos & MASK] = c`. -/
def setCell (Q : MPMCQueue α Size) (pos : UInt64) (c : Cell α) : MPMCQueue α Size :=
  { Q with buffer := Function.update Q.buffer (pos &&& mask Size) c }

/-- The winning turn of `try_enqueue` at `pos`: the compare-exchange moves `enqueue_pos_` on,
the value is written to the cell, and the cell is stamped `pos + 1` for the consumers. -/
def enqueueAt (Q : MPMCQueue α Size) (pos : UInt64) (value : α) : MPMCQueue α Size :=
  { Q with
    enqueuePos := pos + 1
    buffer := Function.update Q.buffer (pos &&& mask Size) ⟨pos + 1, value⟩ }

/-- The winning turn of `try_dequeue` at `pos`: `dequeue_pos_` moves on, and the cell, its data
moved out and left in place, is stamped `pos + Size` for the producer one lap later. -/
def dequeueAt (Q : MPMCQueue α Size) (pos : UInt64) : MPMCQueue α Size :=
  { Q with
    dequeuePos := pos + 1
    buffer := Function.update Q.buffer (pos &&& mask Size)
      ⟨pos + UInt64.ofNat Size, (Q.cell pos).data⟩ }

/-- The `for (;;)` loop of `try_enqueue` from the position loaded, for at most `fuel` turns (`none`
once they run out). A failed compare-exchange, like `diff > 0`, turns again with the position
reloaded. -/
def tryEnqueueLoop (Q : MPMCQueue α Size) (value : α) :
    Nat → UInt64 → Option (Bool × MPMCQueue α Size)
  | 0, _ => none
  | fuel + 1, pos =>
    let diff := intptrDiff (Q.cell pos).sequence pos
    if diff = 0 then
      if Q.enqueuePos = pos then some (true, Q.enqueueAt pos value)
      else Q.tryEnqueueLoop value fuel Q.enqueuePos
    else if diff < 0 then some (false, Q)
    else Q.tryEnqueueLoop value fuel Q.enqueuePos

/-- `try_enqueue`: `some (true, _)` when a cell was filled, `some (false, _)` on a full ring. -/
def tryEnqueue (Q : MPMCQueue α Size) (value : α) (fuel : Nat) :
    Option (Bool × MPMCQueue α Size) :=
  Q.tryEnqueueLoop value fuel Q.enqueuePos

/-- The `for (;;)` loop of `try_dequeue`, as `tryEnqueueLoop`. -/
def tryDequeueLoop (Q : MPMCQueue α Size) :
    Nat → UInt64 → Option (Option α × MPMCQueue α Size)
  | 0, _ => none
  | fuel + 1, pos =>
    let diff := intptrDiff (Q.cell pos).sequence (pos + 1)
    if diff = 0 then
      if Q.dequeuePos = pos then some (some (Q.cell pos).data, Q.dequeueAt pos)
      else Q.tryDequeueLoop fuel Q.dequeuePos
    else if diff < 0 then some (none, Q)
    else Q.tryDequeueLoop fuel Q.dequeuePos

/-- `try_dequeue`: `some (some v, _)` for the item read, `some (none, _)` on an empty ring. -/
def tryDequeue (Q : MPMCQueue α Size) (fuel : Nat) : Option (Option α × MPMCQueue α Size) :=
  Q.tryDequeueLoop fuel Q.dequeuePos

/-- `enqueue(value, max_retries)`: up to `max_retries` calls of `try_enqueue`. -/
def enqueue (Q : MPMCQueue α Size) (value : α) (fuel : Nat) :
    Nat → Option (Bool × MPMCQueue α Size)
  | 0 => some (false, Q)
  | maxRetries + 1 =>
    match Q.tryEnqueue value fuel with
    | some (false, Q) => Q.enqueue value fuel maxRetries
    | result => result

/-- `dequeue(max_retries)`: up to `max_retries` calls of `try_dequeue`. -/
def dequeue (Q : MPMCQueue α Size) (fuel : Nat) : Nat → Option (Option α × MPMCQueue α Size)
  | 0 => some (none, Q)
  | maxRetries + 1 =>
    match Q.tryDequeue fuel with
    | some (none, Q) => Q.dequeue fuel maxRetries
    | result => result

/-- `empty()`. -/
def empty (Q : MPMCQueue α Size) : Bool := Q.enqueuePos = Q.dequeuePos

/-- `size_approx()`: `(enq - deq) & MASK`. -/
def sizeApprox (Q : MPMCQueue α Size) : UInt64 := (Q.enqueuePos - Q.dequeuePos) &&& mask Size

end MPMCQueue

/-- A call one thread makes on the ring. -/
inductive QueueCall (α : Type) where
  | tryEnqueue (value : α)
  | tryDequeue
  | enqueue (value : α) (maxRetries : Nat)
  | dequeue (maxRetries : Nat)
  deriving DecidableEq, Repr

/-- What a call returned. -/
inductive QueueResult (α : Type) where
  | enqueued (ok : Bool)
  | dequeued (item : Option α)
  deriving DecidableEq, Repr

namespace MPMCQueue

variable {α : Type} {Size : Nat}

/-- One call, each given `fuel` turns of its loop. -/
def call (Q : MPMCQueue α Size) (fuel : Nat) :
    QueueCall α → Option (QueueResult α × MPMCQueue α Size)
  | .tryEnqueue value => (Q.tryEnqueue value fuel).map fun r => (.enqueued r.1, r.2)
  | .tryDequeue => (Q.tryDequeue fuel).map fun r => (.dequeued r.1, r.2)
  | .enqueue value maxRetries => (Q.enqueue value fuel maxRetries).map fun r => (.enqueued r.1, r.2)
  | .dequeue maxRetries => (Q.dequeue fuel maxRetries).map fun r => (.dequeued r.1, r.2)

/-- A thread's calls in order; `none` if one of them does not return within its fuel. -/
def run (Q : MPMCQueue α Size) (fuel : Nat) :
    List (QueueCall α) → Option (List (QueueResult α) × MPMCQueue α Size)
  | [] => some ([], Q)
  | c :: cs => do
    let (r, Q) ← Q.call fuel c
    let (rs, Q) ← Q.run fuel cs
    pure (r :: rs, Q)

end MPMCQueue

end Micromatch.Utils
