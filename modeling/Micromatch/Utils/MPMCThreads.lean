import Micromatch.Utils.MPMCQueue

namespace Micromatch.Utils

/-- Where a thread is in its call: at `enqCas` or `deqCas` it has seen a zero `diff` at `pos`, and
from `enqWrite` to `enqPublish` (`deqRead` to `deqRelease`) it owns the cell of `pos`. -/
inductive RingPc (α : Type) where
  | idle
  | enqLoadPos (value : α)
  | enqLoadSeq (value : α) (pos : UInt64)
  | enqCas (value : α) (pos : UInt64)
  | enqWrite (value : α) (pos : UInt64)
  | enqPublish (value : α) (pos : UInt64)
  | deqLoadPos
  | deqLoadSeq (pos : UInt64)
  | deqCas (pos : UInt64)
  | deqRead (pos : UInt64)
  | deqRelease (pos : UInt64) (value : α)
  deriving DecidableEq, Repr

/-- The ring shared by `threads`, with the ghost state: `unread` marks the cells (by masked
index) whose item has been published and not yet read; `enqueued` lists the values of the
`try_enqueue` calls that returned `true`, `dequeued` the values `try_dequeue` returned. -/
structure RingSystem (α : Type) (Size : Nat) where
  ring : MPMCQueue α Size
  threads : List (RingPc α)
  unread : UInt64 → Bool
  enqueued : List α
  dequeued : List α

/-- What the scheduler lets happen next: an idle thread starts a call, or a thread in a call
takes its next step. -/
inductive RingAction (α : Type) where
  | startEnqueue (thread : Nat) (value : α)
  | startDequeue (thread : Nat)
  | step (thread : Nat)

namespace RingSystem

variable {α : Type} {Size : Nat}

/-- A fresh ring shared by `n` idle threads. -/
def create [Inhabited α] (Size n : Nat) : RingSystem α Size :=
  ⟨MPMCQueue.create Size, List.replicate n .idle, fun _ => false, [], []⟩

/-- Thread `t` moves to `pc`. -/
def setPc (s : RingSystem α Size) (t : Nat) (pc : RingPc α) : RingSystem α Size :=
  { s with threads := s.threads.set t pc }

/-- One atomic step of a thread at `pc`, as it changes the whole state. -/
def stepAt (s : RingSystem α Size) (t : Nat) : RingPc α → Option (RingSystem α Size)
  | .idle => none
  | .enqLoadPos value => some (s.setPc t (.enqLoadSeq value s.ring.enqueuePos))
  | .enqLoadSeq value pos =>
    let diff := intptrDiff (s.ring.cell pos).sequence pos
    if diff = 0 then some (s.setPc t (.enqCas value pos))
    else if diff < 0 then some (s.setPc t .idle)
    else some (s.setPc t (.enqLoadPos value))
  | .enqCas value pos =>
    if s.ring.enqueuePos = pos then
      some ({ s.setPc t (.enqWrite value pos) with
        ring := { s.ring with enqueuePos := pos + 1 } })
    else some (s.setPc t (.enqLoadSeq value s.ring.enqueuePos))
  | .enqWrite value pos =>
    some ({ s.setPc t (.enqPublish value pos) with
      ring := s.ring.setCell pos ⟨(s.ring.cell pos).sequence, value⟩ })
  | .enqPublish value pos =>
    some ({ s.setPc t .idle with
      ring := s.ring.setCell pos ⟨pos + 1, (s.ring.cell pos).data⟩
      unread := Function.update s.unread (pos &&& mask Size) true
      enqueued := s.enqueued ++ [value] })
  | .deqLoadPos => some (s.setPc t (.deqLoadSeq s.ring.dequeuePos))
  | .deqLoadSeq pos =>
    let diff := intptrDiff (s.ring.cell pos).sequence (pos + 1)
    if diff = 0 then some (s.setPc t (.deqCas pos))
    else if diff < 0 then some (s.setPc t .idle)
    else some (s.setPc t .deqLoadPos)
  | .deqCas pos =>
    if s.ring.dequeuePos = pos then
      some ({ s.setPc t (.deqRead pos) with
        ring := { s.ring with dequeuePos := pos + 1 } })
    else some (s.setPc t (.deqLoadSeq s.ring.dequeuePos))
  | .deqRead pos =>
    some ({ s.setPc t (.deqRelease pos (s.ring.cell pos).data) with
      unread := Function.update s.unread (pos &&& mask Size) false })
  | .deqRelease pos value =>
    some ({ s.setPc t .idle with
      ring := s.ring.setCell pos ⟨pos + UInt64.ofNat Size, (s.ring.cell pos).data⟩
      dequeued := s.dequeued ++ [value] })

/-- One scheduled action; `none` when it is not enabled. -/
def next (s : RingSystem α Size) : RingAction α → Option (RingSystem α Size)
  | .startEnqueue t value =>
    match s.threads[t]? with
    | some .idle => some (s.setPc t (.enqLoadPos value))
    | _ => none
  | .startDequeue t =>
    match s.threads[t]? with
    | some .idle => some (s.setPc t .deqLoadPos)
    | _ => none
  | .step t => s.threads[t]?.bind (s.stepAt t)

/-- A schedule of actions, taken in order; `none` when one of them is not enabled. -/
def runActions (s : RingSystem α Size) : List (RingAction α) → Option (RingSystem α Size)
  | [] => some s
  | a :: as => (s.next a).bind (runActions · as)

/-- The states some schedule reaches from a fresh ring shared by some number of threads. -/
inductive Reachable [Inhabited α] : RingSystem α Size → Prop
  | create (n : Nat) : Reachable (RingSystem.create Size n)
  | next {s s' : RingSystem α Size} (a : RingAction α) :
      Reachable s → s.next a = some s' → Reachable s'

end RingSystem

end Micromatch.Utils
