import Micromatch.Utils.SPSCQueue

namespace Micromatch.Utils

/-- Where the producer is in `enqueue(value)`, after `new Node(value)` made `node`. -/
inductive SpscProducerPc where
  | idle
  /-- Next: load `cached_tail_`. -/
  | loadTail (node : Nat)
  /-- Next: `cached_tail_->next.store(new_node)`, with `tail` the value loaded. -/
  | link (node tail : Nat)
  /-- Next: `cached_tail_ = new_node`. -/
  | storeCachedTail (node : Nat)
  /-- Next: `tail_.store(new_node)`. -/
  | storeTail (node : Nat)
  deriving DecidableEq, Repr

/-- Where the consumer is in `dequeue()`, with its locals `head`, `next` and `data`, and a ghost
`seen`: how many link stores had completed when the call began. -/
inductive SpscConsumerPc (α : Type) where
  | idle
  /-- Next: `next = head->next.load()`. -/
  | loadNext (seen head : Nat)
  /-- The link was null. Next: `head = head_.load()`. -/
  | loadHead (seen head : Nat)
  /-- Next: compare `head` with `cached_head_`; equal, return `nullopt`. -/
  | compareCachedHead (seen head : Nat)
  /-- Next: `cached_head_ = head`. -/
  | storeCachedHead (seen head : Nat)
  /-- Next: `next = head->next.load()`; null, return `nullopt`. -/
  | reloadNext (seen head : Nat)
  /-- Next: `T data = std::move(next->data)`. -/
  | readData (seen head next : Nat)
  /-- Next: `head_.store(next)`. -/
  | storeHead (seen head next : Nat) (data : α)
  /-- Next: `cached_head_ = next`. -/
  | storeCachedHeadNext (seen head next : Nat) (data : α)
  /-- Next: `delete head`, then return `data`. -/
  | delete (seen head : Nat) (data : α)
  deriving DecidableEq, Repr

namespace SpscConsumerPc

variable {α : Type}

/-- The ghost `seen` of the call in progress. -/
def seen : SpscConsumerPc α → Nat
  | .idle => 0
  | .loadNext seen _ | .loadHead seen _ | .compareCachedHead seen _ | .storeCachedHead seen _
  | .reloadNext seen _ | .readData seen _ _ | .storeHead seen _ _ _
  | .storeCachedHeadNext seen _ _ _ | .delete seen _ _ => seen

/-- The value the call has moved `head_` past and not yet returned. -/
def taken : SpscConsumerPc α → Option α
  | .storeCachedHeadNext _ _ _ data | .delete _ _ data => some data
  | _ => none

end SpscConsumerPc

namespace SPSCQueue

variable {α : Type} [Inhabited α]

/-- One step of `dequeue()` from `pc`: the queue and point it leaves, and, when the call
returns, its result with its `seen`. -/
def dequeueStep (q : SPSCQueue α) : SpscConsumerPc α →
    Option (SPSCQueue α × SpscConsumerPc α × Option (Option α × Nat))
  | .idle => none
  | .loadNext seen head =>
    match (q.node head).next with
    | none => some (q, .loadHead seen head, none)
    | some next => some (q, .readData seen head next, none)
  | .loadHead seen _ => some (q, .compareCachedHead seen q.head, none)
  | .compareCachedHead seen head =>
    if head = q.cachedHead then some (q, .idle, some (none, seen))
    else some (q, .storeCachedHead seen head, none)
  | .storeCachedHead seen head => some ({ q with cachedHead := head }, .reloadNext seen head, none)
  | .reloadNext seen head =>
    match (q.node head).next with
    | none => some (q, .idle, some (none, seen))
    | some next => some (q, .readData seen head next, none)
  | .readData seen head next => some (q, .storeHead seen head next (q.node next).data, none)
  | .storeHead seen head next data =>
    some ({ q with head := next }, .storeCachedHeadNext seen head next data, none)
  | .storeCachedHeadNext seen head next data =>
    some ({ q with cachedHead := next }, .delete seen head data, none)
  | .delete seen _ data => some (q, .idle, some (some data, seen))

end SPSCQueue

/-- The queue, the two threads, and the ghost state: `enqueued` lists the values passed to
`enqueue` whose node is allocated, `linked` those whose link store has completed, and `returns`
what each completed `dequeue` returned, with the `seen` of its call. -/
structure SpscSystem (α : Type) where
  queue : SPSCQueue α
  producer : SpscProducerPc
  consumer : SpscConsumerPc α
  enqueued : List α
  linked : List α
  returns : List (Option α × Nat)

/-- What the scheduler lets happen next. -/
inductive SpscAction (α : Type) where
  /-- The producer calls `enqueue(value)`, whose first step is `new Node(value)`. -/
  | startEnqueue (value : α)
  /-- The consumer calls `dequeue()`, whose first step reads `cached_head_`. -/
  | startDequeue
  | stepProducer
  | stepConsumer

namespace SpscSystem

variable {α : Type} [Inhabited α]

/-- A fresh queue, both threads idle. -/
def create : SpscSystem α := ⟨SPSCQueue.create, .idle, .idle, [], [], []⟩

/-- The values the completed `dequeue` calls returned, in order. -/
def returned (s : SpscSystem α) : List α := s.returns.filterMap Prod.fst

/-- One step of the producer. -/
def producerStep (s : SpscSystem α) : SpscProducerPc → Option (SpscSystem α)
  | .idle => none
  | .loadTail node => some { s with producer := .link node s.queue.cachedTail }
  | .link node tail =>
    some { s with
      queue := s.queue.storeNext tail node
      producer := .storeCachedTail node
      linked := s.linked ++ [(s.queue.node node).data] }
  | .storeCachedTail node =>
    some { s with queue := { s.queue with cachedTail := node }, producer := .storeTail node }
  | .storeTail node => some { s with queue := { s.queue with tail := node }, producer := .idle }

/-- One step of the consumer: the step of `dequeue` its point names, and the result with
`seen` when the call returns. -/
def consumerStep (s : SpscSystem α) (pc : SpscConsumerPc α) : Option (SpscSystem α) :=
  match s.queue.dequeueStep pc with
  | none => none
  | some (queue, consumer, none) => some { s with queue, consumer }
  | some (queue, consumer, some result) =>
    some { s with queue, consumer, returns := s.returns ++ [result] }

/-- One scheduled action; `none` when it is not enabled. -/
def next (s : SpscSystem α) : SpscAction α → Option (SpscSystem α)
  | .startEnqueue value =>
    match s.producer with
    | .idle =>
      let (node, queue) := s.queue.alloc value
      some { s with queue := queue, producer := .loadTail node, enqueued := s.enqueued ++ [value] }
    | _ => none
  | .startDequeue =>
    match s.consumer with
    | .idle => some { s with consumer := .loadNext s.linked.length s.queue.cachedHead }
    | _ => none
  | .stepProducer => s.producerStep s.producer
  | .stepConsumer => s.consumerStep s.consumer

/-- A schedule of actions, taken in order; `none` when one of them is not enabled. -/
def runActions (s : SpscSystem α) : List (SpscAction α) → Option (SpscSystem α)
  | [] => some s
  | a :: as => (s.next a).bind (runActions · as)

/-- The states some interleaving reaches from a fresh queue. -/
inductive Reachable : SpscSystem α → Prop
  | create : Reachable create
  | next {s s' : SpscSystem α} (a : SpscAction α) : Reachable s → s.next a = some s' → Reachable s'

/-- Neither thread is inside a call. -/
def Quiescent (s : SpscSystem α) : Prop := s.producer = .idle ∧ s.consumer = .idle

end SpscSystem

end Micromatch.Utils
