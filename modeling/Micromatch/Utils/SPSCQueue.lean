import Mathlib

namespace Micromatch.Utils

/-- `SPSCQueue::Node`: the link to the next node and the item. -/
structure SpscNode (α : Type) where
  next : Option Nat
  data : α
  deriving DecidableEq, Repr

/-- `SPSCQueue<T>`: the nodes by address, with `head_`, `tail_`, `cached_head_` and
`cached_tail_`. Addresses are never reused: the node `dequeue` deletes stays in the list. -/
structure SPSCQueue (α : Type) where
  nodes : List (SpscNode α)
  head : Nat
  tail : Nat
  cachedHead : Nat
  cachedTail : Nat
  deriving DecidableEq, Repr

namespace SPSCQueue

variable {α : Type} [Inhabited α]

/-- The constructor: one dummy node with default data, every pointer at it. -/
def create : SPSCQueue α := ⟨[⟨none, default⟩], 0, 0, 0, 0⟩

/-- The node at address `p`. -/
def node (q : SPSCQueue α) (p : Nat) : SpscNode α := q.nodes.getD p ⟨none, default⟩

/-- `new Node(value)`: the node at a fresh address, unlinked. -/
def alloc (q : SPSCQueue α) (value : α) : Nat × SPSCQueue α :=
  (q.nodes.length, { q with nodes := q.nodes ++ [⟨none, value⟩] })

/-- `p->next.store(n)`. -/
def storeNext (q : SPSCQueue α) (p n : Nat) : SPSCQueue α :=
  { q with nodes := q.nodes.set p { q.node p with next := some n } }

/-- `empty()`: the node at `head_` has no successor. -/
def empty (q : SPSCQueue α) : Bool := (q.node q.head).next.isNone

/-- The loop of `size_approx()` from the node `current`, following at most `fuel` links: the
number of nodes after it; `none` if the fuel runs out first. -/
def sizeApproxFrom (q : SPSCQueue α) : Nat → Nat → Option Nat
  | 0, _ => none
  | fuel + 1, current =>
    match (q.node current).next with
    | none => some 0
    | some next => (q.sizeApproxFrom fuel next).map (· + 1)

/-- `size_approx()`, walking from `head_`. -/
def sizeApprox (q : SPSCQueue α) (fuel : Nat) : Option Nat := q.sizeApproxFrom fuel q.head

end SPSCQueue

end Micromatch.Utils
