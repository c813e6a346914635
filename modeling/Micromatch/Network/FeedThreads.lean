import Micromatch.Network.FeedSimulator
import Micromatch.Utils.SPSCThreads

namespace Micromatch.Network
open Micromatch.Utils

/-- `MarketDataUpdate()`: a `QUOTE` with a value-initialized quote. -/
instance : Inhabited MarketDataUpdate := ⟨.quote default⟩

/-- The simulator: `feed_id_`, `sequence_number_`, `pending_updates_` with the two threads in
it, and the worker with how many of its completed `dequeue` calls it has acted on. -/
structure FeedThreads where
  feedId : Char
  sequenceNumber : UInt64
  pending : SpscSystem MarketDataUpdate
  worker : FeedWorker
  handled : Nat

/-- What the scheduler lets happen next. -/
inductive FeedAction where
  /-- `publish_quote(symbol_id, bid, ask, bid_size, ask_size)` begins; `timestampNs` is the
  clock reading of the `Quote` constructor. -/
  | publishQuote (symbolId : UInt64) (bid ask : Int) (bidSize askSize : UInt32)
      (timestampNs : UInt64)
  /-- `publish_trade(symbol_id, price, quantity, is_buy)` begins. -/
  | publishTrade (symbolId : UInt64) (price : Int) (quantity : UInt32) (isBuy : Bool)
      (timestampNs : UInt64)
  /-- The next step of the publisher's `enqueue`. -/
  | stepPublisher
  /-- The worker calls `pending_updates_.dequeue()`. -/
  | dequeue
  /-- The next step of the worker's `dequeue`. -/
  | stepWorker
  /-- The worker acts on what its `dequeue` returned: it sleeps on `nullopt`; else `drop` is
  `should_drop_packet()` and `now` the clock after `inject_latency()`. -/
  | handle (drop : Bool) (now : Int)

namespace FeedThreads

/-- `FeedSimulator(feed_id, config)` with `config.sequence_start`, and `set_callback` made or
not. -/
def create (feedId : Char) (sequenceStart : UInt64) (callback : Bool) : FeedThreads :=
  ⟨feedId, sequenceStart, SpscSystem.create, FeedWorker.create callback, 0⟩

/-- Stamp `update` with the next sequence number and start its `enqueue`. -/
def publish (s : FeedThreads) (update : MarketDataUpdate) : Option FeedThreads :=
  (s.pending.next (.startEnqueue update)).map fun pending =>
    { s with sequenceNumber := s.sequenceNumber + 1, pending }

/-- The turn of `worker_loop` for the result of a completed `dequeue`. -/
def turnOf (result : Option MarketDataUpdate) (drop : Bool) (now : Int) : WorkerInput :=
  match result with
  | none => .idle
  | some update => .update update drop now

/-- One scheduled action; `none` when it is not enabled. -/
def next (s : FeedThreads) : FeedAction → Option FeedThreads
  | .publishQuote symbolId bid ask bidSize askSize timestampNs =>
    s.publish (.quote ⟨symbolId, bid, ask, bidSize, askSize, timestampNs, s.sequenceNumber,
      s.feedId⟩)
  | .publishTrade symbolId price quantity isBuy timestampNs =>
    s.publish (.trade ⟨symbolId, price, quantity, timestampNs, s.sequenceNumber, s.feedId, isBuy⟩)
  | .stepPublisher => (s.pending.next .stepProducer).map fun pending => { s with pending }
  | .dequeue =>
    if s.handled = s.pending.returns.length then
      (s.pending.next .startDequeue).map fun pending => { s with pending }
    else none
  | .stepWorker => (s.pending.next .stepConsumer).map fun pending => { s with pending }
  | .handle drop now =>
    match s.pending.returns[s.handled]? with
    | some (result, _) =>
      some { s with worker := s.worker.turn (turnOf result drop now), handled := s.handled + 1 }
    | none => none

/-- A schedule of actions, taken in order; `none` when one of them is not enabled. -/
def runActions (s : FeedThreads) : List FeedAction → Option FeedThreads
  | [] => some s
  | a :: as => (s.next a).bind (runActions · as)

end FeedThreads

end Micromatch.Network
