import Micromatch.Core.Order
import Micromatch.Network.Arbitrage

namespace Micromatch.Network
open Micromatch.Core

/-- The state `FeedHandler`'s callbacks change: `arbitrage_detector_`, `generate_order_id`'s
counter, which no other handler draws from during a run, and the orders passed to
`matching_engine_->submit_order`. The calls of a run are in the order they took the detector's
mutex. -/
structure FeedHandler where
  arbitrageDetector : ArbitrageDetector
  nextId : UInt64
  submitted : List Order

/-- One call of `process_feed_update(feed_id, update, stats)`: `now` is the clock reading of
`on_feed_update`; `Order()` leaves `timestamp_ns` unset, so the two orders' are inputs. -/
structure FeedCall where
  feedId : Char
  update : MarketDataUpdate
  now : UInt64
  bidTimestamp : UInt64
  askTimestamp : UInt64

namespace FeedHandler

/-- `FeedHandler(matching_engine)`: `setup_callbacks` installs the detector's callback.
`generate_order_id`'s `next_id` is a function-local static, set to 1000000 once per process and
shared by every handler: `nextId` is the value it has reached. -/
def create (nextId : UInt64) : FeedHandler := ⟨ArbitrageDetector.create.setCallback, nextId, []⟩

/-- `generate_order_id()`: `next_id.fetch_add(1)`. -/
def generateOrderId (H : FeedHandler) : UInt64 × FeedHandler :=
  (H.nextId, { H with nextId := H.nextId + 1 })

/-- An `Order()` filled in with a fresh id, the quote's symbol, a side, price and size, passed
to `submit_order`. -/
def submitOrder (H : FeedHandler) (symbolId : UInt64) (side : Side) (price : Int)
    (quantity : UInt32) (timestampNs : UInt64) : FeedHandler :=
  let (orderId, H) := H.generateOrderId
  { H with submitted := H.submitted ++ [⟨orderId, symbolId, price, quantity, timestampNs, side⟩] }

/-- `process_feed_update(feed_id, update, stats)`; `stats` is not read. -/
def processFeedUpdate (H : FeedHandler) (call : FeedCall) : FeedHandler :=
  let H := { H with
    arbitrageDetector := (H.arbitrageDetector.onFeedUpdate call.feedId call.update call.now).2 }
  match call.feedId, call.update with
  | 'A', .quote quote =>
    let H := if quote.bidPrice > 0 ∧ quote.bidSize > 0 then
      H.submitOrder quote.symbolId .BUY quote.bidPrice quote.bidSize call.bidTimestamp else H
    if quote.askPrice > 0 ∧ quote.askSize > 0 then
      H.submitOrder quote.symbolId .SELL quote.askPrice quote.askSize call.askTimestamp else H
  | _, _ => H

/-- The handler's calls in the order they took the detector's mutex. -/
def run (H : FeedHandler) (calls : List FeedCall) : FeedHandler :=
  calls.foldl processFeedUpdate H

end FeedHandler

end Micromatch.Network
