import Micromatch.Core.OrderBook

namespace Micromatch.Core

/-- `struct OrderRequest`, by its `type`: the fields each kind of request reads. -/
inductive OrderRequest where
  | newOrder (order : Order)
  | cancelOrder (symbolId orderId : UInt64)
  | modifyOrder (symbolId orderId : UInt64) (newPrice : Int) (newQuantity : UInt32)
  deriving DecidableEq, Repr

/-- `struct MatchingEngineStats`: relaxed `std::atomic<uint64_t>` counters. -/
structure MatchingEngineStats where
  totalOrders : UInt64
  totalTrades : UInt64
  totalVolume : UInt64
  rejectedOrders : UInt64
  cancelledOrders : UInt64
  modifiedOrders : UInt64
  deriving DecidableEq, Repr

/-- A call of a callback the client installed, as the worker makes it. -/
inductive CallbackEvent where
  | order (order : Order) (accepted : Bool)
  | trade (trade : Trade)
  deriving DecidableEq, Repr

/-- `class MatchingEngineImpl` as its worker sees it: `order_books_`, whether each callback is
installed (a `std::function` that is not empty), `stats_`, and the callback calls made so far. -/
structure MatchingEngineImpl where
  orderBooks : List (UInt64 × OrderBookImpl)
  tradeCallback : Bool
  orderCallback : Bool
  stats : MatchingEngineStats
  events : List CallbackEvent

/-- `create_matching_engine()`: no books, no callbacks, zero counters. -/
def createMatchingEngine : MatchingEngineImpl :=
  ⟨[], false, false, ⟨0, 0, 0, 0, 0, 0⟩, []⟩

namespace MatchingEngineImpl

/-- Call `order_callback_` if one is installed. -/
def notifyOrder (E : MatchingEngineImpl) (order : Order) (accepted : Bool) : MatchingEngineImpl :=
  if E.orderCallback then { E with events := E.events ++ [.order order accepted] } else E

/-- One turn of the loop over the trades `add_order` returned: count the trade and its
quantity, then call `trade_callback_` if one is installed. -/
def reportTrade (E : MatchingEngineImpl) (trade : Trade) : MatchingEngineImpl :=
  let E := { E with
    stats := { E.stats with
      totalTrades := E.stats.totalTrades + 1
      totalVolume := E.stats.totalVolume + trade.quantity.toUInt64 } }
  if E.tradeCallback then { E with events := E.events ++ [.trade trade] } else E

/-- `process_new_order`. -/
def processNewOrder (E : MatchingEngineImpl) (order : Order) : MatchingEngineImpl :=
  let E := { E with stats := { E.stats with totalOrders := E.stats.totalOrders + 1 } }
  match lookup E.orderBooks order.symbolId with
  | none =>
    let E := { E with stats := { E.stats with rejectedOrders := E.stats.rejectedOrders + 1 } }
    E.notifyOrder order false
  | some book =>
    let (trades, book) := book.addOrder order
    let E := { E with orderBooks := assign E.orderBooks order.symbolId book }
    let E := E.notifyOrder order true
    trades.foldl reportTrade E

/-- `process_cancel_order`. -/
def processCancelOrder (E : MatchingEngineImpl) (symbolId orderId : UInt64) : MatchingEngineImpl :=
  match lookup E.orderBooks symbolId with
  | none => E
  | some book =>
    let (cancelled, book) := book.cancelOrder orderId
    let E := { E with orderBooks := assign E.orderBooks symbolId book }
    if cancelled then
      { E with stats := { E.stats with cancelledOrders := E.stats.cancelledOrders + 1 } }
    else E

/-- `process_modify_order`; `now` is the clock reading `modify_order` takes. -/
def processModifyOrder (E : MatchingEngineImpl) (symbolId orderId : UInt64) (newPrice : Int)
    (newQuantity : UInt32) (now : UInt64) : MatchingEngineImpl :=
  match lookup E.orderBooks symbolId with
  | none => E
  | some book =>
    let (modified, book) := book.modifyOrder orderId newPrice newQuantity now
    let E := { E with orderBooks := assign E.orderBooks symbolId book }
    if modified.isSome then
      { E with stats := { E.stats with modifiedOrders := E.stats.modifiedOrders + 1 } }
    else E

/-- `process_order_request`. -/
def processOrderRequest (E : MatchingEngineImpl) (request : OrderRequest) (now : UInt64) :
    MatchingEngineImpl :=
  match request with
  | .newOrder order => E.processNewOrder order
  | .cancelOrder symbolId orderId => E.processCancelOrder symbolId orderId
  | .modifyOrder symbolId orderId newPrice newQuantity =>
    E.processModifyOrder symbolId orderId newPrice newQuantity now

/-- The worker processing requests in dequeue order, each with the clock reading it takes. -/
def processRequests (E : MatchingEngineImpl) (requests : List (OrderRequest × UInt64)) :
    MatchingEngineImpl :=
  requests.foldl (fun E r => E.processOrderRequest r.1 r.2) E

/-- `register_symbol`. -/
def registerSymbol (E : MatchingEngineImpl) (symbolId : UInt64) : Bool × MatchingEngineImpl :=
  if (lookup E.orderBooks symbolId).isSome then (false, E)
  else (true, { E with orderBooks := assign E.orderBooks symbolId (createOrderBook symbolId) })

/-- `unregister_symbol`: the book is cleared and then destroyed with its entry. -/
def unregisterSymbol (E : MatchingEngineImpl) (symbolId : UInt64) : Bool × MatchingEngineImpl :=
  if (lookup E.orderBooks symbolId).isSome then
    (true, { E with orderBooks := eraseKey E.orderBooks symbolId })
  else (false, E)

def setTradeCallback (E : MatchingEngineImpl) (installed : Bool) : MatchingEngineImpl :=
  { E with tradeCallback := installed }

def setOrderCallback (E : MatchingEngineImpl) (installed : Bool) : MatchingEngineImpl :=
  { E with orderCallback := installed }

/-- `clear_all_books`. -/
def clearAllBooks (E : MatchingEngineImpl) : MatchingEngineImpl :=
  { E with orderBooks := E.orderBooks.map fun e => (e.1, e.2.clear) }

end MatchingEngineImpl

end Micromatch.Core
