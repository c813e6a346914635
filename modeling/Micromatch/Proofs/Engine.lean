import Micromatch.Core.Engine
import Micromatch.Proofs.TradeIds

namespace Micromatch.Core

/-- The `trade_callback_` call an event is, if it is one. -/
def CallbackEvent.tradeCall? : CallbackEvent → Option Trade
  | .order _ _ => none
  | .trade t => some t

/-- Whether `order_books_` holds a book for the symbol. -/
def MatchingEngineImpl.registered (E : MatchingEngineImpl) (symbolId : UInt64) : Bool :=
  (lookup E.orderBooks symbolId).isSome

/-- The trades `add_order` makes for a `NEW_ORDER`, none if the symbol has no book. -/
def MatchingEngineImpl.newOrderTrades (E : MatchingEngineImpl) (order : Order) : List Trade :=
  match lookup E.orderBooks order.symbolId with
  | none => []
  | some book => (book.addOrder order).1

/-- The order of a `NEW_ORDER` request. -/
def OrderRequest.newOrder? : OrderRequest → Option Order
  | .newOrder order => some order
  | _ => none

end Micromatch.Core

namespace Micromatch.Proofs
open Micromatch.Core MatchingEngineImpl

theorem keys_assign_of_mem {α β : Type} [DecidableEq α] {m : List (α × β)} {k : α}
    (h : k ∈ keys m) (v : β) : keys (assign m k v) = keys m := by
  rw [assign, if_pos h, keys, keys, List.map_map]
  congr 1
  funext e
  by_cases he : e.1 = k <;> simp [he]

section Worker

variable (E : MatchingEngineImpl)

/-- The loop over `add_order`'s trades counts each, adds its quantity to the volume, and calls
`trade_callback_` on each if one is installed. -/
theorem foldl_reportTrade (trades : List Trade) :
    trades.foldl reportTrade E = { E with
      stats := { E.stats with
        totalTrades := E.stats.totalTrades + UInt64.ofNat trades.length
        totalVolume := E.stats.totalVolume + (trades.map fun t => t.quantity.toUInt64).sum }
      events := E.events ++ if E.tradeCallback then trades.map .trade else [] } := by
  induction trades generalizing E with
  | nil => simp
  | cons t trades ih =>
    rw [List.foldl_cons, ih]
    cases h : E.tradeCallback <;>
      simp [reportTrade, h, UInt64.ofNat_succ, add_assoc, add_comm]

/-- What `process_new_order` adds to the callback calls: the order's, then one per trade. -/
theorem processNewOrder_events (order : Order) :
    (E.processNewOrder order).events = E.events ++
      ((if E.orderCallback then [.order order (E.registered order.symbolId)] else []) ++
        if E.tradeCallback then (E.newOrderTrades order).map .trade else []) := by
  unfold processNewOrder newOrderTrades registered
  cases h : lookup E.orderBooks order.symbolId <;>
    cases hc : E.orderCallback <;> simp [notifyOrder, foldl_reportTrade, h, hc]

theorem processNewOrder_stats (order : Order) :
    (E.processNewOrder order).stats.totalTrades =
        E.stats.totalTrades + UInt64.ofNat (E.newOrderTrades order).length ∧
      (E.processNewOrder order).stats.totalVolume =
        E.stats.totalVolume + ((E.newOrderTrades order).map fun t => t.quantity.toUInt64).sum := by
  unfold processNewOrder newOrderTrades
  cases h : lookup E.orderBooks order.symbolId <;>
    cases hc : E.orderCallback <;> simp [notifyOrder, foldl_reportTrade, h, hc]

/-- A request changes neither the installed callbacks nor which symbols have a book. -/
theorem processOrderRequest_frame (request : OrderRequest) (now : UInt64) :
    (E.processOrderRequest request now).orderCallback = E.orderCallback ∧
      (E.processOrderRequest request now).tradeCallback = E.tradeCallback ∧
      keys (E.processOrderRequest request now).orderBooks = keys E.orderBooks := by
  have hkeys : ∀ {k : UInt64} {B₀ : OrderBookImpl}, lookup E.orderBooks k = some B₀ →
      ∀ B, keys (assign E.orderBooks k B) = keys E.orderBooks :=
    fun h B => keys_assign_of_mem (lookup_isSome.mp (by simp [h])) B
  cases request with
  | newOrder order =>
    unfold processOrderRequest processNewOrder
    cases h : lookup E.orderBooks order.symbolId with
    | none => cases hc : E.orderCallback <;> simp [notifyOrder, h, hc]
    | some book =>
      cases hc : E.orderCallback <;> simp [notifyOrder, foldl_reportTrade, h, hc, hkeys h]
  | cancelOrder symbolId orderId =>
    unfold processOrderRequest processCancelOrder
    cases h : lookup E.orderBooks symbolId with
    | none => simp [h]
    | some book =>
      simp only [h]
      split_ifs <;> simp [hkeys h]
  | modifyOrder symbolId orderId newPrice newQuantity =>
    unfold processOrderRequest processModifyOrder
    cases h : lookup E.orderBooks symbolId with
    | none => simp [h]
    | some book =>
      simp only [h]
      split_ifs <;> simp [hkeys h]

theorem registered_processOrderRequest (request : OrderRequest) (now : UInt64) :
    (E.processOrderRequest request now).registered = E.registered := by
  funext k
  rw [registered, registered, Bool.eq_iff_iff, lookup_isSome, lookup_isSome,
    (processOrderRequest_frame E request now).2.2]

/-- `CANCEL_ORDER` and `MODIFY_ORDER` call no callback and leave the trade counters alone. -/
theorem processCancelOrder_quiet (symbolId orderId : UInt64) :
    (E.processCancelOrder symbolId orderId).events = E.events ∧
      (E.processCancelOrder symbolId orderId).stats.totalTrades = E.stats.totalTrades ∧
      (E.processCancelOrder symbolId orderId).stats.totalVolume = E.stats.totalVolume := by
  unfold processCancelOrder
  cases h : lookup E.orderBooks symbolId with
  | none => simp
  | some book =>
    simp only [h]
    split_ifs <;> simp

theorem processModifyOrder_quiet (symbolId orderId : UInt64) (newPrice : Int)
    (newQuantity : UInt32) (now : UInt64) :
    (E.processModifyOrder symbolId orderId newPrice newQuantity now).events = E.events ∧
      (E.processModifyOrder symbolId orderId newPrice newQuantity now).stats.totalTrades =
        E.stats.totalTrades ∧
      (E.processModifyOrder symbolId orderId newPrice newQuantity now).stats.totalVolume =
        E.stats.totalVolume := by
  unfold processModifyOrder
  cases h : lookup E.orderBooks symbolId with
  | none => simp
  | some book =>
    simp only [h]
    split_ifs <;> simp

/-- The callback calls and trade counters one request adds: with `trade_callback_` installed,
`total_trades` and `total_volume` grow by the number and the quantity of the trades reported. -/
theorem processOrderRequest_tradeCalls (request : OrderRequest) (now : UInt64)
    (htc : E.tradeCallback = true) :
    ∃ added, (E.processOrderRequest request now).events = E.events ++ added ∧
      (E.processOrderRequest request now).stats.totalTrades =
        E.stats.totalTrades + UInt64.ofNat (added.filterMap CallbackEvent.tradeCall?).length ∧
      (E.processOrderRequest request now).stats.totalVolume = E.stats.totalVolume +
        ((added.filterMap CallbackEvent.tradeCall?).map fun t => t.quantity.toUInt64).sum := by
  cases request with
  | newOrder order =>
    obtain ⟨h1, h2⟩ := processNewOrder_stats E order
    refine ⟨_, processNewOrder_events E order, ?_⟩
    cases E.orderCallback <;>
      simp [processOrderRequest, htc, h1, h2, List.filterMap_append, CallbackEvent.tradeCall?,
        List.filterMap_map, Function.comp_def]
  | cancelOrder symbolId orderId =>
    obtain ⟨h1, h2, h3⟩ := processCancelOrder_quiet E symbolId orderId
    exact ⟨[], by simpa using h1, by simpa using h2, by simpa using h3⟩
  | modifyOrder symbolId orderId newPrice newQuantity =>
    obtain ⟨h1, h2, h3⟩ := processModifyOrder_quiet E symbolId orderId newPrice newQuantity now
    exact ⟨[], by simpa using h1, by simpa using h2, by simpa using h3⟩

/-- The two counters one request moves: each by at most its `NEW_ORDER`. -/
theorem processOrderRequest_orderCounters (request : OrderRequest) (now : UInt64) :
    (E.processOrderRequest request now).stats.totalOrders =
        E.stats.totalOrders + UInt64.ofNat request.newOrder?.toList.length ∧
      (E.processOrderRequest request now).stats.rejectedOrders = E.stats.rejectedOrders +
        UInt64.ofNat (request.newOrder?.toList.filter fun o => !E.registered o.symbolId).length := by
  cases request with
  | newOrder o =>
    unfold processOrderRequest processNewOrder registered
    cases h : lookup E.orderBooks o.symbolId <;> cases hc : E.orderCallback <;>
      simp [notifyOrder, foldl_reportTrade, h, hc, OrderRequest.newOrder?]
  | cancelOrder symbolId orderId =>
    dsimp only [processOrderRequest, processCancelOrder]
    split
    · simp [OrderRequest.newOrder?]
    · split <;> simp [OrderRequest.newOrder?]
  | modifyOrder symbolId orderId newPrice newQuantity =>
    dsimp only [processOrderRequest, processModifyOrder]
    split
    · simp [OrderRequest.newOrder?]
    · split <;> simp [OrderRequest.newOrder?]

end Worker

/-- Over any sequence of requests, with `trade_callback_` installed, `total_trades` and
`total_volume` grow by the number and the summed quantity of the trades reported to it. -/
theorem processRequests_tradeCalls (E : MatchingEngineImpl) (requests : List (OrderRequest × UInt64))
    (htc : E.tradeCallback = true) :
    ∃ added, (E.processRequests requests).events = E.events ++ added ∧
      (E.processRequests requests).stats.totalTrades =
        E.stats.totalTrades + UInt64.ofNat (added.filterMap CallbackEvent.tradeCall?).length ∧
      (E.processRequests requests).stats.totalVolume = E.stats.totalVolume +
        ((added.filterMap CallbackEvent.tradeCall?).map fun t => t.quantity.toUInt64).sum := by
  induction requests generalizing E with
  | nil => exact ⟨[], by simp [processRequests], by simp [processRequests], by simp [processRequests]⟩
  | cons r requests ih =>
    have hE : (E.processOrderRequest r.1 r.2).processRequests requests = E.processRequests (r :: requests) :=
      rfl
    obtain ⟨-, htc', -⟩ := processOrderRequest_frame E r.1 r.2
    obtain ⟨a₁, e₁, t₁, v₁⟩ := processOrderRequest_tradeCalls E r.1 r.2 htc
    obtain ⟨a₂, e₂, t₂, v₂⟩ := ih (E.processOrderRequest r.1 r.2) (htc'.trans htc)
    rw [← hE]
    refine ⟨a₁ ++ a₂, by rw [e₂, e₁, List.append_assoc], ?_, ?_⟩
    · rw [t₂, t₁, List.filterMap_append, List.length_append, UInt64.ofNat_add, add_assoc]
    · rw [v₂, v₁, List.filterMap_append, List.map_append, List.sum_append, add_assoc]

/-- An offer, then a bid crossing it, with `trade_callback_` installed. -/
theorem crossing_bid_trade_counted :
    let E₀ : MatchingEngineImpl := (createMatchingEngine.registerSymbol 1).2.setTradeCallback true
    let requests : List (OrderRequest × UInt64) :=
      [(.newOrder ⟨1, 1, 100, 5, 0, .SELL⟩, 0), (.newOrder ⟨2, 1, 100, 3, 0, .BUY⟩, 0)]
    E₀.tradeCallback = true ∧ ∃ added, (E₀.processRequests requests).events = E₀.events ++ added ∧
      (E₀.processRequests requests).stats.totalTrades =
        E₀.stats.totalTrades + UInt64.ofNat (added.filterMap CallbackEvent.tradeCall?).length ∧
      (E₀.processRequests requests).stats.totalVolume = E₀.stats.totalVolume +
        ((added.filterMap CallbackEvent.tradeCall?).map fun t => t.quantity.toUInt64).sum :=
  ⟨rfl, processRequests_tradeCalls _ _ rfl⟩

/-- Over any sequence of requests, `total_orders` counts the `NEW_ORDER` requests and
`rejected_orders` those whose symbol has no book, both modulo `2^64`. An order the book turns
away, for a zero quantity, a price not positive or an id already resting, counts in
`total_orders` only. -/
theorem processRequests_orderCounters (E : MatchingEngineImpl)
    (requests : List (OrderRequest × UInt64)) :
    (E.processRequests requests).stats.totalOrders = E.stats.totalOrders +
        UInt64.ofNat (requests.filterMap fun r => r.1.newOrder?).length ∧
      (E.processRequests requests).stats.rejectedOrders = E.stats.rejectedOrders +
        UInt64.ofNat ((requests.filterMap fun r => r.1.newOrder?).filter
          fun o => !E.registered o.symbolId).length := by
  induction requests generalizing E with
  | nil => simp [processRequests]
  | cons r requests ih =>
    have hE : (E.processOrderRequest r.1 r.2).processRequests requests =
        E.processRequests (r :: requests) := rfl
    obtain ⟨h₁, h₂⟩ := processOrderRequest_orderCounters E r.1 r.2
    obtain ⟨ih₁, ih₂⟩ := ih (E.processOrderRequest r.1 r.2)
    rw [← hE, ih₁, ih₂, h₁, h₂, registered_processOrderRequest, List.filterMap_cons]
    cases r.1.newOrder? with
    | none => simp
    | some o =>
      cases hreg : E.registered o.symbolId <;>
        simp [hreg, UInt64.ofNat_add, add_assoc, add_comm]

/-- A bid modified up to the offer's price trades with it inside the book: the offer is filled
and the book's trade id counter moves on, but `modify_order` drops the trade, so no
`trade_callback_` call reports it and `total_trades` and `total_volume` stay at zero. -/
theorem modify_cross_trade_unreported :
    let E₀ : MatchingEngineImpl :=
      ((createMatchingEngine.registerSymbol 1).2.setTradeCallback true).setOrderCallback true
    let E := E₀.processRequests [(.newOrder ⟨1, 1, 100, 5, 0, .SELL⟩, 0),
      (.newOrder ⟨2, 1, 99, 5, 0, .BUY⟩, 0), (.modifyOrder 1 2 100 5, 7)]
    (lookup E.orderBooks 1).map (fun B => (B.nextTradeId, B.totalOrders)) = some (2, 0) ∧
      E.events.filterMap CallbackEvent.tradeCall? = [] ∧
      E.stats.totalTrades = 0 ∧ E.stats.totalVolume = 0 := by
  decide

end Micromatch.Proofs
