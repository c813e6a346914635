import Micromatch.Proofs.Invariant

namespace Micromatch.Core

/-- The trades of the `add_order` inside `modify_order`, which `modify_order` drops. -/
def OrderBookImpl.modifyOrderTrades (B : OrderBookImpl) (orderId : UInt64) (newPrice : Int)
    (newQuantity : UInt32) (now : UInt64) : List Trade :=
  match lookup B.orderMap orderId with
  | none => []
  | some p =>
    ((B.cancelOrder orderId).2.addOrder
      { B.heap p with price := newPrice, quantity := newQuantity, timestampNs := now }).1

end Micromatch.Core

namespace Micromatch.Proofs
open Micromatch.Core OrderBookImpl

/-- The ids `start`, `start + 1`, ... of `n` trades made one after another. -/
def tradeIdsFrom (start : UInt64) (n : Nat) : List UInt64 :=
  (List.range n).map fun i => start + UInt64.ofNat i

theorem tradeIdsFrom_add (start : UInt64) (m n : Nat) :
    tradeIdsFrom start (m + n) = tradeIdsFrom start m ++ tradeIdsFrom (start + UInt64.ofNat m) n := by
  simp [tradeIdsFrom, List.range_add, UInt64.ofNat_add, add_assoc]

/-- Each trade of `add_order` takes the book's next trade id, which then advances by one. -/
theorem addOrder_tradeIds (B : OrderBookImpl) (o : Order) :
    (B.addOrder o).1.map Trade.tradeId = tradeIdsFrom B.nextTradeId (B.addOrder o).1.length ∧
      (B.addOrder o).2.nextTradeId = B.nextTradeId + UInt64.ofNat (B.addOrder o).1.length := by
  have hloop := @matchLoop_induction o.side.opposite o.side.noCross
    (fun st => st.2.2.map Trade.tradeId = tradeIdsFrom B.nextTradeId st.2.2.length ∧
      st.1.nextTradeId = B.nextTradeId + UInt64.ofNat st.2.2.length)
    (fun ⟨B₁, o₁, ts₁⟩ st' ⟨h1, h2⟩ hs => by
      dsimp only at h1 h2
      obtain ⟨-, k, l, rest, -, -, hcase⟩ := matchStep_cases hs
      rcases hcase with ⟨-, rfl⟩ | ⟨p, ps, -, -, rfl⟩ | ⟨p, ps, -, -, rfl⟩
      · simpa using ⟨h1, h2⟩
      all_goals
        simp only [List.map_append, List.length_append, List.length_singleton, tradeIdsFrom_add,
          h1, setLevels_nextTradeId, h2, UInt64.ofNat_succ]
        simp [tradeIdsFrom, Trade.ofOrders, h2, add_assoc, List.range_succ])
    (B.sweepBound o.side.opposite) (B, o, []) ⟨rfl, (add_zero _).symm⟩
  rw [addOrder_eq]
  split_ifs
  · simp [tradeIdsFrom]
  · simp [tradeIdsFrom]
  · dsimp only
    split_ifs <;> simpa using hloop

theorem cancelOrder_nextTradeId (B : OrderBookImpl) (orderId : UInt64) :
    (B.cancelOrder orderId).2.nextTradeId = B.nextTradeId := by
  unfold OrderBookImpl.cancelOrder
  split
  · rfl
  · dsimp only
    split <;> simp

theorem cancelOrder_fst {B : OrderBookImpl} {orderId : UInt64} {p : Ptr}
    (hp : lookup B.orderMap orderId = some p) : (B.cancelOrder orderId).1 = true := by
  unfold OrderBookImpl.cancelOrder
  split
  · simp_all
  · dsimp only
    split <;> rfl

/-- `modify_order` of an indexed id is `cancel_order` followed by `add_order` of the copy, and
returns the copy whatever that `add_order` does with it. -/
theorem modifyOrder_eq_of_lookup_some {B : OrderBookImpl} {orderId : UInt64} {p : Ptr}
    (hp : lookup B.orderMap orderId = some p) (newPrice : Int) (newQuantity : UInt32)
    (now : UInt64) :
    B.modifyOrder orderId newPrice newQuantity now =
      (some { B.heap p with price := newPrice, quantity := newQuantity, timestampNs := now },
       ((B.cancelOrder orderId).2.addOrder
        { B.heap p with price := newPrice, quantity := newQuantity, timestampNs := now }).2) := by
  have hc := cancelOrder_fst hp
  unfold OrderBookImpl.modifyOrder
  rcases hB : B.cancelOrder orderId with ⟨c, B₁⟩
  rw [hB] at hc
  subst hc
  simp [hp]

theorem modifyOrder_of_lookup_some {B : OrderBookImpl} {orderId : UInt64} {p : Ptr}
    (hp : lookup B.orderMap orderId = some p) (newPrice : Int) (newQuantity : UInt32)
    (now : UInt64) :
    (B.modifyOrder orderId newPrice newQuantity now).2 = ((B.cancelOrder orderId).2.addOrder
      { B.heap p with price := newPrice, quantity := newQuantity, timestampNs := now }).2 := by
  rw [modifyOrder_eq_of_lookup_some hp]

/-- `modify_order` advances the trade id counter once per trade of its `add_order`. -/
theorem modifyOrder_tradeIds (B : OrderBookImpl) (orderId : UInt64) (newPrice : Int)
    (newQuantity : UInt32) (now : UInt64) :
    (B.modifyOrderTrades orderId newPrice newQuantity now).map Trade.tradeId =
        tradeIdsFrom B.nextTradeId (B.modifyOrderTrades orderId newPrice newQuantity now).length ∧
      (B.modifyOrder orderId newPrice newQuantity now).2.nextTradeId =
        B.nextTradeId + UInt64.ofNat (B.modifyOrderTrades orderId newPrice newQuantity now).length := by
  cases hp : lookup B.orderMap orderId with
  | none => simp [modifyOrderTrades, OrderBookImpl.modifyOrder, hp, tradeIdsFrom]
  | some p =>
    rw [modifyOrder_of_lookup_some hp, modifyOrderTrades, hp]
    simpa [cancelOrder_nextTradeId] using addOrder_tradeIds (B.cancelOrder orderId).2
      { B.heap p with price := newPrice, quantity := newQuantity, timestampNs := now }

/-- The trades a book has made since `create_order_book`, oldest first: those `add_order`
returns and those of the `add_order` inside `modify_order`, which `modify_order` drops. -/
inductive TradeLog : OrderBookImpl → List Trade → Prop
  | create (symbolId : UInt64) : TradeLog (createOrderBook symbolId) []
  | addOrder {B : OrderBookImpl} {log : List Trade} (order : Order) :
      TradeLog B log → TradeLog (B.addOrder order).2 (log ++ (B.addOrder order).1)
  | cancelOrder {B : OrderBookImpl} {log : List Trade} (orderId : UInt64) :
      TradeLog B log → TradeLog (B.cancelOrder orderId).2 log
  | modifyOrder {B : OrderBookImpl} {log : List Trade} (orderId : UInt64) (newPrice : Int)
      (newQuantity : UInt32) (now : UInt64) :
      TradeLog B log → TradeLog (B.modifyOrder orderId newPrice newQuantity now).2
        (log ++ B.modifyOrderTrades orderId newPrice newQuantity now)
  | clear {B : OrderBookImpl} {log : List Trade} : TradeLog B log → TradeLog B.clear log

theorem TradeLog.reachable {B : OrderBookImpl} {log : List Trade} (h : TradeLog B log) :
    Reachable B := by
  induction h with
  | create symbolId => exact .create symbolId
  | addOrder order _ ih => exact .addOrder order ih
  | cancelOrder orderId _ ih => exact .cancelOrder orderId ih
  | modifyOrder orderId newPrice newQuantity now _ ih => exact .modifyOrder _ _ _ _ ih
  | clear _ ih => exact .clear ih

theorem Reachable.tradeLog {B : OrderBookImpl} (h : Reachable B) : ∃ log, TradeLog B log := by
  induction h with
  | create symbolId => exact ⟨[], .create symbolId⟩
  | addOrder order _ ih => obtain ⟨log, hl⟩ := ih; exact ⟨_, .addOrder order hl⟩
  | cancelOrder orderId _ ih => obtain ⟨log, hl⟩ := ih; exact ⟨_, .cancelOrder orderId hl⟩
  | modifyOrder orderId newPrice newQuantity now _ ih =>
    obtain ⟨log, hl⟩ := ih; exact ⟨_, .modifyOrder _ _ _ _ hl⟩
  | clear _ ih => obtain ⟨log, hl⟩ := ih; exact ⟨_, .clear hl⟩

/-- Along every run, the `k`-th trade a book makes has id `1 + k` modulo `2^64`, and the
counter stands at `1` plus the number of trades made: `clear` does not reset it, and the
trades `modify_order` drops take ids too. -/
theorem TradeLog.tradeIds {B : OrderBookImpl} {log : List Trade} (h : TradeLog B log) :
    log.map Trade.tradeId = tradeIdsFrom 1 log.length ∧
      B.nextTradeId = 1 + UInt64.ofNat log.length := by
  induction h with
  | create => exact ⟨rfl, rfl⟩
  | @addOrder B log order _ ih =>
    obtain ⟨h1, h2⟩ := addOrder_tradeIds B order
    rw [h2, ih.2, List.length_append, List.map_append, ih.1, h1, ih.2, tradeIdsFrom_add,
      UInt64.ofNat_add, add_assoc]
    exact ⟨rfl, rfl⟩
  | cancelOrder orderId _ ih => exact ⟨ih.1, (cancelOrder_nextTradeId _ _).trans ih.2⟩
  | @modifyOrder B log orderId newPrice newQuantity now _ ih =>
    obtain ⟨h1, h2⟩ := modifyOrder_tradeIds B orderId newPrice newQuantity now
    rw [h2, ih.2, List.length_append, List.map_append, ih.1, h1, ih.2, tradeIdsFrom_add,
      UInt64.ofNat_add, add_assoc]
    exact ⟨rfl, rfl⟩
  | clear _ ih => exact ih

/-- On an empty book, an offer and then a bid of one unit at one price make one trade, under the
next trade id, and leave the book empty. -/
theorem cross_one_unit {B : OrderBookImpl} (hb : B.buyLevels = []) (hs : B.sellLevels = [])
    (hm : B.orderMap = []) :
    let B₁ := (B.addOrder ⟨1, 1, 1, 1, 0, .SELL⟩)
    let B₂ := B₁.2.addOrder ⟨2, 1, 1, 1, 0, .BUY⟩
    B₁.1 = [] ∧ B₂.1 = [⟨B.nextTradeId, 2, 1, 1, 1, 1⟩] ∧ B₂.2.buyLevels = [] ∧
      B₂.2.sellLevels = [] ∧ B₂.2.orderMap = [] := by
  obtain ⟨symbolId, buyLevels, sellLevels, orderMap, heap, nextPtr, nextTradeId⟩ := B
  simp only at hb hs hm
  subst hb hs hm
  simp +decide [addOrder, matchBuyOrder, matchSellOrder, matchLoop, matchStep, sweepBound,
    addToBook, levels, setLevels, PriceMap.insert, assign, keys, generateTrade,
    Trade.ofOrders, PriceLevelImpl.peekFront, PriceLevelImpl.addOrder,
    PriceLevelImpl.removeFrontAfterFill, PriceLevelImpl.empty, PriceLevelImpl.mk', eraseKey]

/-- Repeating that cross `n` times from a new book logs `n` trades and leaves it empty. -/
theorem tradeLog_crosses (n : Nat) :
    ∃ log, TradeLog ((fun B => ((B.addOrder ⟨1, 1, 1, 1, 0, .SELL⟩).2.addOrder
        ⟨2, 1, 1, 1, 0, .BUY⟩).2)^[n] (createOrderBook 1)) log ∧ log.length = n ∧
      ((fun B => ((B.addOrder ⟨1, 1, 1, 1, 0, .SELL⟩).2.addOrder
        ⟨2, 1, 1, 1, 0, .BUY⟩).2)^[n] (createOrderBook 1)).buyLevels = [] ∧
      ((fun B => ((B.addOrder ⟨1, 1, 1, 1, 0, .SELL⟩).2.addOrder
        ⟨2, 1, 1, 1, 0, .BUY⟩).2)^[n] (createOrderBook 1)).sellLevels = [] ∧
      ((fun B => ((B.addOrder ⟨1, 1, 1, 1, 0, .SELL⟩).2.addOrder
        ⟨2, 1, 1, 1, 0, .BUY⟩).2)^[n] (createOrderBook 1)).orderMap = [] := by
  induction n with
  | zero => exact ⟨[], .create 1, rfl, rfl, rfl, rfl⟩
  | succ n ih =>
    obtain ⟨log, hlog, hlen, hb, hs, hm⟩ := ih
    obtain ⟨h1, h2, hb', hs', hm'⟩ := cross_one_unit hb hs hm
    rw [Function.iterate_succ_apply']
    refine ⟨_, .addOrder _ (.addOrder _ hlog), ?_, hb', hs', hm'⟩
    simp [h1, h2, hlen]

/-- After `2^64` trades the counter is back at `1`: a run of `2^64 + 1` one-unit crosses makes
two trades with id `1`. -/
theorem trade_id_reused_after_wrap :
    ∃ B log, TradeLog B log ∧ ¬ (log.map Trade.tradeId).Nodup := by
  obtain ⟨log, hlog, hlen, -⟩ := tradeLog_crosses (2 ^ 64 + 1)
  refine ⟨_, log, hlog, fun hnd => ?_⟩
  rw [hlog.tradeIds.1, hlen, tradeIdsFrom] at hnd
  have := List.inj_on_of_nodup_map hnd (List.mem_range.mpr (Nat.succ_pos _))
    (List.mem_range.mpr (Nat.lt_succ_self (2 ^ 64))) (by decide)
  exact absurd this (by decide)

end Micromatch.Proofs
