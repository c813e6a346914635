import Micromatch.Proofs.Engine
import Micromatch.Proofs.Fills
import Micromatch.Proofs.Modify
import Micromatch.Proofs.Spread

namespace Micromatch.Proofs
open Micromatch.Core Micromatch.Spec OrderBookImpl MatchingEngineImpl

section Assoc

variable {α β : Type} [DecidableEq α]

theorem mem_assign {m : List (α × β)} {k : α} {v : β} {e : α × β} (h : e ∈ assign m k v) :
    e = (k, v) ∨ e ∈ m := by
  unfold assign at h
  split_ifs at h
  · obtain ⟨e', he', rfl⟩ := List.mem_map.mp h
    by_cases h' : e'.1 = k
    · simp [h']
    · simp [h', he']
  · simpa [or_comm] using h

theorem keys_assign_nodup {m : List (α × β)} (hm : (keys m).Nodup) (k : α) (v : β) :
    (keys (assign m k v)).Nodup := by
  by_cases hk : k ∈ keys m
  · rwa [keys_assign_of_mem hk]
  · rw [assign_of_not_mem hk, keys_append]
    exact hm.append (List.nodup_singleton k) (List.disjoint_singleton.mpr hk)

end Assoc

/-- Every order resting in the book is of symbol `k`. -/
def RestingSymbol (k : UInt64) (B : OrderBookImpl) : Prop :=
  ∀ s, ∀ r ∈ resting B s, r.symbolId = k

namespace RestingSymbol

variable {k : UInt64} {B : OrderBookImpl}

theorem create (symbolId : UInt64) : RestingSymbol k (createOrderBook symbolId) := by
  intro s
  cases s <;> simp [resting, createOrderBook, levels]

theorem clear (B : OrderBookImpl) : RestingSymbol k B.clear := by
  intro s
  cases s <;> simp [resting, OrderBookImpl.clear, levels]

/-- `add_order` of an order of symbol `k` rests only orders of symbol `k`: what the walk leaves
of the opposite side, the orders already on the order's side, and what is left of the order. -/
theorem addOrder (hw : Wf B) (h : RestingSymbol k B) {o : Order} (ho : o.symbolId = k) :
    RestingSymbol k (B.addOrder o).2 := by
  by_cases hadm : 0 < o.quantity ∧ 0 < o.price ∧ o.orderId ∉ keys B.orderMap
  · obtain ⟨-, -, hopp, hown⟩ := addOrder_refSweep hw o hadm.1 hadm.2.1 hadm.2.2
    obtain ⟨hrem, hleft⟩ := refSweep_only_quantities (Spec.Side.crosses o.side) B.nextTradeId o
      (resting B o.side.opposite)
    intro s r hr
    rcases Side.eq_or_eq_opposite s o.side with rfl | rfl
    · have hat : r ∈ restingAt (B.addOrder o).2 r.price o.side := by
        rw [restingAt_eq_filter]
        simp [hr]
      rw [hown] at hat
      split_ifs at hat
      · rcases List.mem_append.mp hat with hat | hat
        · exact h _ r (List.mem_of_mem_filter hat)
        · rw [List.mem_singleton.mp hat, hrem]
          exact ho
      · exact h _ r (List.mem_of_mem_filter hat)
    · rw [hopp] at hr
      obtain ⟨r₀, hr₀, he⟩ := hleft r hr
      exact (congrArg Order.symbolId he).trans (h _ r₀ hr₀)
  · rw [addOrder_of_not_admitted B hadm]
    exact h

/-- `cancel_order` only takes orders out: each order it leaves is indexed, so it was indexed
and resting before. -/
theorem cancelOrder (hw : Wf B) (h : RestingSymbol k B) (orderId : UInt64) :
    RestingSymbol k (B.cancelOrder orderId).2 := by
  cases hk : lookup B.orderMap orderId with
  | none => rw [cancelOrder_of_lookup_none hk]; exact h
  | some p =>
    intro s r hr
    obtain ⟨x, hx, rfl⟩ := List.mem_map.mp hr
    have hidx := ((hw.cancelOrder orderId).indexed _ x).mpr ⟨mem_allQueued.mpr ⟨s, hx⟩, rfl⟩
    rw [cancelOrder_orderMap hk, mem_eraseKey] at hidx
    obtain ⟨t, ht⟩ := mem_allQueued.mp ((hw.indexed _ x).mp hidx.1).1
    rw [cancelOrder_heap]
    exact h t _ (List.mem_map_of_mem _ ht)

/-- `modify_order` cancels a resting order and adds a copy of it, of the same symbol. -/
theorem modifyOrder (hw : Wf B) (h : RestingSymbol k B) (orderId : UInt64) (newPrice : Int)
    (newQuantity : UInt32) (now : UInt64) :
    RestingSymbol k (B.modifyOrder orderId newPrice newQuantity now).2 := by
  cases hk : lookup B.orderMap orderId with
  | none => simpa [OrderBookImpl.modifyOrder, hk] using h
  | some p =>
    rw [modifyOrder_of_lookup_some hk]
    obtain ⟨hp, -⟩ := hw.locate hk
    obtain ⟨s, hs⟩ := mem_allQueued.mp hp
    exact (h.cancelOrder hw orderId).addOrder (hw.cancelOrder orderId)
      (h s (B.heap p) (List.mem_map_of_mem _ hs))

end RestingSymbol

/-- What `order_books_` keeps: one book per symbol, each reached by the book's own calls, with
only orders of its symbol resting in it. -/
structure BooksWf (books : List (UInt64 × OrderBookImpl)) : Prop where
  keysNodup : (keys books).Nodup
  book : ∀ k B, (k, B) ∈ books → Reachable B ∧ RestingSymbol k B

namespace BooksWf

variable {m : List (UInt64 × OrderBookImpl)}

theorem nil : BooksWf [] := ⟨List.nodup_nil, by simp⟩

theorem assign (h : BooksWf m) (k : UInt64) {B : OrderBookImpl}
    (hB : Reachable B ∧ RestingSymbol k B) : BooksWf (Core.assign m k B) where
  keysNodup := keys_assign_nodup h.keysNodup k B
  book k' B' hm := by
    rcases mem_assign hm with he | hm
    · cases he
      exact hB
    · exact h.book k' B' hm

/-- A request for the book of `k`, if there is one, replaces that book with what one of its
own calls leaves. -/
theorem update (h : BooksWf m) (k : UInt64) (f : OrderBookImpl → OrderBookImpl)
    (hf : ∀ B, Reachable B → RestingSymbol k B → Reachable (f B) ∧ RestingSymbol k (f B)) :
    BooksWf ((lookup m k).elim m fun B => Core.assign m k (f B)) := by
  cases hk : lookup m k with
  | none => exact h
  | some B =>
    obtain ⟨hr, hs⟩ := h.book k B ((lookup_eq_some h.keysNodup).mp hk)
    exact h.assign k (hf B hr hs)

theorem eraseKey (h : BooksWf m) (k : UInt64) : BooksWf (Core.eraseKey m k) where
  keysNodup := (keys_eraseKey_sublist m k).nodup h.keysNodup
  book k' B hm := h.book k' B (mem_eraseKey.mp hm).1

theorem clearAll (h : BooksWf m) : BooksWf (m.map fun e => (e.1, e.2.clear)) where
  keysNodup := by
    rw [keys, List.map_map]
    exact h.keysNodup
  book k B hm := by
    obtain ⟨⟨k₀, B₀⟩, h₀, he⟩ := List.mem_map.mp hm
    cases he
    exact ⟨(h.book k₀ B₀ h₀).1.clear, RestingSymbol.clear B₀⟩

end BooksWf

section Calls

variable (E : MatchingEngineImpl)

theorem processNewOrder_orderBooks (o : Order) :
    (E.processNewOrder o).orderBooks = (lookup E.orderBooks o.symbolId).elim E.orderBooks
      fun B => assign E.orderBooks o.symbolId (B.addOrder o).2 := by
  unfold processNewOrder
  cases h : lookup E.orderBooks o.symbolId <;> cases hc : E.orderCallback <;>
    simp [notifyOrder, foldl_reportTrade, h, hc]

theorem processCancelOrder_orderBooks (symbolId orderId : UInt64) :
    (E.processCancelOrder symbolId orderId).orderBooks = (lookup E.orderBooks symbolId).elim
      E.orderBooks fun B => assign E.orderBooks symbolId (B.cancelOrder orderId).2 := by
  unfold processCancelOrder
  cases h : lookup E.orderBooks symbolId with
  | none => rfl
  | some B =>
    simp only [h]
    split_ifs <;> rfl

theorem processModifyOrder_orderBooks (symbolId orderId : UInt64) (newPrice : Int)
    (newQuantity : UInt32) (now : UInt64) :
    (E.processModifyOrder symbolId orderId newPrice newQuantity now).orderBooks =
      (lookup E.orderBooks symbolId).elim E.orderBooks fun B =>
        assign E.orderBooks symbolId (B.modifyOrder orderId newPrice newQuantity now).2 := by
  unfold processModifyOrder
  cases h : lookup E.orderBooks symbolId with
  | none => rfl
  | some B =>
    simp only [h]
    split_ifs <;> rfl

variable {E}

/-- `process_order_request` replaces at most the book of the request's symbol, with what the
book's own call leaves; a new order goes to the book of its own symbol. -/
theorem BooksWf.processOrderRequest (h : BooksWf E.orderBooks) (request : OrderRequest)
    (now : UInt64) : BooksWf (E.processOrderRequest request now).orderBooks := by
  cases request with
  | newOrder o =>
    rw [MatchingEngineImpl.processOrderRequest, processNewOrder_orderBooks]
    exact h.update _ _ fun B hr hs => ⟨hr.addOrder o, hs.addOrder hr.wf rfl⟩
  | cancelOrder symbolId orderId =>
    rw [MatchingEngineImpl.processOrderRequest, processCancelOrder_orderBooks]
    exact h.update _ _ fun B hr hs => ⟨hr.cancelOrder orderId, hs.cancelOrder hr.wf orderId⟩
  | modifyOrder symbolId orderId newPrice newQuantity =>
    rw [MatchingEngineImpl.processOrderRequest, processModifyOrder_orderBooks]
    exact h.update _ _ fun B hr hs =>
      ⟨hr.modifyOrder orderId newPrice newQuantity now,
        hs.modifyOrder hr.wf orderId newPrice newQuantity now⟩

theorem BooksWf.registerSymbol (h : BooksWf E.orderBooks) (symbolId : UInt64) :
    BooksWf (E.registerSymbol symbolId).2.orderBooks := by
  unfold MatchingEngineImpl.registerSymbol
  split_ifs
  · exact h
  · exact h.assign symbolId ⟨.create symbolId, .create symbolId⟩

theorem BooksWf.unregisterSymbol (h : BooksWf E.orderBooks) (symbolId : UInt64) :
    BooksWf (E.unregisterSymbol symbolId).2.orderBooks := by
  unfold MatchingEngineImpl.unregisterSymbol
  split_ifs
  · exact h.eraseKey symbolId
  · exact h

end Calls

/-- The states of `MatchingEngineImpl` from `create_matching_engine()`, one call at a time:
the calls of its interface with any arguments, and `process_order_request` on any request, as
the worker makes it. -/
inductive EngineReachable : MatchingEngineImpl → Prop
  | create : EngineReachable createMatchingEngine
  | registerSymbol {E : MatchingEngineImpl} (symbolId : UInt64) :
      EngineReachable E → EngineReachable (E.registerSymbol symbolId).2
  | unregisterSymbol {E : MatchingEngineImpl} (symbolId : UInt64) :
      EngineReachable E → EngineReachable (E.unregisterSymbol symbolId).2
  | setTradeCallback {E : MatchingEngineImpl} (installed : Bool) :
      EngineReachable E → EngineReachable (E.setTradeCallback installed)
  | setOrderCallback {E : MatchingEngineImpl} (installed : Bool) :
      EngineReachable E → EngineReachable (E.setOrderCallback installed)
  | clearAllBooks {E : MatchingEngineImpl} : EngineReachable E → EngineReachable E.clearAllBooks
  | processOrderRequest {E : MatchingEngineImpl} (request : OrderRequest) (now : UInt64) :
      EngineReachable E → EngineReachable (E.processOrderRequest request now)

theorem EngineReachable.booksWf {E : MatchingEngineImpl} (h : EngineReachable E) :
    BooksWf E.orderBooks := by
  induction h with
  | create => exact BooksWf.nil
  | registerSymbol symbolId _ ih => exact ih.registerSymbol symbolId
  | unregisterSymbol symbolId _ ih => exact ih.unregisterSymbol symbolId
  | setTradeCallback _ _ ih => exact ih
  | setOrderCallback _ _ ih => exact ih
  | clearAllBooks _ ih => exact ih.clearAll
  | processOrderRequest request now _ ih => exact ih.processOrderRequest request now

/-- Over every sequence of calls from `create_matching_engine()`, `order_books_` holds one book
per symbol; each book is a state its own calls reach from `create_order_book`, so its bids are
all below its offers, and the orders resting in it are all of its symbol. -/
theorem engine_books_consistent {E : MatchingEngineImpl} (h : EngineReachable E) :
    (keys E.orderBooks).Nodup ∧ ∀ k B, (k, B) ∈ E.orderBooks →
      Reachable B ∧ Uncrossed B ∧ ∀ s, ∀ r ∈ resting B s, r.symbolId = k := by
  have hb := h.booksWf
  refine ⟨hb.keysNodup, fun k B hm => ?_⟩
  obtain ⟨hr, hs⟩ := hb.book k B hm
  exact ⟨hr, hr.uncrossed, hs⟩

/-- Two symbols registered and an offer for the second. -/
theorem engine_two_books_one_offer :
    let E := (((createMatchingEngine.registerSymbol 1).2.registerSymbol 2).2.processOrderRequest
      (.newOrder ⟨1, 2, 101, 3, 0, .SELL⟩) 0)
    (keys E.orderBooks).Nodup ∧ ∀ k B, (k, B) ∈ E.orderBooks →
      Reachable B ∧ Uncrossed B ∧ ∀ s, ∀ r ∈ resting B s, r.symbolId = k :=
  engine_books_consistent (.processOrderRequest _ _ (.registerSymbol 2 (.registerSymbol 1 .create)))

/-- Each trade `process_new_order` makes in a reachable engine, the trades it reports to
`trade_callback_`, pairs the new order with an order resting in the book of its symbol that
`Order::can_match` accepts, at that order's price, for a positive quantity. -/
theorem engine_trades_canMatch {E : MatchingEngineImpl} (h : EngineReachable E) (o : Order) :
    ∀ t ∈ E.newOrderTrades o, ∃ B r, lookup E.orderBooks o.symbolId = some B ∧
      r ∈ resting B o.side.opposite ∧ o.canMatch r = true ∧
      t.parties = s(o.orderId, r.orderId) ∧ t.price = r.price ∧ 0 < t.quantity := by
  intro t ht
  unfold newOrderTrades at ht
  cases hk : lookup E.orderBooks o.symbolId with
  | none => simp [hk] at ht
  | some B =>
    rw [hk] at ht
    obtain ⟨hr, hs⟩ := h.booksWf.book _ B ((lookup_eq_some h.booksWf.keysNodup).mp hk)
    obtain ⟨r, hrm, hc⟩ := addOrder_trades_canMatch hr.wf hs t ht
    exact ⟨B, r, rfl, hrm, hc⟩

/-- An offer for 3 at 101 rests in the book of symbol 1, and a bid for 5 at 102 trades with
it. -/
theorem bid_trades_with_resting_offer :
    let E := (createMatchingEngine.registerSymbol 1).2.processOrderRequest
      (.newOrder ⟨1, 1, 101, 3, 0, .SELL⟩) 0
    let o : Order := ⟨2, 1, 102, 5, 0, .BUY⟩
    E.newOrderTrades o ≠ [] ∧
      ∀ t ∈ E.newOrderTrades o, ∃ B r, lookup E.orderBooks o.symbolId = some B ∧
        r ∈ resting B o.side.opposite ∧ o.canMatch r = true ∧
        t.parties = s(o.orderId, r.orderId) ∧ t.price = r.price ∧ 0 < t.quantity :=
  ⟨by decide, engine_trades_canMatch (.processOrderRequest _ _ (.registerSymbol 1 .create)) _⟩

end Micromatch.Proofs
