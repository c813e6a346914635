import Micromatch.Core.Maps

namespace Micromatch.Core

instance : Inhabited Order := ⟨⟨0, 0, 0, 0, 0, .BUY⟩⟩

/-- `class OrderBookImpl`, with the `shared_ptr`s of the level queues and of `order_map_` as
addresses into `heap`; `nextPtr` is the next address `make_shared` hands out. -/
structure OrderBookImpl where
  symbolId : UInt64
  buyLevels : PriceMap
  sellLevels : PriceMap
  orderMap : OrderMap
  heap : Heap
  nextPtr : Ptr
  nextTradeId : UInt64

/-- `create_order_book(symbol_id)`. -/
def createOrderBook (symbolId : UInt64) : OrderBookImpl :=
  ⟨symbolId, [], [], [], fun _ => default, 0, 1⟩

namespace OrderBookImpl

/-- The level map of a side: `buy_levels_` or `sell_levels_`. -/
def levels (B : OrderBookImpl) : Side → PriceMap
  | .BUY => B.buyLevels
  | .SELL => B.sellLevels

def setLevels (B : OrderBookImpl) : Side → PriceMap → OrderBookImpl
  | .BUY, m => { B with buyLevels := m }
  | .SELL, m => { B with sellLevels := m }

/-- `generate_trade`: the trade takes the next trade id, which then advances. -/
def generateTrade (B : OrderBookImpl) (aggressiveOrder passiveOrder : Order) (quantity : UInt32)
    (price : Int) : Trade × OrderBookImpl :=
  (Trade.ofOrders B.nextTradeId aggressiveOrder passiveOrder price quantity,
   { B with nextTradeId := B.nextTradeId + 1 })

/-- The state of the `while` loop of `match_buy_order` and `match_sell_order`: the book, the
incoming order and the trades so far. The incoming order is reachable only through the
caller's own pointer, so it is carried as a value. -/
abbrev MatchState := OrderBookImpl × Order × List Trade

/-- One turn of that loop over the levels of `passive`, `none` when the loop is left;
`noCross incoming best` is its `break` test. -/
def matchStep (passive : Side) (noCross : Int → Int → Bool) : MatchState → Option MatchState
  | (B, o, trades) =>
    if 0 < o.quantity then
      match B.levels passive with
      | [] => none
      | (bestPrice, bestLevel) :: rest =>
        if noCross o.price bestPrice then none
        else
          match bestLevel.peekFront with
          | none => some (B.setLevels passive rest, o, trades)
          | some p =>
            let resting := B.heap p
            let matchQuantity := min o.quantity resting.quantity
            let (trade, B) := B.generateTrade o resting matchQuantity bestPrice
            let o : Order := { o with quantity := o.quantity - matchQuantity }
            let resting : Order := { resting with quantity := resting.quantity - matchQuantity }
            let B := { B with heap := Function.update B.heap p resting }
            if resting.quantity = 0 then
              let B := { B with orderMap := eraseKey B.orderMap resting.orderId }
              let level := bestLevel.removeFrontAfterFill matchQuantity
              some (B.setLevels passive (if level.empty then rest else (bestPrice, level) :: rest),
                o, trades ++ [trade])
            else
              some (B.setLevels passive
                  ((bestPrice, bestLevel.updateVolumeAfterPartialFill matchQuantity) :: rest),
                o, trades ++ [trade])
    else none

/-- The loop, run for at most `fuel` turns; `sweepBound` turns are enough (`matchLoop_fuel`). -/
def matchLoop (passive : Side) (noCross : Int → Int → Bool) : Nat → MatchState → MatchState
  | 0, st => st
  | fuel + 1, st =>
    match matchStep passive noCross st with
    | none => st
    | some st' => matchLoop passive noCross fuel st'

/-- Enough turns for the sweep of `passive`: one per level, one per resting order, one more. -/
def sweepBound (B : OrderBookImpl) (passive : Side) : Nat :=
  (B.levels passive).length + ((B.levels passive).flatMap (·.2.orders)).length + 1

/-- `match_buy_order`: sweep the asks while the bid is not below the best ask. -/
def matchBuyOrder (B : OrderBookImpl) (buyOrder : Order) : MatchState :=
  matchLoop .SELL (fun buyPrice bestAskPrice => buyPrice < bestAskPrice) (B.sweepBound .SELL)
    (B, buyOrder, [])

/-- `match_sell_order`: sweep the bids while the offer is not above the best bid. -/
def matchSellOrder (B : OrderBookImpl) (sellOrder : Order) : MatchState :=
  matchLoop .BUY (fun sellPrice bestBidPrice => sellPrice > bestBidPrice) (B.sweepBound .BUY)
    (B, sellOrder, [])

/-- `add_to_book`: the order object goes to a fresh address, at the back of its price level
(made on first use by `operator[]`), and into `order_map_`. -/
def addToBook (B : OrderBookImpl) (order : Order) : OrderBookImpl :=
  let p := B.nextPtr
  let heap := Function.update B.heap p order
  let levels := B.levels order.side
  let level := (lookup levels order.price).getD (PriceLevelImpl.mk' order.price)
  let B := { B with heap := heap, nextPtr := p + 1 }
  let B := B.setLevels order.side
    (PriceMap.insert order.side.before order.price (level.addOrder heap p) levels)
  { B with orderMap := assign B.orderMap order.orderId p }

/-- `add_order`: reject silently, else match and rest what is left. -/
def addOrder (B : OrderBookImpl) (order : Order) : List Trade × OrderBookImpl :=
  if order.quantity = 0 ∨ order.price ≤ 0 then ([], B)
  else if (lookup B.orderMap order.orderId).isSome then ([], B)
  else
    let (B, o, trades) :=
      match order.side with
      | .BUY => B.matchBuyOrder order
      | .SELL => B.matchSellOrder order
    if 0 < o.quantity then (trades, B.addToBook o) else (trades, B)

/-- `cancel_order`: unindex the order, then remove it from the level its side and price
name, dropping the level if it empties. -/
def cancelOrder (B : OrderBookImpl) (orderId : UInt64) : Bool × OrderBookImpl :=
  match lookup B.orderMap orderId with
  | none => (false, B)
  | some p =>
    let order := B.heap p
    let B := { B with orderMap := eraseKey B.orderMap orderId }
    let levels := B.levels order.side
    match lookup levels order.price with
    | none => (true, B)
    | some level =>
      let level := (level.removeOrder B.heap orderId).2
      (true, B.setLevels order.side
        (if level.empty then eraseKey levels order.price
         else PriceMap.insert order.side.before order.price level levels))

/-- `modify_order`: cancel, then add a copy with the new price and quantity and the clock
reading `now`; the trades of that `add_order` are dropped. -/
def modifyOrder (B : OrderBookImpl) (orderId : UInt64) (newPrice : Int) (newQuantity : UInt32)
    (now : UInt64) : Option Order × OrderBookImpl :=
  match lookup B.orderMap orderId with
  | none => (none, B)
  | some p =>
    let oldOrder := B.heap p
    let (cancelled, B) := B.cancelOrder orderId
    if !cancelled then (none, B)
    else
      let newOrder := { oldOrder with price := newPrice, quantity := newQuantity, timestampNs := now }
      let (_, B) := B.addOrder newOrder
      (some newOrder, B)

def bestBid (B : OrderBookImpl) : Option Int := B.buyLevels.head?.map Prod.fst

def bestAsk (B : OrderBookImpl) : Option Int := B.sellLevels.head?.map Prod.fst

def volumeAtPrice (B : OrderBookImpl) (price : Int) (side : Side) : UInt32 :=
  match lookup (B.levels side) price with
  | some level => level.volume
  | none => 0

/-- `order_count_at_price`: the level's `size_t` count narrowed to `uint32_t`. -/
def orderCountAtPrice (B : OrderBookImpl) (price : Int) (side : Side) : UInt32 :=
  match lookup (B.levels side) price with
  | some level => UInt32.ofNat level.orderCount
  | none => 0

/-- `total_orders`: `order_map_.size()`. -/
def totalOrders (B : OrderBookImpl) : Nat := B.orderMap.length

/-- `clear`: both sides and the index are emptied; the trade id counter is kept. -/
def clear (B : OrderBookImpl) : OrderBookImpl :=
  { B with buyLevels := [], sellLevels := [], orderMap := [] }

@[simp] theorem levels_setLevels (B : OrderBookImpl) (s : Side) (m : PriceMap) :
    (B.setLevels s m).levels s = m := by cases s <;> rfl

@[simp] theorem levels_setLevels_opposite (B : OrderBookImpl) (s : Side) (m : PriceMap) :
    (B.setLevels s m).levels s.opposite = B.levels s.opposite := by cases s <;> rfl


@[simp] theorem setLevels_heap (B : OrderBookImpl) (s : Side) (m : PriceMap) :
    (B.setLevels s m).heap = B.heap := by cases s <;> rfl

@[simp] theorem setLevels_orderMap (B : OrderBookImpl) (s : Side) (m : PriceMap) :
    (B.setLevels s m).orderMap = B.orderMap := by cases s <;> rfl

@[simp] theorem setLevels_nextPtr (B : OrderBookImpl) (s : Side) (m : PriceMap) :
    (B.setLevels s m).nextPtr = B.nextPtr := by cases s <;> rfl

@[simp] theorem setLevels_nextTradeId (B : OrderBookImpl) (s : Side) (m : PriceMap) :
    (B.setLevels s m).nextTradeId = B.nextTradeId := by cases s <;> rfl

@[simp] theorem setLevels_symbolId (B : OrderBookImpl) (s : Side) (m : PriceMap) :
    (B.setLevels s m).symbolId = B.symbolId := by cases s <;> rfl

/-- A record update that leaves both level maps alone leaves `levels` alone. -/
@[simp] theorem levels_mk (B : OrderBookImpl) (symbolId : UInt64) (orderMap : OrderMap)
    (heap : Heap) (nextPtr : Ptr) (nextTradeId : UInt64) (s : Side) :
    (OrderBookImpl.mk symbolId B.buyLevels B.sellLevels orderMap heap nextPtr nextTradeId).levels s =
      B.levels s := by
  cases s <;> rfl

@[simp] theorem levels_clear (B : OrderBookImpl) (s : Side) : B.clear.levels s = [] := by
  cases s <;> rfl

@[simp] theorem levels_create (symbolId : UInt64) (s : Side) :
    (createOrderBook symbolId).levels s = [] := by cases s <;> rfl

theorem bestBid_eq (B : OrderBookImpl) : B.bestBid = ((B.levels .BUY).head?).map Prod.fst := rfl

theorem bestAsk_eq (B : OrderBookImpl) : B.bestAsk = ((B.levels .SELL).head?).map Prod.fst := rfl

end OrderBookImpl

end Micromatch.Core
