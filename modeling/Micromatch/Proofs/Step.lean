import Micromatch.Core.OrderBook

namespace Micromatch.Core

/-- The `break` test of the sweep an incoming order of side `s` makes:
`match_buy_order`'s for a bid, `match_sell_order`'s for an offer. -/
def Side.noCross : Side → Int → Int → Bool
  | .BUY => fun buyPrice bestAskPrice => buyPrice < bestAskPrice
  | .SELL => fun sellPrice bestBidPrice => sellPrice > bestBidPrice

end Micromatch.Core

namespace Micromatch.Proofs
open Micromatch.Core OrderBookImpl

/-- `add_order` with both match functions read as the one sweep of the opposite side. -/
theorem addOrder_eq (B : OrderBookImpl) (order : Order) : B.addOrder order =
    if order.quantity = 0 ∨ order.price ≤ 0 then ([], B)
    else if (lookup B.orderMap order.orderId).isSome then ([], B)
    else
      let st := matchLoop order.side.opposite order.side.noCross
        (B.sweepBound order.side.opposite) (B, order, [])
      if 0 < st.2.1.quantity then (st.2.2, st.1.addToBook st.2.1) else (st.2.2, st.1) := by
  unfold addOrder
  cases order.side <;> rfl

/-- Everything one turn of the matching loop can do. It runs only for a live incoming order
that crosses the best level, and then it drops that level if it is empty, fills and removes
its front order, or fills the incoming order against the front order in part. -/
theorem matchStep_cases {passive : Side} {noCross : Int → Int → Bool} {B : OrderBookImpl}
    {o : Order} {ts : List Trade} {st : MatchState}
    (h : matchStep passive noCross (B, o, ts) = some st) :
    0 < o.quantity ∧ ∃ k l rest, B.levels passive = (k, l) :: rest ∧ noCross o.price k = false ∧
      ((l.orders = [] ∧ st = (B.setLevels passive rest, o, ts)) ∨
       (∃ p ps, l.orders = p :: ps ∧ (B.heap p).quantity ≤ o.quantity ∧
          st = ({ B with nextTradeId := B.nextTradeId + 1,
                         heap := Function.update B.heap p { B.heap p with quantity := 0 },
                         orderMap := eraseKey B.orderMap (B.heap p).orderId }.setLevels passive
                  (if ps = [] then rest
                   else (k, { l with orders := ps,
                                     totalVolume := l.totalVolume - (B.heap p).quantity }) :: rest),
                { o with quantity := o.quantity - (B.heap p).quantity },
                ts ++ [Trade.ofOrders B.nextTradeId o (B.heap p) k (B.heap p).quantity])) ∨
       (∃ p ps, l.orders = p :: ps ∧ o.quantity < (B.heap p).quantity ∧
          st = ({ B with nextTradeId := B.nextTradeId + 1,
                         heap := Function.update B.heap p
                           { B.heap p with quantity := (B.heap p).quantity - o.quantity } }.setLevels
                  passive ((k, { l with totalVolume := l.totalVolume - o.quantity }) :: rest),
                { o with quantity := 0 },
                ts ++ [Trade.ofOrders B.nextTradeId o (B.heap p) k o.quantity]))) := by
  simp only [matchStep] at h
  by_cases hq : 0 < o.quantity
  swap
  · rw [if_neg hq] at h; cases h
  rw [if_pos hq] at h
  refine ⟨hq, ?_⟩
  split at h
  · cases h
  · rename_i k l rest hl
    cases hc : noCross o.price k
    swap
    · rw [hc, if_pos rfl] at h; cases h
    simp only [hc, Bool.false_eq_true, if_false] at h
    refine ⟨k, l, rest, hl, hc, ?_⟩
    cases hp : l.orders with
    | nil =>
      simp only [PriceLevelImpl.peekFront, hp, List.head?_nil, Option.some.injEq] at h
      exact .inl ⟨rfl, h.symm⟩
    | cons p ps =>
      simp only [PriceLevelImpl.peekFront, hp, List.head?_cons, generateTrade] at h
      right
      by_cases hle : (B.heap p).quantity ≤ o.quantity
      · have hmin : min o.quantity (B.heap p).quantity = (B.heap p).quantity :=
          UInt32.min_eq_right_of_le hle
        simp only [hmin, sub_self, if_true, Option.some.injEq,
          PriceLevelImpl.removeFrontAfterFill_cons hp] at h
        refine .inl ⟨p, ps, rfl, hle, ?_⟩
        rw [← h]
        simp [PriceLevelImpl.empty]
      · have hlt : o.quantity < (B.heap p).quantity := UInt32.not_le.mp hle
        have hmin : min o.quantity (B.heap p).quantity = o.quantity :=
          UInt32.min_eq_left_of_le (UInt32.le_iff_toNat_le.mpr (UInt32.lt_iff_toNat_lt.mp hlt).le)
        have hne : (B.heap p).quantity - o.quantity ≠ 0 := sub_ne_zero.mpr (UInt32.ne_of_lt hlt).symm
        simp only [hmin, sub_self, hne, if_false, Option.some.injEq] at h
        refine .inr ⟨p, ps, rfl, hlt, ?_⟩
        rw [← h]
        simp [PriceLevelImpl.updateVolumeAfterPartialFill, ← hp]

section AddToBook

variable (B : OrderBookImpl) (o : Order)

@[simp] theorem addToBook_levels_side :
    (B.addToBook o).levels o.side =
      PriceMap.insert o.side.before o.price
        (((lookup (B.levels o.side) o.price).getD (PriceLevelImpl.mk' o.price)).addOrder
          (Function.update B.heap B.nextPtr o) B.nextPtr) (B.levels o.side) := by
  simp [addToBook]

@[simp] theorem addToBook_levels_opposite :
    (B.addToBook o).levels o.side.opposite = B.levels o.side.opposite := by
  simp [addToBook]

@[simp] theorem addToBook_heap : (B.addToBook o).heap = Function.update B.heap B.nextPtr o := by
  simp [addToBook]

@[simp] theorem addToBook_nextPtr : (B.addToBook o).nextPtr = B.nextPtr + 1 := by
  simp [addToBook]

@[simp] theorem addToBook_orderMap :
    (B.addToBook o).orderMap = assign B.orderMap o.orderId B.nextPtr := by
  simp [addToBook]

@[simp] theorem addToBook_nextTradeId : (B.addToBook o).nextTradeId = B.nextTradeId := by
  simp [addToBook]

@[simp] theorem addToBook_symbolId : (B.addToBook o).symbolId = B.symbolId := by
  simp [addToBook]

end AddToBook

theorem cancelOrder_of_lookup_none {B : OrderBookImpl} {orderId : UInt64}
    (h : lookup B.orderMap orderId = none) : B.cancelOrder orderId = (false, B) := by
  simp [cancelOrder, h]

/-- `cancel_order` of an indexed id whose order's side has a level at the order's price. -/
theorem cancelOrder_of_lookup_some {B : OrderBookImpl} {orderId : UInt64} {p : Ptr}
    {l : PriceLevelImpl} (hp : lookup B.orderMap orderId = some p)
    (hl : lookup (B.levels (B.heap p).side) (B.heap p).price = some l) :
    B.cancelOrder orderId =
      (true, ({ B with orderMap := eraseKey B.orderMap orderId }).setLevels (B.heap p).side
        (if (l.removeOrder B.heap orderId).2.empty then
          eraseKey (B.levels (B.heap p).side) (B.heap p).price
         else PriceMap.insert (B.heap p).side.before (B.heap p).price (l.removeOrder B.heap orderId).2
          (B.levels (B.heap p).side))) := by
  simp only [cancelOrder, hp, levels_mk, hl]

/-- The loop is left when the incoming order is done, the swept side is empty or its best
price does not cross. -/
theorem matchStep_eq_none {passive : Side} {noCross : Int → Int → Bool} {B : OrderBookImpl}
    {o : Order} {ts : List Trade} (h : matchStep passive noCross (B, o, ts) = none) :
    o.quantity = 0 ∨ B.levels passive = [] ∨
      ∃ k l rest, B.levels passive = (k, l) :: rest ∧ noCross o.price k = true := by
  simp only [matchStep] at h
  by_cases hq : 0 < o.quantity
  · rw [if_pos hq] at h
    split at h
    · exact .inr (.inl ‹_›)
    · rename_i k l rest hl
      cases hc : noCross o.price k
      · simp only [hc, Bool.false_eq_true, if_false] at h
        split at h
        · cases h
        · split at h <;> cases h
      · exact .inr (.inr ⟨k, l, rest, hl, hc⟩)
  · exact .inl (by simpa [UInt32.lt_iff_toNat_lt, UInt32.eq_iff_toNat_eq] using hq)

/-- Levels, queued orders and one more while the incoming order is live: every turn lowers it. -/
def loopMeasure (passive : Side) (st : MatchState) : Nat :=
  (st.1.levels passive).length + (PriceMap.queued (st.1.levels passive)).length +
    if 0 < st.2.1.quantity then 1 else 0

theorem loopMeasure_lt {passive : Side} {noCross : Int → Int → Bool} {st st' : MatchState}
    (h : matchStep passive noCross st = some st') : loopMeasure passive st' < loopMeasure passive st := by
  obtain ⟨B, o, ts⟩ := st
  obtain ⟨hq, k, l, rest, hl, -, hcase⟩ := matchStep_cases h
  rcases hcase with ⟨he, rfl⟩ | ⟨p, ps, hp, -, rfl⟩ | ⟨p, ps, hp, -, rfl⟩
  · simp only [loopMeasure, levels_setLevels, hl, PriceMap.queued_cons, he, List.length_cons,
      List.nil_append, hq, if_true]
    omega
  · by_cases hps : ps = [] <;>
      simp only [loopMeasure, levels_setLevels, hl, PriceMap.queued_cons, hp, hps, hq, if_true,
        if_false, List.length_cons, List.length_append] <;> split_ifs <;> omega
  · simp only [loopMeasure, levels_setLevels, hl, PriceMap.queued_cons, List.length_cons,
      List.length_append, hq, if_true]
    split_ifs with h0
    · exact absurd h0 (by decide)
    · omega

/-- With as many turns as its measure the loop stops on its own: the last state is one where
the loop body would not run. -/
theorem matchStep_matchLoop {passive : Side} {noCross : Int → Int → Bool} :
    ∀ (fuel : Nat) (st : MatchState), loopMeasure passive st ≤ fuel →
      matchStep passive noCross (matchLoop passive noCross fuel st) = none
  | 0, st, h => by
    obtain ⟨B, o, ts⟩ := st
    have : ¬ 0 < o.quantity := fun hq => by simp [loopMeasure, hq] at h
    simp [matchLoop, matchStep, this]
  | fuel + 1, st, h => by
    simp only [matchLoop]
    split
    · assumption
    · rename_i st' hs
      exact matchStep_matchLoop fuel st' (by have := loopMeasure_lt hs; omega)

theorem loopMeasure_le_sweepBound (B : OrderBookImpl) (passive : Side) (o : Order) :
    loopMeasure passive (B, o, []) ≤ B.sweepBound passive := by
  simp only [loopMeasure, sweepBound, PriceMap.queued]
  split_ifs <;> omega

/-- A loop whose first turn is not taken returns its state. -/
theorem matchLoop_of_matchStep_none {passive : Side} {noCross : Int → Int → Bool}
    {st : MatchState} (h : matchStep passive noCross st = none) (fuel : Nat) :
    matchLoop passive noCross fuel st = st := by
  cases fuel <;> simp [matchLoop, h]

/-- A property of loop states that every turn keeps holds when the loop is left. -/
theorem matchLoop_induction {passive : Side} {noCross : Int → Int → Bool} (P : MatchState → Prop)
    (hstep : ∀ st st', P st → matchStep passive noCross st = some st' → P st') :
    ∀ (fuel : Nat) (st : MatchState), P st → P (matchLoop passive noCross fuel st)
  | 0, _, h => h
  | fuel + 1, st, h => by
    simp only [matchLoop]
    split
    · exact h
    · rename_i st' hs
      exact matchLoop_induction P hstep fuel st' (hstep st st' h hs)

/-- What a turn keeps: the incoming order but for its quantity, the allocator, the symbol and
the opposite side of the book; the index only loses entries. -/
theorem matchStep_frame {passive : Side} {noCross : Int → Int → Bool} {B : OrderBookImpl}
    {o : Order} {ts : List Trade} {st : MatchState}
    (h : matchStep passive noCross (B, o, ts) = some st) :
    st.2.1.orderId = o.orderId ∧ st.2.1.price = o.price ∧ st.2.1.side = o.side ∧
      st.1.nextPtr = B.nextPtr ∧ st.1.symbolId = B.symbolId ∧
      st.1.levels passive.opposite = B.levels passive.opposite ∧
      (keys st.1.orderMap).Sublist (keys B.orderMap) := by
  obtain ⟨-, k, l, rest, -, -, hcase⟩ := matchStep_cases h
  rcases hcase with ⟨-, rfl⟩ | ⟨p, ps, -, -, rfl⟩ | ⟨p, ps, -, -, rfl⟩ <;>
    simp [keys_eraseKey_sublist]

/-- A turn only drops or keeps the swept side's keys. -/
theorem matchStep_keys {passive : Side} {noCross : Int → Int → Bool} {B : OrderBookImpl}
    {o : Order} {ts : List Trade} {st : MatchState}
    (h : matchStep passive noCross (B, o, ts) = some st) (s : Side) :
    ∀ x ∈ keys (st.1.levels s), x ∈ keys (B.levels s) := by
  obtain ⟨-, k, l, rest, hl, -, hcase⟩ := matchStep_cases h
  rcases Side.eq_or_eq_opposite s passive with rfl | rfl
  · rcases hcase with ⟨-, rfl⟩ | ⟨p, ps, -, -, rfl⟩ | ⟨p, ps, -, -, rfl⟩
    · simp_all
    · by_cases hps : ps = [] <;> simp_all
    · simp_all
  · simp [(matchStep_frame h).2.2.2.2.2.1]

end Micromatch.Proofs
