import Micromatch.Proofs.Invariant

namespace Micromatch.Core

/-- The best price an order of side `s` would sweep: `best_ask()` for a bid, `best_bid()` for
an offer. -/
def OrderBookImpl.bestOpposite (B : OrderBookImpl) : Side → Option Int
  | .BUY => B.bestAsk
  | .SELL => B.bestBid

end Micromatch.Core

namespace Micromatch.Proofs
open Micromatch.Core OrderBookImpl PriceMap

theorem bestOpposite_eq (B : OrderBookImpl) (s : Side) :
    B.bestOpposite s = (B.levels s.opposite).head?.map Prod.fst := by
  cases s <;> rfl

/-- An admissible order that crosses nothing is not matched: `add_order` only queues it. -/
theorem addOrder_of_noCross {B : OrderBookImpl} {o : Order} (hq : 0 < o.quantity)
    (hpr : 0 < o.price) (hkey : lookup B.orderMap o.orderId = none)
    (hnc : ∀ best, B.bestOpposite o.side = some best → o.side.noCross o.price best) :
    B.addOrder o = ([], B.addToBook o) := by
  have hstep : matchStep o.side.opposite o.side.noCross (B, o, []) = none := by
    rw [bestOpposite_eq] at hnc
    cases hl : B.levels o.side.opposite with
    | nil => simp [matchStep, hl]
    | cons e rest => simp [matchStep, hl, hnc e.1 (by simp [hl])]
  rw [addOrder_eq, if_neg (not_or.mpr ⟨(UInt32.ne_of_lt hq).symm, not_le.mpr hpr⟩),
    if_neg (by simp [hkey]), matchLoop_of_matchStep_none hstep]
  simp [hq]

/-- `remove_order` of the id just queued at the back gives the level back as it was. -/
theorem removeOrder_addOrder {heap : Heap} {l : PriceLevelImpl} {p : Ptr} {orderId : UInt64}
    (hl : ∀ x ∈ l.orders, (heap x).orderId ≠ orderId) (hp : (heap p).orderId = orderId) :
    ((l.addOrder heap p).removeOrder heap orderId).2 = l := by
  have hkeep : l.orders.filter (fun x => !decide ((heap x).orderId = orderId)) = l.orders :=
    List.filter_eq_self.mpr (by simpa using hl)
  have hdrop : l.orders.filter (fun x => (heap x).orderId = orderId) = [] :=
    List.filter_eq_nil_iff.mpr (by simpa using hl)
  rw [PriceLevelImpl.removeOrder_eq]
  simp [List.filter_append, hkeep, hdrop, hp]

/-- Adding an admissible order that crosses nothing to a reachable book, then cancelling it, trades
nothing, succeeds, and restores the book but for the heap cell the order was given. -/
theorem add_then_cancel_restores {B : OrderBookImpl} (h : Reachable B) (o : Order)
    (hq : 0 < o.quantity) (hpr : 0 < o.price)
    (hfresh : ∀ p ∈ allQueued B, (B.heap p).orderId ≠ o.orderId)
    (hnc : ∀ best, B.bestOpposite o.side = some best → o.side.noCross o.price best) :
    let added := B.addOrder o
    let cancelled := added.2.cancelOrder o.orderId
    added.1 = [] ∧ cancelled.1 = true ∧ (∀ s, cancelled.2.levels s = B.levels s) ∧
      cancelled.2.orderMap = B.orderMap ∧ cancelled.2.nextTradeId = B.nextTradeId ∧
      cancelled.2.symbolId = B.symbolId ∧ ∀ p, p ≠ B.nextPtr → cancelled.2.heap p = B.heap p := by
  have hw := h.wf
  have hkey := hw.not_mem_keys_of_fresh hfresh
  rw [addOrder_of_noCross hq hpr (lookup_eq_none.mpr hkey) hnc]
  have hmap : (B.addToBook o).orderMap = B.orderMap ++ [(o.orderId, B.nextPtr)] := by
    simp [assign_of_not_mem hkey]
  have hlk : lookup (B.addToBook o).orderMap o.orderId = some B.nextPtr :=
    (lookup_eq_some (hw.addToBook hq hpr hkey).keysNodup).mpr (by rw [hmap]; simp)
  have hsw := hw.side o.side
  obtain ⟨-, hLo, -⟩ := hsw.lookup_getD o.price
  set L := (lookup (B.levels o.side) o.price).getD (PriceLevelImpl.mk' o.price)
  have hL : ∀ x ∈ L.orders, Function.update B.heap B.nextPtr o x = B.heap x ∧
      (B.heap x).orderId ≠ o.orderId := fun x hx => by
    have hxq := hw.mem_of_queued ((queued_perm_levelOrders hsw.sorted o.price).mem_iff.mpr
      (List.mem_append_left _ (hLo ▸ hx)))
    exact ⟨Function.update_noteq (fun h => Nat.lt_irrefl _ (h ▸ hw.allocated x hxq)) _ _,
      hfresh x hxq⟩
  have hlv : lookup ((B.addToBook o).levels ((B.addToBook o).heap B.nextPtr).side)
      ((B.addToBook o).heap B.nextPtr).price =
        some (L.addOrder (Function.update B.heap B.nextPtr o) B.nextPtr) := by
    simpa using lookup_insert hsw.sorted o.price _
  dsimp only
  rw [cancelOrder_of_lookup_some hlk hlv, addToBook_heap, Function.update_same,
    removeOrder_addOrder (fun x hx => (hL x hx).1 ▸ (hL x hx).2) (by simp)]
  refine ⟨rfl, rfl, fun t => ?_, by simp [assign_of_not_mem hkey, eraseKey_append_singleton, eraseKey_of_not_mem hkey],
    by simp, by simp,
    fun p hp => by simp [Function.update_noteq hp]⟩
  rcases Side.eq_or_eq_opposite t o.side with rfl | rfl
  · simp only [levels_setLevels, addToBook_levels_side]
    cases hl : lookup (B.levels o.side) o.price with
    | none =>
      simp [L, hl, PriceLevelImpl.mk', eraseKey_insert, eraseKey_of_not_mem (lookup_eq_none.mp hl)]
    | some l =>
      have hne := (hsw.level _ ((lookup_eq_some hsw.sorted.nodup).mp hl)).2
      simp [L, hl, hne, insert_insert, insert_of_lookup hsw.sorted hl]
  · simp

/-- A bid below the one resting offer, added and cancelled. -/
theorem round_trip_below_ask :
    let B := ((createOrderBook 1).addOrder ⟨1, 1, 101, 5, 0, .SELL⟩).2
    let o : Order := ⟨2, 1, 100, 3, 0, .BUY⟩
    let added := B.addOrder o
    let cancelled := added.2.cancelOrder o.orderId
    added.1 = [] ∧ cancelled.1 = true ∧ (∀ s, cancelled.2.levels s = B.levels s) ∧
      cancelled.2.orderMap = B.orderMap ∧ cancelled.2.nextTradeId = B.nextTradeId ∧
      cancelled.2.symbolId = B.symbolId ∧ ∀ p, p ≠ B.nextPtr → cancelled.2.heap p = B.heap p :=
  add_then_cancel_restores (.addOrder _ (.create 1)) ⟨2, 1, 100, 3, 0, .BUY⟩ (by decide) (by decide)
    (by decide) fun best hb => by
      rw [show ((createOrderBook 1).addOrder ⟨1, 1, 101, 5, 0, .SELL⟩).2.bestOpposite .BUY = some 101
        by decide] at hb
      cases hb
      decide

end Micromatch.Proofs
