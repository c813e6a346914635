import Micromatch.Proofs.BookCalls
import Micromatch.Proofs.Refinement
import Micromatch.Proofs.RoundTrip

namespace Micromatch.Proofs
open Micromatch.Core OrderBookImpl PriceMap

/-- A map through the levels of a side that keeps of each level's queue the addresses `P`
keeps, dropping levels left empty, keeps of the side's queued addresses those `P` keeps. -/
theorem queued_filterMap (f : Int × PriceLevelImpl → Option (Int × PriceLevelImpl))
    (P : Ptr → Bool) (m : PriceMap)
    (hf : ∀ e ∈ m, (f e).elim [] (·.2.orders) = e.2.orders.filter P) :
    queued (m.filterMap f) = (queued m).filter P := by
  induction m with
  | nil => rfl
  | cons e m ih =>
    rw [List.filterMap_cons, queued_cons, List.filter_append, ← hf e (List.mem_cons_self _ _),
      ← ih fun e' he' => hf e' (List.mem_cons_of_mem _ he')]
    cases f e <;> rfl

/-- `remove_order` of id `k` on the level at `pr`, dropping the level if it empties, when no
other level holds an order of id `k`. -/
theorem queued_removeOrder_level (heap : Heap) (k : UInt64) (pr : Int) (m : PriceMap)
    (hother : ∀ e ∈ m, e.1 ≠ pr → ∀ x ∈ e.2.orders, (heap x).orderId ≠ k) :
    queued (m.filterMap fun e => if e.1 ≠ pr then some e
      else if (e.2.removeOrder heap k).2.empty then none else some (e.1, (e.2.removeOrder heap k).2)) =
      (queued m).filter fun x => (heap x).orderId ≠ k := by
  refine queued_filterMap _ _ m fun e he => ?_
  have hkeep := (removeOrder_keeps_others e.2 heap k).1
  by_cases hpr : e.1 = pr
  · rw [if_neg (not_not.mpr hpr)]
    by_cases hempty : (e.2.removeOrder heap k).2.empty
    · rw [if_pos hempty]
      exact (hkeep.symm.trans ((PriceLevelImpl.empty_iff _).mp hempty)).symm
    · rw [if_neg hempty]
      exact hkeep
  · rw [if_pos hpr]
    exact (List.filter_eq_self.mpr fun x hx => decide_eq_true (hother e he hpr x hx)).symm

/-- `cancel_order` writes no order object. -/
theorem cancelOrder_heap (B : OrderBookImpl) (orderId : UInt64) :
    (B.cancelOrder orderId).2.heap = B.heap := by
  unfold OrderBookImpl.cancelOrder
  split
  · rfl
  · dsimp only
    split <;> simp

variable {B : OrderBookImpl}

/-- `cancel_order` of id `k` leaves on each side the queued orders but the one of id `k`. -/
theorem queued_cancelOrder (hw : Wf B) (k : UInt64) (s : Side) :
    queued ((B.cancelOrder k).2.levels s) =
      (queued (B.levels s)).filter fun x => (B.heap x).orderId ≠ k := by
  cases hk : lookup B.orderMap k with
  | none =>
    rw [cancelOrder_of_lookup_none hk, eq_comm, List.filter_eq_self]
    intro x hx
    have hnot := lookup_eq_none.mp hk
    refine decide_eq_true fun hid => hnot (mem_keys.mpr ⟨x, (hw.indexed k x).mpr ⟨?_, hid⟩⟩)
    exact mem_allQueued.mpr ⟨s, hx⟩
  | some p =>
    obtain ⟨hpq, rfl, l, hl, hpl⟩ := hw.locate hk
    have honly : ∀ t, ∀ x ∈ queued (B.levels t), (B.heap x).orderId = (B.heap p).orderId → x = p :=
      fun t x hx => hw.eq_of_orderId (mem_allQueued.mpr ⟨t, hx⟩) hpq
    rw [cancelOrder_of_lookup_some hk hl]
    rcases Side.eq_or_eq_opposite s (B.heap p).side with rfl | rfl
    · rw [levels_setLevels, setLevel_eq_filterMap (hw.side _).sorted hl
        fun v => (v.removeOrder B.heap (B.heap p).orderId).2]
      refine queued_removeOrder_level _ _ _ _ fun e he hne x hx hid => hne ?_
      obtain rfl := honly _ x (List.mem_flatMap.mpr ⟨e, he, hx⟩) hid
      exact ((hw.side _).order e he x hx).2.1.symm
    · rw [levels_setLevels_opposite, levels_mk, eq_comm, List.filter_eq_self]
      intro x hx
      refine decide_eq_true fun hid => ?_
      obtain rfl := honly _ x hx hid
      exact Side.opposite_ne _ ((hw.side _).of_mem_queued hx).1.symm

/-- After `cancel_order` of id `k`, the orders resting at each price and side are those that
rested there before, in the same order, but the one of id `k`. -/
theorem restingAt_cancelOrder (hw : Wf B) (k : UInt64) (pr : Int) (s : Side) :
    restingAt (B.cancelOrder k).2 pr s = (restingAt B pr s).filter fun o => o.orderId ≠ k := by
  simp only [restingAt, queued_cancelOrder hw, cancelOrder_heap, List.filter_map,
    List.filter_filter, Function.comp_def]
  congr 2
  funext x
  exact Bool.and_comm _ _

/-- In every reachable book, `modify_order` of a resting order to a positive quantity and price
crossing nothing returns the copy and trades nothing. Every price keeps its other orders in order,
and the copy rests at the back of its new price, whatever its old price and quantity. -/
theorem modifyOrder_requeues_at_back (h : Reachable B) {p : Ptr} (hp : p ∈ allQueued B)
    (newPrice : Int) (newQuantity : UInt32) (now : UInt64) (hq : 0 < newQuantity)
    (hpr : 0 < newPrice)
    (hnc : ∀ best, B.bestOpposite (B.heap p).side = some best →
      (B.heap p).side.noCross newPrice best) :
    (B.modifyOrder (B.heap p).orderId newPrice newQuantity now).1 =
        some { B.heap p with price := newPrice, quantity := newQuantity, timestampNs := now } ∧
      B.modifyOrderTrades (B.heap p).orderId newPrice newQuantity now = [] ∧
      ∀ pr s, restingAt (B.modifyOrder (B.heap p).orderId newPrice newQuantity now).2 pr s =
        (restingAt B pr s).filter (fun o => o.orderId ≠ (B.heap p).orderId) ++
          if s = (B.heap p).side ∧ pr = newPrice then
            [{ B.heap p with price := newPrice, quantity := newQuantity, timestampNs := now }]
          else [] := by
  have hw := h.wf
  have hk : lookup B.orderMap (B.heap p).orderId = some p :=
    (lookup_eq_some hw.keysNodup).mpr ((hw.indexed _ p).mpr ⟨hp, rfl⟩)
  obtain ⟨-, -, l, hl, -⟩ := hw.locate hk
  have hw₁ := hw.cancelOrder (B.heap p).orderId
  have hkey : lookup (B.cancelOrder (B.heap p).orderId).2.orderMap (B.heap p).orderId = none := by
    rw [cancelOrder_orderMap hk, lookup_eq_none]
    intro hm
    obtain ⟨v, hv⟩ := mem_keys.mp hm
    exact (mem_eraseKey.mp hv).2 rfl
  have hopp : (B.cancelOrder (B.heap p).orderId).2.bestOpposite (B.heap p).side =
      B.bestOpposite (B.heap p).side := by
    rw [bestOpposite_eq, bestOpposite_eq, cancelOrder_of_lookup_some hk hl,
      levels_setLevels_opposite, levels_mk]
  have hadd := addOrder_of_noCross
    (o := { B.heap p with price := newPrice, quantity := newQuantity, timestampNs := now })
    hq hpr hkey fun best hb => hnc best (hopp ▸ hb)
  have hw₂ := hw₁.addToBook
    (o := { B.heap p with price := newPrice, quantity := newQuantity, timestampNs := now })
    hq hpr (lookup_eq_none.mp hkey)
  refine ⟨by rw [modifyOrder_eq_of_lookup_some hk], by simp only [modifyOrderTrades, hk, hadd],
    fun pr s => ?_⟩
  rw [modifyOrder_of_lookup_some hk, hadd, restingAt_addToBook hw₁ hw₂, restingAt_cancelOrder hw]
  split_ifs <;> simp_all

/-- Two bids at 100, ids 1 then 2: modifying bid 1 to its own price and quantity puts it
behind bid 2. -/
theorem modify_same_values_goes_last :
    let B := (((createOrderBook 1).addOrder ⟨1, 1, 100, 5, 0, .BUY⟩).2.addOrder
      ⟨2, 1, 100, 3, 0, .BUY⟩).2
    (B.modifyOrder (B.heap 0).orderId 100 5 9).1 =
        some { B.heap 0 with price := 100, quantity := 5, timestampNs := 9 } ∧
      B.modifyOrderTrades (B.heap 0).orderId 100 5 9 = [] ∧
      ∀ pr s, restingAt (B.modifyOrder (B.heap 0).orderId 100 5 9).2 pr s =
        (restingAt B pr s).filter (fun o => o.orderId ≠ (B.heap 0).orderId) ++
          if s = (B.heap 0).side ∧ pr = 100 then
            [{ B.heap 0 with price := 100, quantity := 5, timestampNs := 9 }]
          else [] :=
  modifyOrder_requeues_at_back (.addOrder _ (.addOrder _ (.create 1))) (p := 0) (by decide) 100 5 9
    (by decide) (by decide) fun best hb => by
      have hnone : (((createOrderBook 1).addOrder ⟨1, 1, 100, 5, 0, .BUY⟩).2.addOrder
          ⟨2, 1, 100, 3, 0, .BUY⟩).2.bestOpposite
          ((((createOrderBook 1).addOrder ⟨1, 1, 100, 5, 0, .BUY⟩).2.addOrder
            ⟨2, 1, 100, 3, 0, .BUY⟩).2.heap 0).side = none := by decide
      rw [hnone] at hb
      cases hb

end Micromatch.Proofs
