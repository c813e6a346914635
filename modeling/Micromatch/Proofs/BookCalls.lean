import Micromatch.Proofs.Refinement
import Micromatch.Core.Engine

namespace Micromatch.Core.PriceMap

/-- On a sorted map that has the key, `insert` replaces its entry in place. -/
theorem insert_of_mem_keys {s : Side} {m : PriceMap} (h : Sorted s m) {k : Int}
    (hk : k ∈ keys m) (v : PriceLevelImpl) :
    insert s.before k v m = m.map fun e => if e.1 = k then (k, v) else e := by
  induction m with
  | nil => simp at hk
  | cons e m ih =>
    obtain ⟨k', v'⟩ := e
    by_cases he : k = k'
    · subst he
      have hm : ∀ e ∈ m, e.1 ≠ k := fun e he hek => h.not_mem (hek ▸ mem_keys.mpr ⟨e.2, he⟩)
      simp [PriceMap.insert, List.map_congr_left (fun e he => if_neg (hm e he))]
    · have hkm : k ∈ keys m := (List.mem_cons.mp hk).resolve_left he
      have hb : s.before k k' = false := by
        cases hb : s.before k k'
        · rfl
        · simpa [Side.before_irrefl] using Side.before_trans hb (h.before_of_mem hkm)
      simp [PriceMap.insert, he, hb, ih h.tail hkm, Ne.symm he]

end Micromatch.Core.PriceMap

namespace Micromatch.Core

end Micromatch.Core

namespace Micromatch.Proofs
open Micromatch.Core OrderBookImpl PriceMap

/-- The drain loop of `remove_order`, on any queue (ids may repeat, quantities may be zero):
it keeps exactly the orders of other ids, in their FIFO order, takes the quantities of the
others off `total_volume_` modulo 2^32, and reports whether it met the id. -/
theorem removeOrder_keeps_others (l : PriceLevelImpl) (heap : Heap) (k : UInt64) :
    (l.removeOrder heap k).2.orders = l.orders.filter (fun p => (heap p).orderId ≠ k) ∧
      (l.removeOrder heap k).2.totalVolume +
          ((l.orders.filter fun p => (heap p).orderId = k).map fun p => (heap p).quantity).sum =
        l.totalVolume ∧
      (l.removeOrder heap k).2.price = l.price ∧
      ((l.removeOrder heap k).1 = true ↔ ∃ p ∈ l.orders, (heap p).orderId = k) := by
  simp [PriceLevelImpl.removeOrder_eq]

/-- The level `remove_order` leaves when the book is well formed: the one order with the id
is gone and its quantity is off the volume. -/
theorem Wf.removeOrder_eq {B : OrderBookImpl} (hw : Wf B) {s : Side} {pr : Int}
    {l : PriceLevelImpl} (hlk : lookup (B.levels s) pr = some l) {p : Ptr} (hp : p ∈ l.orders) :
    (l.removeOrder B.heap (B.heap p).orderId).2 =
      { l with orders := l.orders.erase p, totalVolume := l.totalVolume - (B.heap p).quantity } := by
  obtain ⟨hl, hnd⟩ := hw.level_of_lookup hlk
  have hid : ∀ x ∈ l.orders, (B.heap x).orderId = (B.heap p).orderId ↔ x = p := fun x hx =>
    ⟨hw.eq_of_orderId (hw.mem_of_queued (hl x hx)) (hw.mem_of_queued (hl p hp)), by rintro rfl; rfl⟩
  have hkeep : l.orders.filter (fun x => (B.heap x).orderId ≠ (B.heap p).orderId) =
      l.orders.erase p := by
    rw [hnd.erase_eq_filter]
    exact List.filter_congr fun x hx => by by_cases hxp : x = p <;> simp [hid x hx, hxp]
  have hdrop : l.orders.filter (fun x => (B.heap x).orderId = (B.heap p).orderId) = [p] := by
    rw [List.filter_congr (q := fun x => decide (x = p)) fun x hx => by simp [hid x hx],
      List.filter_eq, List.count_eq_one_of_mem hnd hp]
    rfl
  rw [PriceLevelImpl.removeOrder_eq, hkeep, hdrop]
  simp

/-- What the erase-or-reinsert of the level at `k` does to a side: a map through its entries
that changes or drops the one at `k`. -/
theorem setLevel_eq_filterMap {s : Side} {m : PriceMap} (hs : Sorted s m) {k : Int}
    {l : PriceLevelImpl} (hl : lookup m k = some l) (f : PriceLevelImpl → PriceLevelImpl) :
    (if (f l).empty then eraseKey m k else PriceMap.insert s.before k (f l) m) =
      m.filterMap fun e => if e.1 ≠ k then some e else if (f e.2).empty then none else some (e.1, f e.2) := by
  have hat : ∀ e ∈ m, e.1 = k → e = (k, l) := fun e he hek => by
    obtain ⟨k', v⟩ := e
    obtain rfl : k' = k := hek
    obtain rfl := Option.some_injective _ (((lookup_eq_some hs.nodup).mpr he).symm.trans hl)
    rfl
  by_cases he : (f l).empty
  · rw [if_pos he, eraseKey, ← List.filterMap_eq_filter]
    refine List.filterMap_congr fun (e : Int × PriceLevelImpl) hem => ?_
    by_cases hek : e.1 = k
    · simp [hek, Option.guard, hat e hem hek, he]
    · simp [hek, Option.guard]
  · rw [if_neg he, insert_of_mem_keys hs (mem_keys.mpr ⟨l, (lookup_eq_some hs.nodup).mp hl⟩),
      ← List.filterMap_eq_map]
    refine List.filterMap_congr fun (e : Int × PriceLevelImpl) hem => ?_
    by_cases hek : e.1 = k
    · simp [hek, hat e hem hek, he]
    · simp [hek]

/-- `cancel_order` reports whether the id is indexed. -/
theorem cancelOrder_fst_eq (B : OrderBookImpl) (k : UInt64) :
    (B.cancelOrder k).1 = (lookup B.orderMap k).isSome := by
  cases hk : lookup B.orderMap k with
  | none => rw [cancelOrder_of_lookup_none hk]; rfl
  | some p => exact cancelOrder_fst hk

/-- `cancel_order` on a reachable book succeeds iff an order with the id rests, and then removes
exactly that order: its level keeps the others in FIFO order and is dropped iff none remain, and
`order_map_` loses the id. A failed cancel changes nothing. -/
theorem reachable_cancelOrder {B : OrderBookImpl} (h : Reachable B) (k : UInt64) :
    ((B.cancelOrder k).1 = true ↔ ∃ p ∈ allQueued B, (B.heap p).orderId = k) ∧
      ((B.cancelOrder k).1 = false → (B.cancelOrder k).2 = B) ∧
      ∀ p ∈ allQueued B, (B.heap p).orderId = k →
        (B.cancelOrder k).2 =
          ({ B with orderMap := eraseKey B.orderMap k }).setLevels (B.heap p).side
            ((B.levels (B.heap p).side).filterMap fun (e : Int × PriceLevelImpl) =>
              if e.1 ≠ (B.heap p).price then some e
              else if e.2.orders.erase p = [] then none
              else some (e.1, { e.2 with orders := e.2.orders.erase p,
                                         totalVolume := e.2.totalVolume - (B.heap p).quantity })) := by
  have hw := h.wf
  refine ⟨?_, fun hf => ?_, fun p hp hid => ?_⟩
  · rw [cancelOrder_fst_eq, lookup_isSome, mem_keys]
    exact exists_congr fun p => hw.indexed k p
  · cases hk : lookup B.orderMap k with
    | none => rw [cancelOrder_of_lookup_none hk]
    | some q => rw [cancelOrder_fst hk] at hf; cases hf
  · subst hid
    have hk : lookup B.orderMap (B.heap p).orderId = some p :=
      (lookup_eq_some hw.keysNodup).mpr ((hw.indexed _ p).mpr ⟨hp, rfl⟩)
    obtain ⟨-, -, l, hl, hpl⟩ := hw.locate hk
    have hlk := setLevel_eq_filterMap (hw.side (B.heap p).side).sorted hl
      fun v => { v with orders := v.orders.erase p, totalVolume := v.totalVolume - (B.heap p).quantity }
    simp only [PriceLevelImpl.empty_iff] at hlk
    rw [cancelOrder_of_lookup_some hk hl, hw.removeOrder_eq hl hpl]
    simp only [PriceLevelImpl.empty_iff, hlk]

/-- Three bids at one price, reached by `add_order`: cancelling the middle one leaves the first
and the last, in that order, at the level. -/
theorem cancel_middle_of_three_bids :
    let B := ((((createOrderBook 1).addOrder ⟨1, 1, 100, 5, 0, .BUY⟩).2.addOrder
      ⟨2, 1, 100, 3, 0, .BUY⟩).2.addOrder ⟨3, 1, 100, 4, 0, .BUY⟩).2
    Reachable B ∧ ((B.cancelOrder 2).2.levels .BUY).map (fun e => (e.1, e.2.orders)) = [(100, [0, 2])] ∧
      (((B.cancelOrder 2).1 = true ↔ ∃ p ∈ allQueued B, (B.heap p).orderId = 2) ∧
        ((B.cancelOrder 2).1 = false → (B.cancelOrder 2).2 = B) ∧
        ∀ p ∈ allQueued B, (B.heap p).orderId = 2 →
          (B.cancelOrder 2).2 =
            ({ B with orderMap := eraseKey B.orderMap 2 }).setLevels (B.heap p).side
              ((B.levels (B.heap p).side).filterMap fun (e : Int × PriceLevelImpl) =>
                if e.1 ≠ (B.heap p).price then some e
                else if e.2.orders.erase p = [] then none
                else some (e.1, { e.2 with orders := e.2.orders.erase p,
                                           totalVolume := e.2.totalVolume - (B.heap p).quantity }))) :=
  have h : Reachable ((((createOrderBook 1).addOrder ⟨1, 1, 100, 5, 0, .BUY⟩).2.addOrder
      ⟨2, 1, 100, 3, 0, .BUY⟩).2.addOrder ⟨3, 1, 100, 4, 0, .BUY⟩).2 :=
    .addOrder _ (.addOrder _ (.addOrder _ (.create 1)))
  ⟨h, by decide, reachable_cancelOrder h 2⟩

theorem cancelOrder_orderMap {B : OrderBookImpl} {k : UInt64} {p : Ptr}
    (hp : lookup B.orderMap k = some p) :
    (B.cancelOrder k).2.orderMap = eraseKey B.orderMap k := by
  unfold OrderBookImpl.cancelOrder
  simp only [hp]
  split <;> simp

/-- Every trade of the matching loop names the incoming order as its buyer. -/
theorem matchLoop_buyOrderId (passive : Side) (noCross : Int → Int → Bool) (fuel : Nat)
    (B : OrderBookImpl) (o : Order) :
    ∀ t ∈ (matchLoop passive noCross fuel (B, o, [])).2.2, t.buyOrderId = o.orderId := by
  refine (matchLoop_induction (fun st => st.2.1.orderId = o.orderId ∧
    ∀ t ∈ st.2.2, t.buyOrderId = o.orderId) ?_ fuel (B, o, []) ⟨rfl, by simp⟩).2
  rintro ⟨B, o', ts⟩ st ⟨hid, hts⟩ hs
  obtain ⟨-, k, l, rest, -, -, hcase⟩ := matchStep_cases hs
  rcases hcase with ⟨-, rfl⟩ | ⟨p, ps, -, -, rfl⟩ | ⟨p, ps, -, -, rfl⟩
  · exact ⟨hid, hts⟩
  all_goals
    refine ⟨hid, fun t ht => ?_⟩
    rcases List.mem_append.mp ht with ht | ht
    · exact hts t ht
    · obtain rfl := List.mem_singleton.mp ht
      exact hid

theorem addOrder_buyOrderId (B : OrderBookImpl) (o : Order) :
    ∀ t ∈ (B.addOrder o).1, t.buyOrderId = o.orderId := by
  rw [addOrder_eq]
  split_ifs
  · simp
  · simp
  · dsimp only
    split_ifs <;> exact matchLoop_buyOrderId _ _ _ B o

/-- Each fill of the reference walk pairs the incoming order with one of the resting orders. -/
theorem refSweep_parties (crosses : Int → Int → Bool) :
    ∀ (tid : UInt64) (o : Order) (R : List Order), ∀ f ∈ (Spec.refSweep crosses tid o R).1,
      ∃ r ∈ R, f.parties = s(o.orderId, r.orderId)
  | _, _, [] => by simp
  | tid, o, r :: R => by
    simp only [Spec.refSweep]
    split_ifs
    · intro f hf
      rcases List.mem_cons.mp hf with rfl | hf
      · exact ⟨r, List.mem_cons_self _ _, rfl⟩
      · obtain ⟨r', hr', he⟩ := refSweep_parties crosses _ _ R f hf
        exact ⟨r', List.mem_cons_of_mem _ hr', he⟩
    · simp
    · simp

/-- The trades an incoming offer makes in a reachable book, when it is admissible and its id
is fresh. `generate_trade(aggressive, passive)` hands the offer to `Trade` as the buy order:
every trade names the offer as its buyer, and as its seller a bid that was resting, never the
offer. -/
theorem sell_trades_name_seller_as_buyer {B : OrderBookImpl} (h : Reachable B) (o : Order)
    (hs : o.side = .SELL) (hq : 0 < o.quantity) (hpr : 0 < o.price)
    (hfresh : ∀ p ∈ allQueued B, (B.heap p).orderId ≠ o.orderId) :
    ∀ t ∈ (B.addOrder o).1, t.buyOrderId = o.orderId ∧ t.sellOrderId ≠ o.orderId ∧
      ∃ q ∈ queued (B.levels .BUY), t.sellOrderId = (B.heap q).orderId := by
  have hw := h.wf
  obtain ⟨hfill, -⟩ := addOrder_refSweep hw o hq hpr (hw.not_mem_keys_of_fresh hfresh)
  intro t ht
  have hbuy := addOrder_buyOrderId B o t ht
  have hmem : t.fill ∈ (B.addOrder o).1.map Trade.fill := List.mem_map_of_mem _ ht
  rw [hfill] at hmem
  obtain ⟨r, hr, hpar⟩ := refSweep_parties _ _ _ _ _ hmem
  rw [hs] at hr
  obtain ⟨q, hq, rfl⟩ := List.mem_map.mp hr
  have hsell : t.sellOrderId = (B.heap q).orderId := by
    have : s(o.orderId, t.sellOrderId) = s(o.orderId, (B.heap q).orderId) := by
      simpa [Trade.fill, Trade.parties, hbuy] using hpar
    exact Sym2.congr_right.mp this
  exact ⟨hbuy, hsell ▸ hfresh q (List.mem_append_left _ hq), q, hq, hsell⟩

/-- A bid of 5 at 100 rests and an offer of 5 at 100 fills it: the trade names the offer, order 2,
as its buyer and the bid as its seller. -/
theorem offer_fills_bid_labels_swapped :
    let B := ((createOrderBook 1).addOrder ⟨1, 1, 100, 5, 0, .BUY⟩).2
    let o : Order := ⟨2, 1, 100, 5, 0, .SELL⟩
    (B.addOrder o).1 = [⟨1, 2, 1, 1, 100, 5⟩] ∧
      Reachable B ∧ o.side = .SELL ∧ 0 < o.quantity ∧ 0 < o.price ∧
      (∀ p ∈ allQueued B, (B.heap p).orderId ≠ o.orderId) ∧
      ∀ t ∈ (B.addOrder o).1, t.buyOrderId = o.orderId ∧ t.sellOrderId ≠ o.orderId ∧
        ∃ q ∈ queued (B.levels .BUY), t.sellOrderId = (B.heap q).orderId :=
  ⟨by decide, .addOrder _ (.create 1), rfl, by decide, by decide, by decide,
    sell_trades_name_seller_as_buyer (.addOrder _ (.create 1)) _ rfl (by decide) (by decide)
      (by decide)⟩

/-- What a turn of the loop that does not exit does, on any book: it erases the best level
when that level is empty, takes the front order off the swept side, or uses up the incoming
order. -/
theorem matchStep_progress {passive : Side} {noCross : Int → Int → Bool} {st st' : MatchState}
    (h : matchStep passive noCross st = some st') :
    (∃ k l rest, st.1.levels passive = (k, l) :: rest ∧ l.orders = [] ∧
        st'.1.levels passive = rest) ∨
      (∃ p, queued (st.1.levels passive) = p :: queued (st'.1.levels passive)) ∨
      st'.2.1.quantity = 0 := by
  obtain ⟨B, o, ts⟩ := st
  obtain ⟨-, k, l, rest, hl, -, hcase⟩ := matchStep_cases h
  rcases hcase with ⟨he, rfl⟩ | ⟨p, ps, hp, -, rfl⟩ | ⟨p, ps, hp, -, rfl⟩
  · exact .inl ⟨k, l, rest, hl, he, by simp⟩
  · refine .inr (.inl ⟨p, ?_⟩)
    by_cases hps : ps = [] <;> simp [queued, hl, hp, hps]
  · exact .inr (.inr (by simp))

/-- Once the loop has stopped on its own, more fuel changes nothing. -/
theorem matchLoop_stable {passive : Side} {noCross : Int → Int → Bool} :
    ∀ (n : Nat) (st : MatchState), matchStep passive noCross (matchLoop passive noCross n st) = none →
      ∀ fuel ≥ n, matchLoop passive noCross fuel st = matchLoop passive noCross n st
  | 0, st, h, fuel, _ => matchLoop_of_matchStep_none h fuel
  | _ + 1, _, _, 0, hf => absurd hf (by omega)
  | n + 1, st, h, fuel + 1, hf => by
    simp only [matchLoop] at h ⊢
    cases hs : matchStep passive noCross st with
    | none => rfl
    | some st' =>
      rw [hs] at h
      exact matchLoop_stable n st' h fuel (by omega)

/-- The `while` loops of `match_buy_order` and `match_sell_order` on any book, well formed or not,
run their body at most once per level and per resting order of the swept side, plus one. Fuel beyond
that count gives the same result. -/
theorem matchLoop_terminates (passive : Side) (noCross : Int → Int → Bool) (B : OrderBookImpl)
    (o : Order) :
    (∀ st st' : MatchState, matchStep passive noCross st = some st' →
      (∃ k l rest, st.1.levels passive = (k, l) :: rest ∧ l.orders = [] ∧
          st'.1.levels passive = rest) ∨
        (∃ p, queued (st.1.levels passive) = p :: queued (st'.1.levels passive)) ∨
        st'.2.1.quantity = 0) ∧
      ∃ n ≤ (B.levels passive).length + (queued (B.levels passive)).length + 1,
        matchStep passive noCross (matchLoop passive noCross n (B, o, [])) = none ∧
        ∀ fuel ≥ n, matchLoop passive noCross fuel (B, o, []) = matchLoop passive noCross n (B, o, []) := by
  have hn : loopMeasure passive (B, o, []) ≤
      (B.levels passive).length + (queued (B.levels passive)).length + 1 := by
    simp only [loopMeasure]
    split_ifs <;> omega
  have hstop := @matchStep_matchLoop passive noCross _ (B, o, []) le_rfl
  exact ⟨fun _ _ => matchStep_progress, _, hn, hstop, matchLoop_stable _ _ hstop⟩

end Micromatch.Proofs
