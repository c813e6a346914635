import Micromatch.Proofs.Volume
import Micromatch.Proofs.TradeIds
import Micromatch.Spec.PriceTime

namespace Micromatch.Core

/-- What the contract says of a trade the book makes. -/
def Trade.fill (t : Trade) : Spec.Fill := ⟨t.tradeId, t.parties, t.price, t.quantity⟩

end Micromatch.Core

namespace Micromatch.Proofs
open Micromatch.Core Micromatch.Spec OrderBookImpl PriceMap

/-- The resting orders of side `s`, as the book holds them: level by level from the best,
front first within a level. -/
def resting (B : OrderBookImpl) (s : Side) : List Order := (queued (B.levels s)).map B.heap

theorem restingAt_eq_filter (B : OrderBookImpl) (p : Int) (s : Side) :
    restingAt B p s = (resting B s).filter fun o => o.price = p := rfl

theorem Side.crosses_eq (s : Side) : Spec.Side.crosses s = fun a b => !s.noCross a b := by
  funext a b
  cases s <;> simp only [Spec.Side.crosses, Side.noCross, ← decide_not, not_lt, ge_iff_le, gt_iff_lt]

section Sweep

variable {passive : Side} {noCross : Int → Int → Bool}

/-- A turn of the matching loop is a turn of the reference walk over the resting orders of the
swept side: one trade, the next trade id, and the walk goes on from the new book. -/
theorem refSweep_matchStep {B B' : OrderBookImpl} (hw : Wf B) {o o' : Order} {ts ts' : List Trade}
    (h : matchStep passive noCross (B, o, ts) = some (B', o', ts')) :
    ∃ t, ts' = ts ++ [t] ∧ B'.nextTradeId = B.nextTradeId + 1 ∧
      resting B' passive.opposite = resting B passive.opposite ∧
      refSweep (fun a b => !noCross a b) B.nextTradeId o (resting B passive) =
        (t.fill :: (refSweep (fun a b => !noCross a b) B'.nextTradeId o' (resting B' passive)).1,
         (refSweep (fun a b => !noCross a b) B'.nextTradeId o' (resting B' passive)).2) := by
  obtain ⟨hq, k, l, rest, hl, hc, hcase⟩ := matchStep_cases h
  have hsw := hw.side passive
  rw [hl] at hsw
  rcases hcase with ⟨he, -⟩ | ⟨p, ps, hp, hle, hst⟩ | ⟨p, ps, hp, hlt, hst⟩
  · exact absurd he (hsw.level _ (List.mem_cons_self _ _)).2
  all_goals
    simp only [Prod.mk.injEq] at hst
    obtain ⟨rfl, rfl, rfl⟩ := hst
    have hpn := hw.front_unique hl hp
    simp only [List.mem_append, not_or] at hpn
    obtain rfl : (B.heap p).price = k :=
      (hsw.order _ (List.mem_cons_self _ _) p (hp ▸ List.mem_cons_self _ _)).2.1
    have hR : resting B passive = B.heap p :: (ps ++ queued rest).map B.heap := by
      simp [resting, hl, hp]
    have hf : ∀ {x : Order} {ps' : List Ptr}, p ∉ ps' → ps'.map (Function.update B.heap p x) =
        ps'.map B.heap :=
      fun hn => List.map_congr_left fun y hy => Function.update_noteq (ne_of_mem_of_not_mem hy hn) _ _
    refine ⟨_, rfl, by simp, by simpa [resting] using hf hpn.2, ?_⟩
    rw [hR, refSweep, if_pos ⟨hq, by simp [hc]⟩]
  · have h1 := hf (x := { B.heap p with quantity := 0 }) hpn.1.1
    have h2 := hf (x := { B.heap p with quantity := 0 }) hpn.1.2
    by_cases hps : ps = [] <;>
      simp [hps, resting, h1, h2, UInt32.min_eq_right_of_le hle, Trade.fill, Trade.ofOrders,
        Trade.parties]
  · have h1 := hf (x := { B.heap p with quantity := (B.heap p).quantity - o.quantity }) hpn.1.1
    have h2 := hf (x := { B.heap p with quantity := (B.heap p).quantity - o.quantity }) hpn.1.2
    have hne : (B.heap p).quantity - o.quantity ≠ 0 :=
      (UInt32.ne_of_lt (UInt32.sub_pos_of_lt hlt)).symm
    simp [resting, hp, h1, h2, UInt32.min_eq_left_of_le (UInt32.le_of_lt hlt), hne,
      refSweep_of_quantity_eq_zero, Trade.fill, Trade.ofOrders, Trade.parties]

/-- A loop that stops at once is a walk that stops at once. -/
theorem refSweep_of_matchStep_none {B : OrderBookImpl} (hw : Wf B) {o : Order} {ts : List Trade}
    (h : matchStep passive noCross (B, o, ts) = none) (tid : UInt64) :
    refSweep (fun a b => !noCross a b) tid o (resting B passive) = ([], o, resting B passive) := by
  rcases matchStep_eq_none h with h0 | hnil | ⟨k, l, rest, hl, hc⟩
  · exact refSweep_of_quantity_eq_zero _ _ h0 _
  · simp [resting, hnil]
  · have hsw := hw.side passive
    rw [hl] at hsw
    obtain ⟨p, ps, hp⟩ : ∃ p ps, l.orders = p :: ps :=
      List.exists_cons_of_ne_nil (hsw.level _ (List.mem_cons_self _ _)).2
    have hpk := (hsw.order _ (List.mem_cons_self _ _) p (hp ▸ List.mem_cons_self _ _)).2.1
    have hR : resting B passive = B.heap p :: (ps ++ queued rest).map B.heap := by
      simp [resting, hl, hp]
    rw [hR]
    exact refSweep_of_not_crosses _ _ _ (by simp [hpk, hc]) _

/-- The matching loop, given enough turns, is the reference walk over the swept side: it makes
the walk's fills with consecutive trade ids, leaves the incoming order and the swept side as
the walk does, and leaves the other side's orders alone. -/
theorem matchLoop_refSweep (fuel : Nat) : ∀ {B : OrderBookImpl} {o : Order} {ts : List Trade},
    Wf B → loopMeasure passive (B, o, ts) ≤ fuel →
    let st := matchLoop passive noCross fuel (B, o, ts)
    let ref := refSweep (fun a b => !noCross a b) B.nextTradeId o (resting B passive)
    ∃ new, st.2.2 = ts ++ new ∧ new.map Trade.fill = ref.1 ∧ st.2.1 = ref.2.1 ∧
      resting st.1 passive = ref.2.2 ∧ resting st.1 passive.opposite = resting B passive.opposite ∧
      st.1.nextTradeId = B.nextTradeId + UInt64.ofNat new.length := by
  induction fuel with
  | zero =>
    intro B o ts hw hm
    have hs : matchStep passive noCross (B, o, ts) = none := matchStep_matchLoop 0 _ hm
    rw [refSweep_of_matchStep_none hw hs]
    exact ⟨[], by simp [matchLoop], rfl, rfl, rfl, rfl, by simp [matchLoop]⟩
  | succ fuel ih =>
    intro B o ts hw hm
    cases hs : matchStep passive noCross (B, o, ts) with
    | none =>
      rw [matchLoop_of_matchStep_none hs, refSweep_of_matchStep_none hw hs]
      exact ⟨[], by simp, rfl, rfl, rfl, rfl, by simp⟩
    | some st' =>
      obtain ⟨B', o', ts'⟩ := st'
      obtain ⟨t, rfl, hid, hopp, hstep⟩ := refSweep_matchStep hw hs
      obtain ⟨new, h1, h2, h3, h4, h5, h6⟩ :=
        ih (hw.matchStep hs) (Nat.lt_succ_iff.mp (lt_of_lt_of_le (loopMeasure_lt hs) hm))
      have hloop : matchLoop passive noCross (fuel + 1) (B, o, ts) =
          matchLoop passive noCross fuel (B', o', ts ++ [t]) := by
        simp [matchLoop, hs]
      dsimp only at h1 h2 h3 h4 h5 h6 ⊢
      rw [hloop, hstep]
      refine ⟨t :: new, by simp [h1], by simp [h2], h3, h4, h5.trans hopp, ?_⟩
      rw [h6, hid, List.length_cons, UInt64.ofNat_succ]
      abel

end Sweep

/-- Every level queues its orders in arrival order. -/
def Fifo (B : OrderBookImpl) : Prop := ∀ s, ∀ e ∈ B.levels s, e.2.orders.Pairwise (· < ·)

/-- Price-time priority between two queued orders of side `s`: a better price, or the same
price and an earlier arrival. -/
def PriceTime (s : Side) (heap : Heap) (p q : Ptr) : Prop :=
  s.before (heap p).price (heap q).price ∨ ((heap p).price = (heap q).price ∧ p < q)

/-- On a well-formed side whose queues are oldest first, the queued orders are listed in
price-time priority. -/
theorem SideWf.priceTime {heap : Heap} {s : Side} {m : PriceMap} (hsw : SideWf heap s m)
    (hf : ∀ e ∈ m, e.2.orders.Pairwise (· < ·)) : (queued m).Pairwise (PriceTime s heap) := by
  induction m with
  | nil => simp
  | cons e m ih =>
    have he := hsw.order e (List.mem_cons_self _ _)
    rw [queued_cons, List.pairwise_append]
    refine ⟨(hf e (List.mem_cons_self _ _)).imp_of_mem fun hx hy hxy =>
        .inr ⟨(he _ hx).2.1.trans (he _ hy).2.1.symm, hxy⟩,
      ih hsw.tail fun e' he' => hf e' (List.mem_cons_of_mem _ he'), fun x hx y hy => .inl ?_⟩
    obtain ⟨e', he', hye⟩ := List.mem_flatMap.mp hy
    rw [(he _ hx).2.1, (hsw.order e' (List.mem_cons_of_mem _ he') y hye).2.1]
    exact hsw.sorted.before_of_mem (mem_keys.mpr ⟨e'.2, he'⟩)

namespace Fifo

variable {B : OrderBookImpl}

theorem matchStep {passive : Side} {noCross : Int → Int → Bool} (hf : Fifo B) {o : Order}
    {ts : List Trade} {st : MatchState}
    (h : Core.OrderBookImpl.matchStep passive noCross (B, o, ts) = some st) : Fifo st.1 := by
  obtain ⟨-, k, l, rest, hl, -, hcase⟩ := matchStep_cases h
  have hfp := hf passive
  rw [hl] at hfp
  have hrest : ∀ e ∈ rest, e.2.orders.Pairwise (· < ·) := fun e he =>
    hfp e (List.mem_cons_of_mem _ he)
  have hlo := hfp (k, l) (List.mem_cons_self _ _)
  intro t
  rcases Side.eq_or_eq_opposite t passive with rfl | rfl
  · rcases hcase with ⟨-, rfl⟩ | ⟨p, ps, hp, -, rfl⟩ | ⟨p, ps, hp, -, rfl⟩
    · simpa only [levels_setLevels] using hrest
    · simp only [levels_setLevels]
      split_ifs
      · exact hrest
      · rw [hp] at hlo
        exact List.forall_mem_cons.mpr ⟨hlo.of_cons, hrest⟩
    · simp only [levels_setLevels]
      exact List.forall_mem_cons.mpr ⟨hlo, hrest⟩
  · rcases hcase with ⟨-, rfl⟩ | ⟨p, ps, hp, -, rfl⟩ | ⟨p, ps, hp, -, rfl⟩ <;>
      simpa only [levels_setLevels_opposite, levels_mk] using hf _

theorem matchLoop (hf : Fifo B) (passive : Side) (noCross : Int → Int → Bool) (fuel : Nat)
    (o : Order) (ts : List Trade) :
    Fifo (Core.OrderBookImpl.matchLoop passive noCross fuel (B, o, ts)).1 :=
  matchLoop_induction (fun st => Fifo st.1) (fun ⟨_, _, _⟩ _ h hs => h.matchStep hs) fuel _ hf

/-- The new order takes the next address, above every queued one, at the back of its level. -/
theorem addToBook (hw : Wf B) (hf : Fifo B) (o : Order) : Fifo (B.addToBook o) := by
  intro t
  rcases Side.eq_or_eq_opposite t o.side with rfl | rfl
  · obtain ⟨-, hLo, -⟩ := (hw.side o.side).lookup_getD o.price
    rw [addToBook_levels_side]
    intro e he
    rcases (mem_insert (hw.side o.side).sorted).mp he with rfl | he
    · rw [PriceLevelImpl.addOrder_orders, List.pairwise_append]
      refine ⟨?_, List.pairwise_singleton _ _, fun x hx y hy => ?_⟩
      · cases hl : lookup (B.levels o.side) o.price with
        | none => simp [PriceLevelImpl.mk']
        | some l => simpa using hf _ _ ((lookup_eq_some (hw.side _).sorted.nodup).mp hl)
      · obtain rfl := List.mem_singleton.mp hy
        rw [hLo] at hx
        exact hw.allocated x (hw.mem_of_queued ((queued_perm_levelOrders (hw.side _).sorted
          o.price).mem_iff.mpr (List.mem_append_left _ hx)))
    · exact hf _ e (mem_eraseKey.mp he).1
  · rw [addToBook_levels_opposite]
    exact hf _

theorem addOrder (hw : Wf B) (hf : Fifo B) (order : Order) : Fifo (B.addOrder order).2 := by
  rw [addOrder_eq]
  split_ifs
  · exact hf
  · exact hf
  have hw' := (hw.matchLoop order.side.opposite order.side.noCross
    (B.sweepBound order.side.opposite) order []).1
  have hf' := hf.matchLoop order.side.opposite order.side.noCross
    (B.sweepBound order.side.opposite) order []
  dsimp only
  split_ifs
  · exact hf'.addToBook hw' _
  · exact hf'

/-- `remove_order` keeps the other orders of the level in their order. -/
theorem cancelOrder (hw : Wf B) (hf : Fifo B) (orderId : UInt64) :
    Fifo (B.cancelOrder orderId).2 := by
  cases hk : lookup B.orderMap orderId with
  | none => rw [cancelOrder_of_lookup_none hk]; exact hf
  | some p =>
    cases hl : lookup (B.levels (B.heap p).side) (B.heap p).price with
    | none => intro s; simpa only [OrderBookImpl.cancelOrder, hk, levels_mk, hl] using hf s
    | some l =>
      rw [cancelOrder_of_lookup_some hk hl]
      have hs := (hw.side (B.heap p).side).sorted
      have hl' : (l.removeOrder B.heap orderId).2.orders.Pairwise (· < ·) := by
        rw [PriceLevelImpl.removeOrder_eq]
        exact (hf _ _ ((lookup_eq_some hs.nodup).mp hl)).filter _
      intro t
      rcases Side.eq_or_eq_opposite t (B.heap p).side with rfl | rfl
      · simp only [levels_setLevels]
        split_ifs
        · exact fun e he => hf _ e (mem_eraseKey.mp he).1
        · intro e he
          rcases (mem_insert hs).mp he with rfl | he
          · exact hl'
          · exact hf _ e (mem_eraseKey.mp he).1
      · simpa only [levels_setLevels_opposite, levels_mk] using hf _

theorem modifyOrder (hw : Wf B) (hf : Fifo B) (orderId : UInt64) (newPrice : Int)
    (newQuantity : UInt32) (now : UInt64) : Fifo (B.modifyOrder orderId newPrice newQuantity now).2 := by
  have hc := hf.cancelOrder hw orderId
  have hwc := hw.cancelOrder orderId
  unfold OrderBookImpl.modifyOrder
  split
  · exact hf
  · rcases hB : B.cancelOrder orderId with ⟨c, B₁⟩
    rw [hB] at hc hwc
    cases c
    · exact hc
    · exact hc.addOrder hwc _

end Fifo

theorem Reachable.fifo {B : OrderBookImpl} (h : Reachable B) : Fifo B := by
  induction h with
  | create => intro s; simp
  | addOrder order h ih => exact ih.addOrder h.wf order
  | cancelOrder orderId h ih => exact ih.cancelOrder h.wf orderId
  | modifyOrder orderId newPrice newQuantity now h ih => exact ih.modifyOrder h.wf _ _ _ _
  | clear => intro s; simp

section AddToBook

variable {B : OrderBookImpl} {o : Order}

/-- `add_to_book` writes only at the fresh address. -/
theorem update_nextPtr_of_levelOrders (hw : Wf B) (s : Side) (q : Int) :
    ∀ x ∈ levelOrders (B.levels s) q, Function.update B.heap B.nextPtr o x = B.heap x := fun x hx =>
  Function.update_noteq (fun h => Nat.lt_irrefl _ (h ▸ hw.allocated x (hw.mem_of_queued
    ((queued_perm_levelOrders (hw.side s).sorted q).mem_iff.mpr (List.mem_append_left _ hx))))) _ _

theorem resting_addToBook_opposite (hw : Wf B) (o : Order) :
    resting (B.addToBook o) o.side.opposite = resting B o.side.opposite := by
  simp only [resting, addToBook_levels_opposite, addToBook_heap]
  exact List.map_congr_left fun x hx => Function.update_noteq
    (fun h => Nat.lt_irrefl _ (h ▸ hw.allocated x (hw.mem_of_queued hx))) _ _

/-- `add_to_book` puts the order behind the orders resting at its price and side. -/
theorem restingAt_addToBook (hw : Wf B) (hw' : Wf (B.addToBook o)) (p : Int) (t : Side) :
    restingAt (B.addToBook o) p t =
      if t = o.side ∧ p = o.price then restingAt B p t ++ [o] else restingAt B p t := by
  rw [restingAt_eq hw', restingAt_eq hw, addToBook_heap]
  rcases Side.eq_or_eq_opposite t o.side with rfl | rfl
  · rw [addToBook_levels_side]
    by_cases hp : p = o.price
    · subst hp
      obtain ⟨-, hLo, -⟩ := (hw.side o.side).lookup_getD o.price
      rw [if_pos ⟨rfl, rfl⟩, levelOrders, lookup_insert (hw.side _).sorted]
      simp only [Option.map_some', Option.getD_some, PriceLevelImpl.addOrder_orders, List.map_append,
        hLo, List.map_congr_left (update_nextPtr_of_levelOrders hw _ _), List.map_singleton,
        Function.update_same]
    · rw [if_neg fun h => hp h.2, levelOrders, lookup_insert_ne _ hp, ← levelOrders,
        List.map_congr_left (update_nextPtr_of_levelOrders hw _ _)]
  · rw [if_neg fun h => Side.opposite_ne _ h.1, addToBook_levels_opposite,
      List.map_congr_left (update_nextPtr_of_levelOrders hw _ _)]

end AddToBook

/-- `add_order` of an admissible order in a well-formed book is the reference walk over the
opposite side followed by resting what is left: the walk's fills with consecutive trade ids,
the opposite side left as the walk leaves it, and the remainder, if any, behind the orders
resting at its price. -/
theorem addOrder_refSweep {B : OrderBookImpl} (hw : Wf B) (o : Order) (hq : 0 < o.quantity)
    (hpr : 0 < o.price) (hkey : o.orderId ∉ keys B.orderMap) :
    let ref := refSweep (Spec.Side.crosses o.side) B.nextTradeId o (resting B o.side.opposite)
    let res := B.addOrder o
    res.1.map Trade.fill = ref.1 ∧ res.2.nextTradeId = B.nextTradeId + UInt64.ofNat res.1.length ∧
      resting res.2 o.side.opposite = ref.2.2 ∧
      ∀ p, restingAt res.2 p o.side =
        if p = o.price ∧ 0 < ref.2.1.quantity then restingAt B p o.side ++ [ref.2.1]
        else restingAt B p o.side := by
  have hv : ¬(o.quantity = 0 ∨ o.price ≤ 0) :=
    not_or.mpr ⟨(UInt32.ne_of_lt hq).symm, not_le.mpr hpr⟩
  have hd : ¬(lookup B.orderMap o.orderId).isSome := fun h => hkey (lookup_isSome.mp h)
  obtain ⟨new, h1, h2, h3, h4, h5, h6⟩ := @matchLoop_refSweep o.side.opposite o.side.noCross
    (B.sweepBound o.side.opposite) B o [] hw (loopMeasure_le_sweepBound B _ o)
  obtain ⟨hw', hid, hpr', hside, hsub⟩ :=
    hw.matchLoop o.side.opposite o.side.noCross (B.sweepBound o.side.opposite) o []
  rw [addOrder_eq, if_neg hv, if_neg hd, Side.crosses_eq]
  dsimp only at h1 h2 h3 h4 h5 h6 hw' hid hpr' hside hsub ⊢
  generalize matchLoop o.side.opposite o.side.noCross (B.sweepBound o.side.opposite) (B, o, []) = st
    at h1 h2 h3 h4 h5 h6 hw' hid hpr' hside hsub ⊢
  obtain ⟨B', o', ts'⟩ := st
  dsimp only at h1 h2 h3 h4 h5 h6 hw' hid hpr' hside hsub ⊢
  rw [List.nil_append] at h1
  subst h1
  rw [← h3]
  rw [Side.opposite_opposite] at h5
  have hown : ∀ p, restingAt B' p o.side = restingAt B p o.side := fun p => by
    rw [restingAt_eq_filter, restingAt_eq_filter, h5]
  split_ifs with hq'
  · have hkey' : o'.orderId ∉ keys B'.orderMap := hid ▸ fun h => hkey (hsub.subset h)
    have hw'' := hw'.addToBook hq' (hpr' ▸ hpr) hkey'
    refine ⟨h2, by simpa using h6, ?_, fun p => ?_⟩
    · rw [← hside, resting_addToBook_opposite hw', hside, h4]
    · rw [restingAt_addToBook hw' hw'' p, hside, hpr', hown]
      simp [hq']
  · refine ⟨h2, h6, h4, fun p => ?_⟩
    rw [if_neg fun h => hq' h.2, hown]

/-- In every reachable book, `add_order` of a positive order with a fresh id behaves as the
reference price-time matcher over the opposite side, best price first and oldest first, with trade
ids from the book's counter on, and rests its rest behind the orders at its price. Along every
history of the book the counter counts its trades modulo `2^64`. -/
theorem addOrder_refines_priceTime {B : OrderBookImpl} (h : Reachable B) (o : Order)
    (hq : 0 < o.quantity) (hpr : 0 < o.price)
    (hfresh : ∀ p ∈ allQueued B, (B.heap p).orderId ≠ o.orderId) :
    let ref := refSweep (Spec.Side.crosses o.side) B.nextTradeId o (resting B o.side.opposite)
    let res := B.addOrder o
    (queued (B.levels o.side.opposite)).Pairwise (PriceTime o.side.opposite B.heap) ∧
      res.1.map Trade.fill = ref.1 ∧ res.2.nextTradeId = B.nextTradeId + UInt64.ofNat res.1.length ∧
      resting res.2 o.side.opposite = ref.2.2 ∧
      (∀ p, restingAt res.2 p o.side =
        if p = o.price ∧ 0 < ref.2.1.quantity then restingAt B p o.side ++ [ref.2.1]
        else restingAt B p o.side) ∧
      (∃ log, TradeLog B log) ∧ ∀ log, TradeLog B log →
        log.map Trade.tradeId = tradeIdsFrom 1 log.length ∧ B.nextTradeId = 1 + UInt64.ofNat log.length := by
  have hw := h.wf
  obtain ⟨h1, h2, h3, h4⟩ := addOrder_refSweep hw o hq hpr (hw.not_mem_keys_of_fresh hfresh)
  exact ⟨(hw.side _).priceTime fun e he => h.fifo _ e he, h1, h2, h3, h4, h.tradeLog,
    fun _ hl => hl.tradeIds⟩

/-- A bid sweeping two offers at two prices and resting the rest. -/
theorem bid_sweeps_two_offers :
    let B := (((createOrderBook 1).addOrder ⟨1, 1, 101, 3, 0, .SELL⟩).2.addOrder
      ⟨2, 1, 102, 4, 0, .SELL⟩).2
    let o : Order := ⟨3, 1, 102, 9, 0, .BUY⟩
    let ref := refSweep (Spec.Side.crosses o.side) B.nextTradeId o (resting B o.side.opposite)
    let res := B.addOrder o
    (queued (B.levels o.side.opposite)).Pairwise (PriceTime o.side.opposite B.heap) ∧
      res.1.map Trade.fill = ref.1 ∧ res.2.nextTradeId = B.nextTradeId + UInt64.ofNat res.1.length ∧
      resting res.2 o.side.opposite = ref.2.2 ∧
      (∀ p, restingAt res.2 p o.side =
        if p = o.price ∧ 0 < ref.2.1.quantity then restingAt B p o.side ++ [ref.2.1]
        else restingAt B p o.side) ∧
      (∃ log, TradeLog B log) ∧ ∀ log, TradeLog B log →
        log.map Trade.tradeId = tradeIdsFrom 1 log.length ∧ B.nextTradeId = 1 + UInt64.ofNat log.length :=
  addOrder_refines_priceTime (.addOrder _ (.addOrder _ (.create 1))) ⟨3, 1, 102, 9, 0, .BUY⟩
    (by decide) (by decide) (by decide)

end Micromatch.Proofs
