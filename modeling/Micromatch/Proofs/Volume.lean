import Micromatch.Proofs.Invariant

namespace Micromatch.Proofs
open Micromatch.Core OrderBookImpl PriceMap

/-- The `uint32_t` sum of the quantities of the orders at some addresses. -/
def quantitySum (heap : Heap) (ps : List Ptr) : UInt32 := (ps.map fun p => (heap p).quantity).sum

@[simp] theorem quantitySum_nil (heap : Heap) : quantitySum heap [] = 0 := rfl

@[simp] theorem quantitySum_cons (heap : Heap) (p : Ptr) (ps : List Ptr) :
    quantitySum heap (p :: ps) = (heap p).quantity + quantitySum heap ps := by
  simp [quantitySum]

@[simp] theorem quantitySum_append (heap : Heap) (ps qs : List Ptr) :
    quantitySum heap (ps ++ qs) = quantitySum heap ps + quantitySum heap qs := by
  simp [quantitySum]

theorem quantitySum_congr {heap heap' : Heap} {ps : List Ptr} (h : ∀ p ∈ ps, heap' p = heap p) :
    quantitySum heap' ps = quantitySum heap ps := by
  simp only [quantitySum]
  rw [List.map_congr_left fun p hp => by rw [h p hp]]

theorem toNat_quantitySum (heap : Heap) (ps : List Ptr) :
    (quantitySum heap ps).toNat = (ps.map fun p => (heap p).quantity.toNat).sum % UInt32.size := by
  rw [quantitySum, UInt32.toNat_sum, List.map_map]
  rfl

/-- `remove_order` subtracts from the running total exactly the quantities it drops. -/
theorem removeOrder_totalVolume {heap : Heap} {l : PriceLevelImpl}
    (hl : l.totalVolume = quantitySum heap l.orders) (orderId : UInt64) :
    (l.removeOrder heap orderId).2.totalVolume =
      quantitySum heap (l.removeOrder heap orderId).2.orders := by
  rw [PriceLevelImpl.removeOrder_eq, hl, quantitySum, quantitySum,
    ← List.sum_map_filter_add_sum_map_filter_not (fun p => (heap p).orderId = orderId)]
  simp [Ne]

/-- Each level's `total_volume_` is the `uint32_t` sum of the quantities it queues. -/
def LevelVolumes (heap : Heap) (m : PriceMap) : Prop :=
  ∀ e ∈ m, e.2.totalVolume = quantitySum heap e.2.orders

namespace LevelVolumes

variable {heap : Heap} {m : PriceMap}

theorem mono (h : LevelVolumes heap m) {m' : PriceMap} (hsub : ∀ e ∈ m', e ∈ m) :
    LevelVolumes heap m' :=
  fun e he => h e (hsub e he)

theorem cons (h : LevelVolumes heap m) {k : Int} {v : PriceLevelImpl}
    (hv : v.totalVolume = quantitySum heap v.orders) : LevelVolumes heap ((k, v) :: m) :=
  fun e he => (List.mem_cons.mp he).elim (fun he => he ▸ hv) (h e)

theorem frame (h : LevelVolumes heap m) {heap' : Heap} (hf : ∀ p ∈ queued m, heap' p = heap p) :
    LevelVolumes heap' m := fun e he => by
  rw [h e he, quantitySum_congr fun p hp => hf p (List.mem_flatMap.mpr ⟨e, he, hp⟩)]

theorem insert (h : LevelVolumes heap m) {s : Side} (hs : Sorted s m) {k : Int}
    {v : PriceLevelImpl} (hv : v.totalVolume = quantitySum heap v.orders) :
    LevelVolumes heap (PriceMap.insert s.before k v m) := fun e he => by
  rcases (mem_insert hs).mp he with rfl | he
  · exact hv
  · exact h e (mem_eraseKey.mp he).1

theorem lookup_getD (h : LevelVolumes heap m) (hk : (keys m).Nodup) (k : Int) :
    ((lookup m k).getD (PriceLevelImpl.mk' k)).totalVolume =
      quantitySum heap ((lookup m k).getD (PriceLevelImpl.mk' k)).orders := by
  cases hl : lookup m k with
  | none => rfl
  | some v => exact h _ ((lookup_eq_some hk).mp hl)

/-- Summed over the levels, the running totals add up to the queued quantities. -/
theorem sum_totalVolume (h : LevelVolumes heap m) :
    (m.map fun e => e.2.totalVolume).sum = quantitySum heap (queued m) := by
  induction m with
  | nil => rfl
  | cons e m ih =>
    rw [List.map_cons, List.sum_cons, queued_cons, quantitySum_append, h e (List.mem_cons_self _ _),
      ih (h.mono fun _ he => List.mem_cons_of_mem _ he)]

end LevelVolumes

/-- Both sides keep their running totals. -/
def VolumesAgree (B : OrderBookImpl) : Prop := ∀ s, LevelVolumes B.heap (B.levels s)

namespace VolumesAgree

variable {B : OrderBookImpl}

/-- A turn of the matching loop takes off the front level's total what it fills. -/
theorem matchStep {passive : Side} {noCross : Int → Int → Bool} (hw : Wf B) (hv : VolumesAgree B)
    {o : Order} {ts : List Trade} {st : MatchState}
    (h : Core.OrderBookImpl.matchStep passive noCross (B, o, ts) = some st) : VolumesAgree st.1 := by
  obtain ⟨-, k, l, rest, hl, -, hcase⟩ := matchStep_cases h
  have hvp := hv passive
  rw [hl] at hvp
  have hlv := hvp (k, l) (List.mem_cons_self _ _)
  have hrest := hvp.mono fun _ he => List.mem_cons_of_mem _ he
  rcases hcase with ⟨-, rfl⟩ | ⟨p, ps, hp, -, rfl⟩ | ⟨p, ps, hp, -, rfl⟩
  · intro t
    rcases Side.eq_or_eq_opposite t passive with rfl | rfl
    · simpa using hrest
    · simpa using hv _
  all_goals
    have hpn := hw.front_unique hl hp
    simp only [List.mem_append, not_or] at hpn
    rw [hp, quantitySum_cons] at hlv
    have hf : ∀ {x : Order} {ps' : List Ptr}, p ∉ ps' → ∀ y ∈ ps', Function.update B.heap p x y = B.heap y :=
      fun hn y hy => Function.update_noteq (ne_of_mem_of_not_mem hy hn) _ _
    intro t
    rcases Side.eq_or_eq_opposite t passive with rfl | rfl
    swap
    · simpa using (hv _).frame (hf hpn.2)
    simp only [levels_setLevels, setLevels_heap]
  · split_ifs
    · exact hrest.frame (hf hpn.1.2)
    · refine (hrest.frame (hf hpn.1.2)).cons ?_
      rw [quantitySum_congr (hf hpn.1.1), hlv, add_sub_cancel_left]
  · refine (hrest.frame (hf hpn.1.2)).cons ?_
    rw [hp, quantitySum_cons, quantitySum_congr (hf hpn.1.1), hlv, Function.update_same,
      sub_add_eq_add_sub]

theorem matchLoop (hw : Wf B) (hv : VolumesAgree B) (passive : Side) (noCross : Int → Int → Bool)
    (fuel : Nat) (o : Order) (ts : List Trade) :
    VolumesAgree (Core.OrderBookImpl.matchLoop passive noCross fuel (B, o, ts)).1 :=
  (matchLoop_induction (fun st => Wf st.1 ∧ VolumesAgree st.1)
    (fun ⟨_, _, _⟩ _ h hs => ⟨h.1.matchStep hs, h.2.matchStep h.1 hs⟩) fuel _ ⟨hw, hv⟩).2

/-- `add_to_book` adds the new order's quantity to the total of the level it joins. -/
theorem addToBook (hw : Wf B) (hv : VolumesAgree B) (o : Order) : VolumesAgree (B.addToBook o) := by
  have hf : ∀ s, ∀ x ∈ queued (B.levels s), Function.update B.heap B.nextPtr o x = B.heap x :=
    fun s x hx => Function.update_noteq (fun h => Nat.lt_irrefl _
      (h ▸ hw.allocated x (hw.mem_of_queued hx))) _ _
  intro t
  rcases Side.eq_or_eq_opposite t o.side with rfl | rfl
  · rw [addToBook_levels_side, addToBook_heap]
    have hm := (hv o.side).frame (hf o.side)
    refine hm.insert (hw.side o.side).sorted ?_
    rw [PriceLevelImpl.addOrder_totalVolume, PriceLevelImpl.addOrder_orders, quantitySum_append,
      quantitySum_cons, quantitySum_nil, add_zero, Function.update_same,
      hm.lookup_getD (hw.side o.side).sorted.nodup]
  · rw [addToBook_levels_opposite, addToBook_heap]
    exact (hv _).frame (hf _)

theorem addOrder (hw : Wf B) (hv : VolumesAgree B) (order : Order) :
    VolumesAgree (B.addOrder order).2 := by
  rw [addOrder_eq]
  split_ifs
  · exact hv
  · exact hv
  have hw' := (hw.matchLoop order.side.opposite order.side.noCross
    (B.sweepBound order.side.opposite) order []).1
  have hv' := hv.matchLoop hw order.side.opposite order.side.noCross
    (B.sweepBound order.side.opposite) order []
  dsimp only
  split_ifs
  · exact hv'.addToBook hw' _
  · exact hv'

/-- `cancel_order` goes through `remove_order`, which keeps the level's total. -/
theorem cancelOrder (hw : Wf B) (hv : VolumesAgree B) (orderId : UInt64) :
    VolumesAgree (B.cancelOrder orderId).2 := by
  cases hk : lookup B.orderMap orderId with
  | none => rw [cancelOrder_of_lookup_none hk]; exact hv
  | some p =>
    cases hl : lookup (B.levels (B.heap p).side) (B.heap p).price with
    | none => intro s; simpa [OrderBookImpl.cancelOrder, hk, hl] using hv s
    | some l =>
      rw [cancelOrder_of_lookup_some hk hl]
      have hs := (hw.side (B.heap p).side).sorted
      have hl' := removeOrder_totalVolume (hv _ _ ((lookup_eq_some hs.nodup).mp hl)) orderId
      intro t
      rcases Side.eq_or_eq_opposite t (B.heap p).side with rfl | rfl
      · simp only [levels_setLevels, setLevels_heap]
        split_ifs
        · exact (hv _).mono fun e he => (mem_eraseKey.mp he).1
        · exact (hv _).insert hs hl'
      · simpa using hv _

theorem modifyOrder (hw : Wf B) (hv : VolumesAgree B) (orderId : UInt64) (newPrice : Int)
    (newQuantity : UInt32) (now : UInt64) :
    VolumesAgree (B.modifyOrder orderId newPrice newQuantity now).2 := by
  have hc := hv.cancelOrder hw orderId
  have hwc := hw.cancelOrder orderId
  unfold OrderBookImpl.modifyOrder
  split
  · exact hv
  · rcases hB : B.cancelOrder orderId with ⟨c, B₁⟩
    rw [hB] at hc hwc
    cases c
    · exact hc
    · exact hc.addOrder hwc _

end VolumesAgree

theorem Reachable.volumesAgree {B : OrderBookImpl} (h : Reachable B) : VolumesAgree B := by
  induction h with
  | create => intro s; simp [LevelVolumes]
  | addOrder order h ih => exact ih.addOrder h.wf order
  | cancelOrder orderId h ih => exact ih.cancelOrder h.wf orderId
  | modifyOrder orderId newPrice newQuantity now h ih => exact ih.modifyOrder h.wf _ _ _ _
  | clear => intro s; simp [LevelVolumes]

/-- The orders resting on side `s` at price `p`: those queued on that side with that price. -/
def restingAt (B : OrderBookImpl) (p : Int) (s : Side) : List Order :=
  ((queued (B.levels s)).map B.heap).filter fun o => o.price = p

/-- On a well-formed side, the orders of price `k` are exactly the queue of the level at `k`. -/
theorem SideWf.filter_price {heap : Heap} {s : Side} {m : PriceMap} (h : SideWf heap s m) (k : Int) :
    (queued m).filter (fun q => (heap q).price = k) = levelOrders m k := by
  induction m with
  | nil => rfl
  | cons e m ih =>
    obtain ⟨k', v⟩ := e
    have hv : ∀ q ∈ v.orders, (heap q).price = k' :=
      fun q hq => (h.order _ (List.mem_cons_self _ _) q hq).2.1
    rw [queued_cons, List.filter_append]
    by_cases hk : k' = k
    · subst hk
      have hm : ∀ q ∈ queued m, (heap q).price ≠ k' := fun q hq hpq => by
        obtain ⟨e, he, hqe⟩ := List.mem_flatMap.mp hq
        have := (h.order e (List.mem_cons_of_mem _ he) q hqe).2.1
        refine h.sorted.not_mem (mem_keys.mpr ⟨e.2, ?_⟩)
        rw [show (k', v).1 = e.1 from hpq.symm.trans this]
        exact he
      rw [List.filter_eq_self.mpr (by simpa using hv), List.filter_eq_nil_iff.mpr (by simpa using hm)]
      simp [levelOrders]
    · rw [List.filter_eq_nil_iff.mpr (by simpa [hk] using fun q hq => (hv q hq).trans_ne hk),
        ih h.tail]
      simp [levelOrders, hk]

theorem restingAt_eq {B : OrderBookImpl} (hw : Wf B) (p : Int) (s : Side) :
    restingAt B p s = (levelOrders (B.levels s) p).map B.heap := by
  rw [restingAt, List.filter_map, ← (hw.side s).filter_price p]
  rfl

theorem volumeAtPrice_eq {B : OrderBookImpl} (hw : Wf B) (hv : VolumesAgree B) (p : Int) (s : Side) :
    B.volumeAtPrice p s = quantitySum B.heap (levelOrders (B.levels s) p) := by
  unfold volumeAtPrice
  cases hl : lookup (B.levels s) p with
  | none => simp [levelOrders, hl]
  | some l => simpa [levelOrders, hl] using hv s _ ((lookup_eq_some (hw.side s).sorted.nodup).mp hl)

theorem orderCountAtPrice_eq (B : OrderBookImpl) (p : Int) (s : Side) :
    B.orderCountAtPrice p s = UInt32.ofNat (levelOrders (B.levels s) p).length := by
  unfold orderCountAtPrice
  cases hl : lookup (B.levels s) p <;> simp [levelOrders, hl, PriceLevelImpl.orderCount]

/-- In every reachable book, `volume_at_price` and `order_count_at_price` are the summed quantity
and the number of the orders resting at the price, modulo `2^32`, and the level volumes add up,
modulo `2^32`, to the quantities `order_map_` indexes. -/
theorem reachable_level_volume_mod {B : OrderBookImpl} (h : Reachable B) :
    (∀ p s, (B.volumeAtPrice p s).toNat =
        ((restingAt B p s).map fun o => o.quantity.toNat).sum % UInt32.size ∧
      (B.orderCountAtPrice p s).toNat = (restingAt B p s).length % UInt32.size) ∧
    ((B.levels .BUY ++ B.levels .SELL).map fun e => e.2.volume.toNat).sum % UInt32.size =
      (B.orderMap.map fun e => (B.heap e.2).quantity.toNat).sum % UInt32.size := by
  have hw := h.wf
  have hv := h.volumesAgree
  refine ⟨fun p s => ⟨?_, ?_⟩, ?_⟩
  · rw [volumeAtPrice_eq hw hv, toNat_quantitySum, restingAt_eq hw, List.map_map]
    rfl
  · rw [orderCountAtPrice_eq, UInt32.toNat_ofNat_mod, restingAt_eq hw, List.length_map]
  · calc _ = ((B.levels .BUY ++ B.levels .SELL).map fun e : Int × PriceLevelImpl =>
            e.2.totalVolume).sum.toNat := by
          rw [UInt32.toNat_sum, List.map_map]; rfl
      _ = (quantitySum B.heap (allQueued B)).toNat := by
          rw [List.map_append, List.sum_append, (hv .BUY).sum_totalVolume,
            (hv .SELL).sum_totalVolume, ← quantitySum_append]; rfl
      _ = (B.orderMap.map fun e => (B.heap e.2).quantity.toNat).sum % UInt32.size := by
          rw [toNat_quantitySum, ← (hw.orderMap_perm.map _).sum_eq, List.map_map]; rfl

/-- The same accounting, modulo `2^32`, for two offers whose level total wraps. -/
theorem level_volume_mod_after_wrap :
    let B := (((createOrderBook 1).addOrder ⟨1, 1, 1, 4294967295, 0, .SELL⟩).2.addOrder
      ⟨2, 1, 1, 4294967295, 0, .SELL⟩).2
    (∀ p s, (B.volumeAtPrice p s).toNat =
        ((restingAt B p s).map fun o => o.quantity.toNat).sum % UInt32.size ∧
      (B.orderCountAtPrice p s).toNat = (restingAt B p s).length % UInt32.size) ∧
    ((B.levels .BUY ++ B.levels .SELL).map fun e => e.2.volume.toNat).sum % UInt32.size =
      (B.orderMap.map fun e => (B.heap e.2).quantity.toNat).sum % UInt32.size :=
  reachable_level_volume_mod (.addOrder _ (.addOrder _ (.create 1)))

/-- Two resting offers of `4294967295` at one price: the level's `uint32_t` total has wrapped
to `4294967294`, while the quantities resting there add up to `8589934590`. -/
theorem volume_wraps_past_uint32 :
    let B := (((createOrderBook 1).addOrder ⟨1, 1, 1, 4294967295, 0, .SELL⟩).2.addOrder
      ⟨2, 1, 1, 4294967295, 0, .SELL⟩).2
    Reachable B ∧ (B.volumeAtPrice 1 .SELL).toNat = 4294967294 ∧
      ((restingAt B 1 .SELL).map fun o => o.quantity.toNat).sum = 8589934590 :=
  ⟨.addOrder _ (.addOrder _ (.create 1)), by decide, by decide⟩

end Micromatch.Proofs
