import Micromatch.Proofs.Refinement

namespace UInt32

theorem min_pos {a b : UInt32} (ha : 0 < a) (hb : 0 < b) : 0 < min a b := by
  rw [lt_iff_toNat_lt, toNat_min]
  have := lt_iff_toNat_lt.mp ha
  have := lt_iff_toNat_lt.mp hb
  show 0 < _
  omega

end UInt32

namespace Micromatch.Spec
open Micromatch.Core

/-- The open quantity of some orders. -/
def openQuantity (os : List Order) : Nat := (os.map fun o => o.quantity.toNat).sum

/-- The quantity some fills carry. -/
def filledQuantity (fills : List Fill) : Nat := (fills.map fun f => f.quantity.toNat).sum

@[simp] theorem openQuantity_nil : openQuantity [] = 0 := rfl

@[simp] theorem openQuantity_cons (o : Order) (os : List Order) :
    openQuantity (o :: os) = o.quantity.toNat + openQuantity os := List.sum_cons

@[simp] theorem openQuantity_append (os os' : List Order) :
    openQuantity (os ++ os') = openQuantity os + openQuantity os' := by
  simp [openQuantity]

@[simp] theorem filledQuantity_nil : filledQuantity [] = 0 := rfl

@[simp] theorem filledQuantity_cons (f : Fill) (fs : List Fill) :
    filledQuantity (f :: fs) = f.quantity.toNat + filledQuantity fs := List.sum_cons

section Walk

variable (crosses : Int → Int → Bool)

/-- The walk moves quantity and makes none: the fills and what is left of the incoming order
make up its quantity, and the fills and the resting orders as left make up theirs. What is
left of the incoming order keeps its price. -/
theorem refSweep_conserves (tid : UInt64) (o : Order) (R : List Order) :
    (refSweep crosses tid o R).2.1.price = o.price ∧
      filledQuantity (refSweep crosses tid o R).1 + (refSweep crosses tid o R).2.1.quantity.toNat =
        o.quantity.toNat ∧
      filledQuantity (refSweep crosses tid o R).1 + openQuantity (refSweep crosses tid o R).2.2 =
        openQuantity R := by
  induction R generalizing tid o with
  | nil => simp
  | cons r R ih =>
    have hq : (min o.quantity r.quantity).toNat = min o.quantity.toNat r.quantity.toNat :=
      UInt32.toNat_min _ _
    have hoq := UInt32.toNat_sub_of_le o.quantity (min o.quantity r.quantity)
      (UInt32.le_iff_toNat_le.mpr (by omega))
    have hrq := UInt32.toNat_sub_of_le r.quantity (min o.quantity r.quantity)
      (UInt32.le_iff_toNat_le.mpr (by omega))
    simp only [refSweep]
    split_ifs with hc hz
    · obtain ⟨h1, h2, h3⟩ := ih (tid + 1) { o with quantity := o.quantity - min o.quantity r.quantity }
      have hz' : (r.quantity - min o.quantity r.quantity).toNat = 0 := congrArg UInt32.toNat hz
      rw [hoq] at h2
      generalize refSweep crosses (tid + 1)
        { o with quantity := o.quantity - min o.quantity r.quantity } R = res at h1 h2 h3 ⊢
      obtain ⟨fills, o'', R'⟩ := res
      refine ⟨h1, ?_, ?_⟩ <;> simp only [filledQuantity_cons, openQuantity_cons] at h2 h3 ⊢ <;> omega
    · simp [hoq, hrq]
      omega
    · simp

/-- Each fill of the walk is one resting order's: between the incoming order and it, at its
price, which the incoming order crosses, and for a positive quantity when it has some. -/
theorem refSweep_fill_mem (tid : UInt64) (o : Order) (R : List Order) :
    ∀ f ∈ (refSweep crosses tid o R).1, ∃ r ∈ R, crosses o.price r.price ∧
      f.parties = s(o.orderId, r.orderId) ∧ f.price = r.price ∧ (0 < r.quantity → 0 < f.quantity) := by
  induction R generalizing tid o with
  | nil => exact fun f hf => absurd hf (List.not_mem_nil f)
  | cons r R ih =>
    have hfill : crosses o.price r.price → 0 < o.quantity →
        ∃ r' ∈ r :: R, crosses o.price r'.price ∧ s(o.orderId, r.orderId) = s(o.orderId, r'.orderId) ∧
          r.price = r'.price ∧ (0 < r'.quantity → 0 < min o.quantity r.quantity) :=
      fun hc hq => ⟨r, List.mem_cons_self _ _, hc, rfl, rfl, UInt32.min_pos hq⟩
    simp only [refSweep]
    split_ifs with hc hz
    · have ih' := ih (tid + 1) { o with quantity := o.quantity - min o.quantity r.quantity }
      generalize refSweep crosses (tid + 1)
        { o with quantity := o.quantity - min o.quantity r.quantity } R = res at ih'
      obtain ⟨fills, o'', R'⟩ := res
      rw [List.forall_mem_cons]
      refine ⟨hfill hc.2 hc.1, fun f hf => ?_⟩
      obtain ⟨r', hr', h⟩ := ih' f hf
      exact ⟨r', List.mem_cons_of_mem _ hr', h⟩
    · exact List.forall_mem_singleton.mpr (hfill hc.2 hc.1)
    · exact fun f hf => absurd hf (List.not_mem_nil f)

/-- The walk changes nothing but quantities: what is left of the incoming order is the order
with its quantity as left, and each resting order left is a walked order with its quantity as
left. -/
theorem refSweep_only_quantities (tid : UInt64) (o : Order) (R : List Order) :
    (refSweep crosses tid o R).2.1 = { o with quantity := (refSweep crosses tid o R).2.1.quantity } ∧
      ∀ r' ∈ (refSweep crosses tid o R).2.2, ∃ r ∈ R, r' = { r with quantity := r'.quantity } := by
  induction R generalizing tid o with
  | nil => exact ⟨rfl, by simp⟩
  | cons r R ih =>
    simp only [refSweep]
    split_ifs with hc hz
    · obtain ⟨h1, h2⟩ := ih (tid + 1) { o with quantity := o.quantity - min o.quantity r.quantity }
      generalize refSweep crosses (tid + 1)
        { o with quantity := o.quantity - min o.quantity r.quantity } R = res at h1 h2
      obtain ⟨fills, o'', R'⟩ := res
      exact ⟨h1, fun r' hr' => (h2 r' hr').imp fun _ h => ⟨List.mem_cons_of_mem _ h.1, h.2⟩⟩
    · refine ⟨rfl, ?_⟩
      simp only [List.mem_cons]
      rintro r' (rfl | hr')
      · exact ⟨r, .inl rfl, rfl⟩
      · exact ⟨r', .inr hr', rfl⟩
    · exact ⟨rfl, fun r' hr' => ⟨r', hr', rfl⟩⟩

end Walk

end Micromatch.Spec

namespace Micromatch.Proofs
open Micromatch.Core Micromatch.Spec

/-- A resting order of a well-formed book is of the side it rests on, with some quantity and
a positive price. -/
theorem Wf.of_mem_resting {B : OrderBookImpl} (hw : Wf B) {s : Side} {r : Order}
    (hr : r ∈ resting B s) : r.side = s ∧ 0 < r.quantity ∧ 0 < r.price := by
  obtain ⟨p, hp, rfl⟩ := List.mem_map.mp hr
  exact (hw.side s).of_mem_queued hp

/-- `add_order` turns away an order with no quantity, no positive price or an id already
indexed, and leaves the book as it was. -/
theorem addOrder_of_not_admitted (B : OrderBookImpl) {o : Order}
    (h : ¬(0 < o.quantity ∧ 0 < o.price ∧ o.orderId ∉ keys B.orderMap)) :
    B.addOrder o = ([], B) := by
  rw [addOrder_eq]
  by_cases hv : o.quantity = 0 ∨ o.price ≤ 0
  · rw [if_pos hv]
  · obtain ⟨hq, hpr⟩ := not_or.mp hv
    have hq : 0 < o.quantity :=
      UInt32.lt_iff_toNat_lt.mpr (Nat.pos_of_ne_zero fun h0 => hq (UInt32.eq_iff_toNat_eq.mpr h0))
    have hk : (lookup B.orderMap o.orderId).isSome :=
      lookup_isSome.mpr (by_contra fun hk => h ⟨hq, not_le.mp hpr, hk⟩)
    rw [if_neg hv, if_pos hk]

/-- `add_order` of an admissible order in a reachable book trades within the order's limit, each
trade positive, and conserves quantity: the opposite side gives up what the order trades, and the
rest of the order rests at its price. -/
theorem addOrder_conserves_quantity {B : OrderBookImpl} (h : Reachable B) (o : Order)
    (hq : 0 < o.quantity) (hpr : 0 < o.price)
    (hfresh : ∀ p ∈ allQueued B, (B.heap p).orderId ≠ o.orderId) :
    (∀ t ∈ (B.addOrder o).1, 0 < t.quantity ∧
      (o.side = .BUY → t.price ≤ o.price) ∧ (o.side = .SELL → o.price ≤ t.price)) ∧
    ((B.addOrder o).1.map fun t => t.quantity.toNat).sum +
        openQuantity (resting (B.addOrder o).2 o.side.opposite) =
      openQuantity (resting B o.side.opposite) ∧
    ((B.addOrder o).1.map fun t => t.quantity.toNat).sum +
        openQuantity (restingAt (B.addOrder o).2 o.price o.side) =
      o.quantity.toNat + openQuantity (restingAt B o.price o.side) ∧
    ∀ p, p ≠ o.price → restingAt (B.addOrder o).2 p o.side = restingAt B p o.side := by
  have hw := h.wf
  obtain ⟨hfill, -, hopp, hown⟩ := addOrder_refSweep hw o hq hpr (hw.not_mem_keys_of_fresh hfresh)
  obtain ⟨-, hleft, hkept⟩ :=
    refSweep_conserves (Spec.Side.crosses o.side) B.nextTradeId o (resting B o.side.opposite)
  have hfills := refSweep_fill_mem (Spec.Side.crosses o.side) B.nextTradeId o
    (resting B o.side.opposite)
  have htraded : ((B.addOrder o).1.map fun t => t.quantity.toNat).sum =
      filledQuantity (refSweep (Spec.Side.crosses o.side) B.nextTradeId o
        (resting B o.side.opposite)).1 := by
    rw [← hfill, filledQuantity, List.map_map]
    rfl
  refine ⟨fun t ht => ?_, by rw [htraded, hopp, hkept], ?_, fun p hp => ?_⟩
  · obtain ⟨r, hr, hc, -, hpr, hpos⟩ := hfills t.fill (hfill ▸ List.mem_map_of_mem _ ht)
    refine ⟨hpos (hw.of_mem_resting hr).2.1, fun hs => ?_, fun hs => ?_⟩ <;>
      simpa [Spec.Side.crosses, hs, Trade.fill, ← hpr] using hc
  · rw [htraded, hown]
    split_ifs with hc
    · rw [openQuantity_append, openQuantity_cons, openQuantity_nil]
      omega
    · have : (refSweep (Spec.Side.crosses o.side) B.nextTradeId o
          (resting B o.side.opposite)).2.1.quantity.toNat = 0 := by
        have := mt (And.intro rfl) hc
        simpa [UInt32.lt_iff_toNat_lt] using this
      omega
  · rw [hown, if_neg fun h => hp h.1]

/-- Each trade of `add_order` in a well-formed book whose resting orders are of the incoming
order's symbol pairs the order with a resting order that `Order::can_match` accepts, at that
order's price, for a positive quantity. -/
theorem addOrder_trades_canMatch {B : OrderBookImpl} (hw : Wf B) {o : Order}
    (hsym : ∀ s, ∀ r ∈ resting B s, r.symbolId = o.symbolId) :
    ∀ t ∈ (B.addOrder o).1, ∃ r ∈ resting B o.side.opposite, o.canMatch r = true ∧
      t.parties = s(o.orderId, r.orderId) ∧ t.price = r.price ∧ 0 < t.quantity := by
  by_cases hadm : 0 < o.quantity ∧ 0 < o.price ∧ o.orderId ∉ keys B.orderMap
  · obtain ⟨hfill, -⟩ := addOrder_refSweep hw o hadm.1 hadm.2.1 hadm.2.2
    intro t ht
    obtain ⟨r, hr, hc, hpar, hpr, hpos⟩ := refSweep_fill_mem _ _ o _ t.fill
      (hfill ▸ List.mem_map_of_mem _ ht)
    obtain ⟨hside, hq, -⟩ := hw.of_mem_resting hr
    refine ⟨r, hr, ?_, hpar, hpr, hpos hq⟩
    cases hs : o.side <;> rw [hs] at hside hc <;>
      simpa [Order.canMatch, Order.isBuy, hs, hside, hsym _ r hr, Side.opposite,
        Spec.Side.crosses] using hc
  · simp [addOrder_of_not_admitted B hadm]

/-- A bid for 9 at 102 against offers of 3 at 101 and 4 at 102: it trades 7, the offers are
gone, and 2 rest at 102. -/
theorem bid_sweep_conserves :
    let B := (((createOrderBook 1).addOrder ⟨1, 1, 101, 3, 0, .SELL⟩).2.addOrder
      ⟨2, 1, 102, 4, 0, .SELL⟩).2
    let o : Order := ⟨3, 1, 102, 9, 0, .BUY⟩
    (∀ t ∈ (B.addOrder o).1, 0 < t.quantity ∧
      (o.side = .BUY → t.price ≤ o.price) ∧ (o.side = .SELL → o.price ≤ t.price)) ∧
    ((B.addOrder o).1.map fun t => t.quantity.toNat).sum +
        openQuantity (resting (B.addOrder o).2 o.side.opposite) =
      openQuantity (resting B o.side.opposite) ∧
    ((B.addOrder o).1.map fun t => t.quantity.toNat).sum +
        openQuantity (restingAt (B.addOrder o).2 o.price o.side) =
      o.quantity.toNat + openQuantity (restingAt B o.price o.side) ∧
    ∀ p, p ≠ o.price → restingAt (B.addOrder o).2 p o.side = restingAt B p o.side :=
  addOrder_conserves_quantity (.addOrder _ (.addOrder _ (.create 1))) ⟨3, 1, 102, 9, 0, .BUY⟩
    (by decide) (by decide) (by decide)

end Micromatch.Proofs
