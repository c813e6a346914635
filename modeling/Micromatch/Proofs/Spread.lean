import Micromatch.Proofs.Invariant

namespace Micromatch.Proofs
open Micromatch.Core OrderBookImpl PriceMap

/-- Every bid level's key is below every ask level's key. -/
def Uncrossed (B : OrderBookImpl) : Prop :=
  ∀ b ∈ keys (B.levels .BUY), ∀ a ∈ keys (B.levels .SELL), b < a

/-- The same, read from either side: a key of side `s` does not cross any key opposite. -/
theorem uncrossed_iff {B : OrderBookImpl} : Uncrossed B ↔
    ∀ s, ∀ x ∈ keys (B.levels s), ∀ y ∈ keys (B.levels s.opposite), s.noCross x y := by
  refine ⟨fun h s x hx y hy => ?_, fun h b hb a ha => by simpa [Side.noCross] using h .BUY b hb a ha⟩
  cases s
  · simpa [Side.noCross] using h x hx y hy
  · simpa [Side.noCross] using h y hy x hx

theorem Side.noCross_opposite (s : Side) (x y : Int) : s.opposite.noCross x y = s.noCross y x := by
  cases s <;> simp [Side.noCross, Side.opposite]

/-- A price that does not cross the best opposite key crosses none behind it. -/
theorem Side.noCross_of_before {s : Side} {p k k' : Int} (h : s.noCross p k)
    (hb : s.opposite.before k k') : s.noCross p k' := by
  cases s <;> simp only [Side.noCross, Side.before, Side.opposite, decide_eq_true_eq] at * <;> omega

theorem Uncrossed.mono {B B' : OrderBookImpl} (h : Uncrossed B)
    (hsub : ∀ s, ∀ x ∈ keys (B'.levels s), x ∈ keys (B.levels s)) : Uncrossed B' :=
  fun b hb a ha => h b (hsub _ b hb) a (hsub _ a ha)

/-- The sweep only removes keys, on either side. -/
theorem matchLoop_keys (passive : Side) (noCross : Int → Int → Bool) (fuel : Nat)
    (B : OrderBookImpl) (o : Order) (ts : List Trade) (s : Side) :
    ∀ x ∈ keys ((matchLoop passive noCross fuel (B, o, ts)).1.levels s), x ∈ keys (B.levels s) :=
  matchLoop_induction (fun st => ∀ x ∈ keys (st.1.levels s), x ∈ keys (B.levels s))
    (fun ⟨_, _, _⟩ _ h hs x hx => h x (matchStep_keys hs s x hx)) fuel _ fun _ hx => hx

/-- When the sweep of an incoming order of side `s` stops with quantity left, its price crosses
no key left on the opposite side. -/
theorem sweep_stops_uncrossed {B : OrderBookImpl} (hw : Wf B) (o : Order) :
    0 < (matchLoop o.side.opposite o.side.noCross (B.sweepBound o.side.opposite) (B, o, [])).2.1.quantity →
    ∀ y ∈ keys ((matchLoop o.side.opposite o.side.noCross (B.sweepBound o.side.opposite)
      (B, o, [])).1.levels o.side.opposite), o.side.noCross o.price y := by
  obtain ⟨hw', -, hpr, -, -⟩ := hw.matchLoop o.side.opposite o.side.noCross
    (B.sweepBound o.side.opposite) o []
  have hexit := @matchStep_matchLoop _ o.side.noCross _ _
    (loopMeasure_le_sweepBound B o.side.opposite o)
  generalize matchLoop o.side.opposite o.side.noCross (B.sweepBound o.side.opposite) (B, o, []) = st
    at hw' hpr hexit ⊢
  obtain ⟨B', o', ts'⟩ := st
  intro hq y hy
  rcases matchStep_eq_none hexit with h0 | hnil | ⟨k, l, rest, hl, hc⟩
  · exact absurd h0 (UInt32.ne_of_lt hq).symm
  · simp [hnil] at hy
  · have hs := (hw'.side o.side.opposite).sorted
    dsimp only at hl hy hpr hs
    rw [hl] at hs hy
    rw [← hpr]
    rcases List.mem_cons.mp hy with rfl | hy
    · exact hc
    · exact Side.noCross_of_before hc (hs.before_of_mem hy)

theorem Uncrossed.addOrder {B : OrderBookImpl} (hw : Wf B) (h : Uncrossed B) (order : Order) :
    Uncrossed (B.addOrder order).2 := by
  rw [addOrder_eq]
  split_ifs with hbad hdup
  · exact h
  · exact h
  dsimp only
  have hk := matchLoop_keys order.side.opposite order.side.noCross
    (B.sweepBound order.side.opposite) B order []
  have hstop := sweep_stops_uncrossed hw order
  obtain ⟨-, -, hpr, hside, -⟩ := hw.matchLoop order.side.opposite order.side.noCross
    (B.sweepBound order.side.opposite) order []
  generalize matchLoop order.side.opposite order.side.noCross (B.sweepBound order.side.opposite)
    (B, order, []) = st at hk hstop hpr hside ⊢
  obtain ⟨B', o', ts'⟩ := st
  dsimp only at hk hstop hpr hside ⊢
  rw [← hside, ← hpr] at hstop
  have hold := uncrossed_iff.mp h
  split_ifs with hq
  · refine uncrossed_iff.mpr fun t x hx y hy => ?_
    rcases Side.eq_or_eq_opposite t o'.side with rfl | rfl
    · rw [addToBook_levels_opposite] at hy
      rw [addToBook_levels_side] at hx
      rcases keys_insert_subset _ _ _ _ x hx with rfl | hx
      · exact hstop hq y hy
      · exact hold _ x (hk _ x hx) y (hk _ y hy)
    · rw [addToBook_levels_opposite] at hx
      rw [Side.opposite_opposite, addToBook_levels_side] at hy
      rcases keys_insert_subset _ _ _ _ y hy with rfl | hy
      · rw [Side.noCross_opposite]
        exact hstop hq x hx
      · exact hold _ x (hk _ x hx) y (by rw [Side.opposite_opposite]; exact hk _ y hy)
  · exact h.mono hk

/-- `cancel_order` only removes keys: the level it touches is erased or keeps its key. -/
theorem cancelOrder_keys (B : OrderBookImpl) (orderId : UInt64) (s : Side) :
    ∀ x ∈ keys ((B.cancelOrder orderId).2.levels s), x ∈ keys (B.levels s) := by
  intro x hx
  cases hk : lookup B.orderMap orderId with
  | none => rwa [cancelOrder_of_lookup_none hk] at hx
  | some p =>
    cases hl : lookup (B.levels (B.heap p).side) (B.heap p).price with
    | none => simpa [cancelOrder, hk, hl] using hx
    | some l =>
      rw [cancelOrder_of_lookup_some hk hl] at hx
      rcases Side.eq_or_eq_opposite s (B.heap p).side with rfl | rfl
      · have hkey : (B.heap p).price ∈ keys (B.levels (B.heap p).side) := lookup_isSome.mp (by simp [hl])
        simp only [levels_setLevels] at hx
        split_ifs at hx
        · exact (keys_eraseKey_sublist _ _).subset hx
        · rcases keys_insert_subset _ _ _ _ x hx with rfl | hx
          · exact hkey
          · exact hx
      · simpa using hx

theorem Uncrossed.modifyOrder {B : OrderBookImpl} (hw : Wf B) (h : Uncrossed B) (orderId : UInt64)
    (newPrice : Int) (newQuantity : UInt32) (now : UInt64) :
    Uncrossed (B.modifyOrder orderId newPrice newQuantity now).2 := by
  have hc := h.mono (cancelOrder_keys B orderId)
  have hwc := hw.cancelOrder orderId
  unfold OrderBookImpl.modifyOrder
  split
  · exact h
  · rcases hB : B.cancelOrder orderId with ⟨c, B₁⟩
    rw [hB] at hc hwc
    cases c
    · exact hc
    · exact hc.addOrder hwc _

theorem Reachable.uncrossed {B : OrderBookImpl} (h : Reachable B) : Uncrossed B := by
  induction h with
  | create => simp [Uncrossed]
  | addOrder order h ih => exact ih.addOrder h.wf order
  | cancelOrder orderId _ ih => exact ih.mono (cancelOrder_keys _ orderId)
  | modifyOrder orderId newPrice newQuantity now h ih => exact ih.modifyOrder h.wf _ _ _ _
  | clear => simp [Uncrossed]

/-- A reachable book is never crossed: when both sides are non-empty the best bid is below
the best ask. -/
theorem reachable_bestBid_lt_bestAsk {B : OrderBookImpl} (h : Reachable B) {b a : Int}
    (hb : B.bestBid = some b) (ha : B.bestAsk = some a) : b < a := by
  rw [bestBid_eq] at hb
  rw [bestAsk_eq] at ha
  obtain ⟨eb, heb, rfl⟩ := Option.map_eq_some'.mp hb
  obtain ⟨ea, hea, rfl⟩ := Option.map_eq_some'.mp ha
  exact h.uncrossed _ (List.mem_map_of_mem _ (List.mem_of_mem_head? heb)) _
    (List.mem_map_of_mem _ (List.mem_of_mem_head? hea))

/-- A bid resting below a resting offer. -/
theorem spread_after_two_sided_book :
    let B := (((createOrderBook 1).addOrder ⟨1, 1, 101, 5, 0, .SELL⟩).2.addOrder
      ⟨2, 1, 100, 5, 0, .BUY⟩).2
    B.bestBid = some 100 ∧ B.bestAsk = some 101 ∧ (100 : Int) < 101 :=
  ⟨by decide, by decide,
    reachable_bestBid_lt_bestAsk
      (.addOrder ⟨2, 1, 100, 5, 0, .BUY⟩ (.addOrder ⟨1, 1, 101, 5, 0, .SELL⟩ (.create 1)))
      (by decide) (by decide)⟩

end Micromatch.Proofs
