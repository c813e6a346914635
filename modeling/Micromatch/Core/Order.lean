import Mathlib

namespace UInt32

theorem le_iff_toNat_le {a b : UInt32} : a ≤ b ↔ a.toNat ≤ b.toNat := Iff.rfl

theorem lt_iff_toNat_lt {a b : UInt32} : a < b ↔ a.toNat < b.toNat := Iff.rfl

theorem eq_iff_toNat_eq {a b : UInt32} : a = b ↔ a.toNat = b.toNat :=
  ⟨congrArg _, UInt32.toNat.inj⟩

theorem le_of_lt {a b : UInt32} (h : a < b) : a ≤ b :=
  le_iff_toNat_le.mpr (Nat.le_of_lt (lt_iff_toNat_lt.mp h))

theorem toNat_min (a b : UInt32) : (min a b).toNat = min a.toNat b.toNat := by
  show (if a ≤ b then a else b).toNat = _
  by_cases h : a ≤ b
  · simp only [h, if_true]; have := le_iff_toNat_le.mp h; omega
  · simp only [h, if_false]; have := mt le_iff_toNat_le.mpr h; omega

theorem min_eq_right_of_le {a b : UInt32} (h : b ≤ a) : min a b = b := by
  rw [eq_iff_toNat_eq, toNat_min]; have := le_iff_toNat_le.mp h; omega

theorem min_eq_left_of_le {a b : UInt32} (h : a ≤ b) : min a b = a := by
  rw [eq_iff_toNat_eq, toNat_min]; have := le_iff_toNat_le.mp h; omega

theorem sub_pos_of_lt {a b : UInt32} (h : b < a) : 0 < a - b := by
  rw [lt_iff_toNat_lt, UInt32.toNat_sub_of_le _ _ (le_iff_toNat_le.mpr (lt_iff_toNat_lt.mp h).le)]
  have := lt_iff_toNat_lt.mp h
  show 0 < _; omega

theorem toNat_add_mod (a b : UInt32) : (a + b).toNat = (a.toNat + b.toNat) % UInt32.size := rfl

theorem toNat_ofNat_mod (n : Nat) : (UInt32.ofNat n).toNat = n % UInt32.size := rfl

/-- A `uint32_t` sum is the exact sum modulo `2^32`. -/
theorem toNat_sum (l : List UInt32) : l.sum.toNat = (l.map toNat).sum % UInt32.size := by
  induction l with
  | nil => rfl
  | cons a l ih =>
    rw [List.sum_cons, toNat_add_mod, ih, List.map_cons, List.sum_cons, Nat.add_mod_mod]

end UInt32

namespace UInt64

@[simp] theorem ofNat_zero : UInt64.ofNat 0 = 0 := rfl

theorem ofNat_add (a b : Nat) : UInt64.ofNat (a + b) = UInt64.ofNat a + UInt64.ofNat b :=
  UInt64.toNat.inj (by
    show (a + b) % 18446744073709551616 =
      (a % 18446744073709551616 + b % 18446744073709551616) % 18446744073709551616
    omega)

theorem ofNat_succ (n : Nat) : UInt64.ofNat (n + 1) = UInt64.ofNat n + 1 := ofNat_add n 1

theorem toNat_add_mod (a b : UInt64) : (a + b).toNat = (a.toNat + b.toNat) % UInt64.size := rfl

theorem toNat_sub_mod (a b : UInt64) :
    (a - b).toNat = (UInt64.size - b.toNat + a.toNat) % UInt64.size :=
  BitVec.toNat_sub ..

theorem toNat_ofNat_mod (n : Nat) : (UInt64.ofNat n).toNat = n % UInt64.size :=
  BitVec.toNat_ofNat ..

theorem eq_iff_toNat_eq {a b : UInt64} : a = b ↔ a.toNat = b.toNat :=
  ⟨congrArg _, UInt64.toNat.inj⟩

end UInt64

namespace Micromatch.Core

/-- Order sides (`enum class Side : uint8_t`). -/
inductive Side where
  | BUY
  | SELL
  deriving DecidableEq, Repr

def Side.opposite : Side → Side
  | .BUY => .SELL
  | .SELL => .BUY

@[simp] theorem Side.opposite_opposite (s : Side) : s.opposite.opposite = s := by
  cases s <;> rfl

@[simp] theorem Side.opposite_ne (s : Side) : s.opposite ≠ s := by
  cases s <;> simp [Side.opposite]

theorem Side.eq_or_eq_opposite (t s : Side) : t = s ∨ t = s.opposite := by
  cases t <;> cases s <;> simp [Side.opposite]

/-- The fields of `struct Order` that the book and the engine read or write. Prices are
`int64_t` and are only compared, never computed with, so they are integers here. -/
structure Order where
  orderId : UInt64
  symbolId : UInt64
  price : Int
  quantity : UInt32
  timestampNs : UInt64
  side : Side
  deriving DecidableEq, Repr

/-- `Order::is_buy`. -/
def Order.isBuy (o : Order) : Bool := o.side = .BUY

/-- `Order::can_match`: the same symbol, opposite sides, and a buy's price at or above the
other's, a sell's at or below it. -/
def Order.canMatch (o other : Order) : Bool :=
  if o.symbolId ≠ other.symbolId then false
  else if o.side = other.side then false
  else if o.isBuy then o.price ≥ other.price
  else o.price ≤ other.price

/-- The fields of `struct Trade` other than its clock reading and padding. -/
structure Trade where
  tradeId : UInt64
  buyOrderId : UInt64
  sellOrderId : UInt64
  symbolId : UInt64
  price : Int
  quantity : UInt32
  deriving DecidableEq, Repr

/-- `Trade(id, buy, sell, exec_price, qty)`: the ids are read from the two order arguments,
the symbol from the first. -/
def Trade.ofOrders (id : UInt64) (buy sell : Order) (execPrice : Int) (qty : UInt32) : Trade :=
  ⟨id, buy.orderId, sell.orderId, buy.symbolId, execPrice, qty⟩

/-- The unordered pair of order ids a trade names. -/
def Trade.parties (t : Trade) : Sym2 UInt64 := s(t.buyOrderId, t.sellOrderId)

end Micromatch.Core
