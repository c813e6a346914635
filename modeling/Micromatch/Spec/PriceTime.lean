import Micromatch.Core.Order

namespace Micromatch.Spec
open Micromatch.Core

/-- Whether an incoming order of side `s` at `price` trades with a resting order at `resting`:
a bid at or above the ask, an offer at or below the bid. -/
def Side.crosses : Side → Int → Int → Bool
  | .BUY, price, resting => price ≥ resting
  | .SELL, price, resting => price ≤ resting

/-- What the contract says of a trade: its id, the unordered pair of order ids, the price and
the quantity. -/
structure Fill where
  tradeId : UInt64
  parties : Sym2 UInt64
  price : Int
  quantity : UInt32
  deriving DecidableEq

/-- The reference walk over the resting orders `R`, with `tid` the next trade id: each turn fills
the smaller remaining quantity at the resting price and drops a resting order it uses up. It returns
the fills, the incoming order and the resting orders as left. -/
def refSweep (crosses : Int → Int → Bool) : UInt64 → Order → List Order →
    List Fill × Order × List Order
  | _, o, [] => ([], o, [])
  | tid, o, r :: R =>
    if 0 < o.quantity ∧ crosses o.price r.price then
      let q := min o.quantity r.quantity
      let fill : Fill := ⟨tid, s(o.orderId, r.orderId), r.price, q⟩
      let o' : Order := { o with quantity := o.quantity - q }
      if r.quantity - q = 0 then
        let (fills, o'', R') := refSweep crosses (tid + 1) o' R
        (fill :: fills, o'', R')
      else ([fill], o', { r with quantity := r.quantity - q } :: R)
    else ([], o, r :: R)

@[simp] theorem refSweep_nil (crosses : Int → Int → Bool) (tid : UInt64) (o : Order) :
    refSweep crosses tid o [] = ([], o, []) := rfl

/-- An incoming order with nothing left to fill trades with nobody. -/
theorem refSweep_of_quantity_eq_zero (crosses : Int → Int → Bool) (tid : UInt64) {o : Order}
    (ho : o.quantity = 0) (R : List Order) : refSweep crosses tid o R = ([], o, R) := by
  cases R with
  | nil => rfl
  | cons r R => simp [refSweep, ho]

/-- A walk that stops at the head leaves everything as it was. -/
theorem refSweep_of_not_crosses (crosses : Int → Int → Bool) (tid : UInt64) (o : Order)
    {r : Order} (hc : crosses o.price r.price = false) (R : List Order) :
    refSweep crosses tid o (r :: R) = ([], o, r :: R) := by
  simp [refSweep, hc]

end Micromatch.Spec
