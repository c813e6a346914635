import Micromatch.Core.Order

namespace Micromatch.Core

/-- A `shared_ptr<Order>`: the address of an order object. -/
abbrev Ptr := Nat

/-- The order objects that the book's `shared_ptr`s point to. -/
abbrev Heap := Ptr → Order

/-- `class PriceLevelImpl`: the orders queued at one price, front first, and the `uint32_t`
running volume. -/
structure PriceLevelImpl where
  price : Int
  orders : List Ptr
  totalVolume : UInt32
  deriving DecidableEq, Repr

namespace PriceLevelImpl

/-- `explicit PriceLevelImpl(int64_t price)`. -/
def mk' (price : Int) : PriceLevelImpl := ⟨price, [], 0⟩

/-- `add_order`: push to the back and add the order's quantity to the volume. -/
def addOrder (l : PriceLevelImpl) (heap : Heap) (order : Ptr) : PriceLevelImpl :=
  { l with orders := l.orders ++ [order], totalVolume := l.totalVolume + (heap order).quantity }

def peekFront (l : PriceLevelImpl) : Option Ptr := l.orders.head?

/-- `remove_front_after_fill`: the front order was filled by `filledQuantity`. -/
def removeFrontAfterFill (l : PriceLevelImpl) (filledQuantity : UInt32) : PriceLevelImpl :=
  match l.orders with
  | [] => l
  | _ :: rest => { l with orders := rest, totalVolume := l.totalVolume - filledQuantity }

def updateVolumeAfterPartialFill (l : PriceLevelImpl) (filledQuantity : UInt32) :
    PriceLevelImpl :=
  { l with totalVolume := l.totalVolume - filledQuantity }

/-- One turn of the drain loop of `remove_order`: the accumulator is
`(temp_queue, total_volume_, found)`. -/
def removeOrderStep (heap : Heap) (orderId : UInt64) (acc : List Ptr × UInt32 × Bool)
    (order : Ptr) : List Ptr × UInt32 × Bool :=
  if (heap order).orderId = orderId then (acc.1, acc.2.1 - (heap order).quantity, true)
  else (acc.1 ++ [order], acc.2.1, acc.2.2)

/-- `remove_order`: drain the queue into `temp_queue`, dropping every order with the id. -/
def removeOrder (l : PriceLevelImpl) (heap : Heap) (orderId : UInt64) : Bool × PriceLevelImpl :=
  let (temp, volume, found) := l.orders.foldl (removeOrderStep heap orderId) ([], l.totalVolume, false)
  (found, { l with orders := temp, totalVolume := volume })

def empty (l : PriceLevelImpl) : Bool := l.orders.isEmpty

def orderCount (l : PriceLevelImpl) : Nat := l.orders.length

def volume (l : PriceLevelImpl) : UInt32 := l.totalVolume

@[simp] theorem addOrder_orders (l : PriceLevelImpl) (heap : Heap) (p : Ptr) :
    (l.addOrder heap p).orders = l.orders ++ [p] := rfl

@[simp] theorem addOrder_price (l : PriceLevelImpl) (heap : Heap) (p : Ptr) :
    (l.addOrder heap p).price = l.price := rfl

@[simp] theorem addOrder_totalVolume (l : PriceLevelImpl) (heap : Heap) (p : Ptr) :
    (l.addOrder heap p).totalVolume = l.totalVolume + (heap p).quantity := rfl

@[simp] theorem updateVolumeAfterPartialFill_orders (l : PriceLevelImpl) (q : UInt32) :
    (l.updateVolumeAfterPartialFill q).orders = l.orders := rfl

@[simp] theorem updateVolumeAfterPartialFill_price (l : PriceLevelImpl) (q : UInt32) :
    (l.updateVolumeAfterPartialFill q).price = l.price := rfl

@[simp] theorem updateVolumeAfterPartialFill_totalVolume (l : PriceLevelImpl) (q : UInt32) :
    (l.updateVolumeAfterPartialFill q).totalVolume = l.totalVolume - q := rfl

theorem removeFrontAfterFill_cons {l : PriceLevelImpl} {p : Ptr} {rest : List Ptr}
    (h : l.orders = p :: rest) (q : UInt32) :
    l.removeFrontAfterFill q = { l with orders := rest, totalVolume := l.totalVolume - q } := by
  simp [removeFrontAfterFill, h]

@[simp] theorem empty_iff (l : PriceLevelImpl) : l.empty = true ↔ l.orders = [] := by
  simp [empty]

/-- The drain loop keeps the other orders in their order and subtracts, one by one, the
quantities of the orders it drops. -/
theorem foldl_removeOrderStep (heap : Heap) (orderId : UInt64) (ps temp : List Ptr)
    (v : UInt32) (found : Bool) :
    ps.foldl (removeOrderStep heap orderId) (temp, v, found) =
      (temp ++ ps.filter (fun p => (heap p).orderId ≠ orderId),
       v - ((ps.filter (fun p => (heap p).orderId = orderId)).map (fun p => (heap p).quantity)).sum,
       found || ps.any (fun p => (heap p).orderId = orderId)) := by
  induction ps generalizing temp v found with
  | nil => simp
  | cons p ps ih =>
    by_cases hp : (heap p).orderId = orderId
    · simp only [List.foldl_cons, removeOrderStep, hp, if_true, ih]
      simp [List.filter_cons, hp, sub_sub]
    · simp only [List.foldl_cons, removeOrderStep, hp, if_false, ih]
      simp [List.filter_cons, hp]

theorem removeOrder_eq (l : PriceLevelImpl) (heap : Heap) (orderId : UInt64) :
    l.removeOrder heap orderId =
      (l.orders.any (fun p => (heap p).orderId = orderId),
       { l with orders := l.orders.filter (fun p => (heap p).orderId ≠ orderId),
                totalVolume := l.totalVolume - ((l.orders.filter
                  (fun p => (heap p).orderId = orderId)).map (fun p => (heap p).quantity)).sum }) := by
  simp [removeOrder, foldl_removeOrderStep]

end PriceLevelImpl

end Micromatch.Core
