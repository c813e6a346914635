import Micromatch.Proofs.Step

namespace Micromatch.Proofs
open Micromatch.Core OrderBookImpl PriceMap

/-- The states an `OrderBookImpl` reaches from `create_order_book` through its four mutators,
each called with any arguments. -/
inductive Reachable : OrderBookImpl → Prop
  | create (symbolId : UInt64) : Reachable (createOrderBook symbolId)
  | addOrder {B : OrderBookImpl} (order : Order) : Reachable B → Reachable (B.addOrder order).2
  | cancelOrder {B : OrderBookImpl} (orderId : UInt64) :
      Reachable B → Reachable (B.cancelOrder orderId).2
  | modifyOrder {B : OrderBookImpl} (orderId : UInt64) (newPrice : Int) (newQuantity : UInt32)
      (now : UInt64) : Reachable B → Reachable (B.modifyOrder orderId newPrice newQuantity now).2
  | clear {B : OrderBookImpl} : Reachable B → Reachable B.clear

/-- Every address queued in the book, bids first. -/
def allQueued (B : OrderBookImpl) : List Ptr := queued (B.levels .BUY) ++ queued (B.levels .SELL)

theorem allQueued_perm (B : OrderBookImpl) (s : Side) :
    (allQueued B).Perm (queued (B.levels s) ++ queued (B.levels s.opposite)) := by
  cases s
  · rfl
  · exact List.perm_append_comm

theorem mem_allQueued {B : OrderBookImpl} {p : Ptr} :
    p ∈ allQueued B ↔ ∃ s, p ∈ queued (B.levels s) := by
  constructor
  · intro h
    rcases List.mem_append.mp h with h | h
    · exact ⟨.BUY, h⟩
    · exact ⟨.SELL, h⟩
  · rintro ⟨s, h⟩
    cases s
    · exact List.mem_append_left _ h
    · exact List.mem_append_right _ h

/-- What `std::map` and the level code keep true of one side: keys in comparator order, each
level's `price_` its key and its queue non-empty, and each queued order live, of this side and
at the level's price. -/
structure SideWf (heap : Heap) (s : Side) (m : PriceMap) : Prop where
  sorted : Sorted s m
  level : ∀ e ∈ m, e.2.price = e.1 ∧ e.2.orders ≠ []
  order : ∀ e ∈ m, ∀ p ∈ e.2.orders,
    (heap p).side = s ∧ (heap p).price = e.1 ∧ 0 < (heap p).quantity ∧ 0 < (heap p).price

/-- The representation invariant of the book. Each queued address appears once over all
levels, and `order_map_` pairs each id with the one queued order that carries it. -/
structure Wf (B : OrderBookImpl) : Prop where
  side : ∀ s, SideWf B.heap s (B.levels s)
  nodup : (allQueued B).Nodup
  allocated : ∀ p ∈ allQueued B, p < B.nextPtr
  keysNodup : (keys B.orderMap).Nodup
  indexed : ∀ k p, (k, p) ∈ B.orderMap ↔ p ∈ allQueued B ∧ (B.heap p).orderId = k

namespace SideWf

variable {heap : Heap} {s : Side} {m : PriceMap}

theorem of_mem_queued (h : SideWf heap s m) {p : Ptr} (hp : p ∈ queued m) :
    (heap p).side = s ∧ 0 < (heap p).quantity ∧ 0 < (heap p).price := by
  obtain ⟨e, he, hpe⟩ := List.mem_flatMap.mp hp
  obtain ⟨h1, -, h3, h4⟩ := h.order e he p hpe
  exact ⟨h1, h3, h4⟩

theorem frame (h : SideWf heap s m) {heap' : Heap} (hf : ∀ p ∈ queued m, heap' p = heap p) :
    SideWf heap' s m where
  sorted := h.sorted
  level := h.level
  order e he p hp := by
    rw [hf p (List.mem_flatMap.mpr ⟨e, he, hp⟩)]
    exact h.order e he p hp

/-- A map whose levels are, key by key, non-empty parts of the levels of a side. -/
theorem shrink (h : SideWf heap s m) {m' : PriceMap} (hs : Sorted s m')
    (hsub : ∀ e ∈ m', ∃ e₀ ∈ m, e.1 = e₀.1 ∧ e.2.price = e₀.2.price ∧ e.2.orders ≠ [] ∧
      ∀ p ∈ e.2.orders, p ∈ e₀.2.orders) : SideWf heap s m' where
  sorted := hs
  level e he := by
    obtain ⟨e₀, he₀, hk, hpr, hne, -⟩ := hsub e he
    exact ⟨by rw [hpr, hk]; exact (h.level e₀ he₀).1, hne⟩
  order e he p hp := by
    obtain ⟨e₀, he₀, hk, -, -, hsub⟩ := hsub e he
    rw [hk]
    exact h.order e₀ he₀ p (hsub p hp)

theorem tail {e : Int × PriceLevelImpl} (h : SideWf heap s (e :: m)) : SideWf heap s m :=
  h.shrink h.sorted.tail fun e' he' =>
    ⟨e', List.mem_cons_of_mem _ he', rfl, rfl, (h.level e' (List.mem_cons_of_mem _ he')).2,
      fun _ hp => hp⟩

/-- The head level may lose its front order (if others stay) and change its volume. -/
theorem setHead {k : Int} {l v : PriceLevelImpl} (h : SideWf heap s ((k, l) :: m))
    (hpr : v.price = l.price) (hne : v.orders ≠ []) (hsub : ∀ p ∈ v.orders, p ∈ l.orders) :
    SideWf heap s ((k, v) :: m) := by
  refine h.shrink h.sorted fun e he => ?_
  rcases List.mem_cons.mp he with rfl | he
  · exact ⟨(k, l), List.mem_cons_self _ _, rfl, hpr, hne, hsub⟩
  · exact ⟨e, List.mem_cons_of_mem _ he, rfl, rfl, (h.level e (List.mem_cons_of_mem _ he)).2,
      fun _ hp => hp⟩

/-- Filling a queued order in part leaves its side, price and a positive quantity. -/
theorem fill (h : SideWf heap s m) (p : Ptr) {x : UInt32} (hx : 0 < x) :
    SideWf (Function.update heap p { heap p with quantity := x }) s m where
  sorted := h.sorted
  level := h.level
  order e he q hq := by
    have := h.order e he q hq
    by_cases hqp : q = p
    · subst hqp; simpa using ⟨this.1, this.2.1, hx, this.2.2.2⟩
    · simpa [Function.update_noteq hqp] using this

theorem eraseKey (h : SideWf heap s m) (k : Int) : SideWf heap s (Core.eraseKey m k) :=
  h.shrink (h.sorted.eraseKey k) fun e he =>
    ⟨e, (mem_eraseKey.mp he).1, rfl, rfl, (h.level e (mem_eraseKey.mp he).1).2, fun _ hp => hp⟩

/-- Putting a well-formed level at key `k`, in place of the level there if any. -/
theorem insert (h : SideWf heap s m) {k : Int} {v : PriceLevelImpl} (hv : v.price = k)
    (hne : v.orders ≠ [])
    (hord : ∀ p ∈ v.orders,
      (heap p).side = s ∧ (heap p).price = k ∧ 0 < (heap p).quantity ∧ 0 < (heap p).price) :
    SideWf heap s (PriceMap.insert s.before k v m) where
  sorted := h.sorted.insert k v
  level e he := by
    rcases (mem_insert h.sorted).mp he with rfl | he
    · exact ⟨hv, hne⟩
    · exact (h.eraseKey k).level e he
  order e he := by
    rcases (mem_insert h.sorted).mp he with rfl | he
    · exact hord
    · exact (h.eraseKey k).order e he

/-- The level a map holds at `k`, or a fresh one, is well formed but for emptiness. -/
theorem lookup_getD (h : SideWf heap s m) (k : Int) :
    ((lookup m k).getD (PriceLevelImpl.mk' k)).price = k ∧
      ((lookup m k).getD (PriceLevelImpl.mk' k)).orders = levelOrders m k ∧
      ∀ p ∈ ((lookup m k).getD (PriceLevelImpl.mk' k)).orders,
        (heap p).side = s ∧ (heap p).price = k ∧ 0 < (heap p).quantity ∧ 0 < (heap p).price := by
  cases hl : lookup m k with
  | none => simp [levelOrders, hl, PriceLevelImpl.mk']
  | some v =>
    have hv := (lookup_eq_some h.sorted.nodup).mp hl
    simp only [hl, Option.getD_some]
    exact ⟨(h.level _ hv).1, by simp [levelOrders, hl], h.order _ hv⟩

end SideWf

theorem allQueued_setLevels_perm (B : OrderBookImpl) (s : Side) (m : PriceMap) :
    (allQueued (B.setLevels s m)).Perm (queued m ++ queued (B.levels s.opposite)) := by
  simpa using allQueued_perm (B.setLevels s m) s

namespace Wf

variable {B : OrderBookImpl}

theorem mem_of_queued (_ : Wf B) {s : Side} {p : Ptr} (hp : p ∈ queued (B.levels s)) :
    p ∈ allQueued B := mem_allQueued.mpr ⟨s, hp⟩

/-- An id no queued order carries is not indexed. -/
theorem not_mem_keys_of_fresh (hw : Wf B) {k : UInt64} (hk : ∀ p ∈ allQueued B, (B.heap p).orderId ≠ k) :
    k ∉ keys B.orderMap := fun hm => by
  obtain ⟨p, hp⟩ := mem_keys.mp hm
  obtain ⟨hpq, hid⟩ := (hw.indexed _ p).mp hp
  exact hk p hpq hid

/-- Queued orders carry distinct ids. -/
theorem eq_of_orderId (hw : Wf B) {p q : Ptr} (hp : p ∈ allQueued B) (hq : q ∈ allQueued B)
    (h : (B.heap p).orderId = (B.heap q).orderId) : p = q := by
  have hp' := (lookup_eq_some hw.keysNodup).mpr ((hw.indexed _ p).mpr ⟨hp, rfl⟩)
  rw [(lookup_eq_some hw.keysNodup).mpr ((hw.indexed _ q).mpr ⟨hq, h.symm⟩)] at hp'
  exact (Option.some.inj hp').symm

/-- Taking one queued order out of its level and out of the index keeps the invariant. -/
theorem remove (hw : Wf B) {B' : OrderBookImpl} {p : Ptr}
    (hperm : (allQueued B).Perm (p :: allQueued B'))
    (hheap : ∀ x, x ≠ p → B'.heap x = B.heap x) (hptr : B'.nextPtr = B.nextPtr)
    (hmap : B'.orderMap = eraseKey B.orderMap (B.heap p).orderId)
    (hside : ∀ s, SideWf B'.heap s (B'.levels s)) : Wf B' where
  side := hside
  nodup := (hperm.nodup_iff.mp hw.nodup).of_cons
  allocated x hx := hptr ▸ hw.allocated x (hperm.mem_iff.mpr (List.mem_cons_of_mem _ hx))
  keysNodup := hmap ▸ hw.keysNodup.sublist (keys_eraseKey_sublist _ _)
  indexed k x := by
    have hnd := hperm.nodup_iff.mp hw.nodup
    have hpB : p ∈ allQueued B := hperm.mem_iff.mpr (List.mem_cons_self _ _)
    rw [hmap, mem_eraseKey, hw.indexed]
    constructor
    · rintro ⟨⟨hx, rfl⟩, hk⟩
      have hxp : x ≠ p := fun h => hk (h ▸ rfl)
      refine ⟨?_, by rw [hheap x hxp]⟩
      exact (List.mem_cons.mp (hperm.mem_iff.mp hx)).resolve_left hxp
    · rintro ⟨hx, rfl⟩
      have hxp : x ≠ p := fun h => (List.nodup_cons.mp hnd).1 (h ▸ hx)
      have hxB : x ∈ allQueued B := hperm.mem_iff.mpr (List.mem_cons_of_mem _ hx)
      rw [hheap x hxp]
      exact ⟨⟨hxB, rfl⟩, fun h => hxp (hw.eq_of_orderId hxB hpB h)⟩

/-- Queuing a fresh address under a fresh id keeps the invariant. -/
theorem add (hw : Wf B) {B' : OrderBookImpl} {o : Order}
    (hperm : (allQueued B').Perm (B.nextPtr :: allQueued B))
    (hheap : B'.heap = Function.update B.heap B.nextPtr o) (hptr : B'.nextPtr = B.nextPtr + 1)
    (hmap : B'.orderMap = B.orderMap ++ [(o.orderId, B.nextPtr)])
    (hfresh : o.orderId ∉ keys B.orderMap)
    (hside : ∀ s, SideWf B'.heap s (B'.levels s)) : Wf B' where
  side := hside
  nodup := hperm.nodup_iff.mpr
    (List.nodup_cons.mpr ⟨fun h => Nat.lt_irrefl _ (hw.allocated _ h), hw.nodup⟩)
  allocated x hx := by
    rw [hptr]
    rcases List.mem_cons.mp (hperm.mem_iff.mp hx) with rfl | hx
    · exact Nat.lt_succ_self _
    · exact Nat.lt_succ_of_lt (hw.allocated x hx)
  keysNodup := by
    rw [hmap, keys_append, List.nodup_append]
    exact ⟨hw.keysNodup, List.nodup_singleton _,
      fun a ha hb => hfresh ((List.mem_singleton.mp hb : a = o.orderId) ▸ ha)⟩
  indexed k x := by
    rw [hmap, List.mem_append, hw.indexed, hperm.mem_iff, List.mem_cons, hheap]
    by_cases hx : x = B.nextPtr
    · subst hx
      have : B.nextPtr ∉ allQueued B := fun h => Nat.lt_irrefl _ (hw.allocated _ h)
      simp [this, eq_comm]
    · simp [hx, Function.update_noteq hx]

/-- Filling one queued order in part, queues and index unchanged, keeps the invariant. -/
theorem fill (hw : Wf B) {B' : OrderBookImpl} {p : Ptr} {x : UInt32} (hx : 0 < x)
    (hheap : B'.heap = Function.update B.heap p { B.heap p with quantity := x })
    (hq : ∀ s, queued (B'.levels s) = queued (B.levels s))
    (hptr : B'.nextPtr = B.nextPtr) (hmap : B'.orderMap = B.orderMap)
    (hside : ∀ s, SideWf B.heap s (B'.levels s)) : Wf B' := by
  have hall : allQueued B' = allQueued B := by simp [allQueued, hq]
  refine ⟨fun s => hheap ▸ (hside s).fill p hx, hall ▸ hw.nodup, hall ▸ hptr ▸ hw.allocated,
    hmap ▸ hw.keysNodup, fun k y => ?_⟩
  rw [hall, hmap, hheap]
  by_cases hy : y = p
  · subst hy; simpa using hw.indexed k y
  · simpa [Function.update_noteq hy] using hw.indexed k y

/-- The queues of a side's best level, of the levels behind it and of the other side, as one
list of all queued addresses. -/
theorem allQueued_perm_best (B : OrderBookImpl) {s : Side} {k : Int} {l : PriceLevelImpl}
    {rest : PriceMap} (hl : B.levels s = (k, l) :: rest) :
    (allQueued B).Perm (l.orders ++ queued rest ++ queued (B.levels s.opposite)) := by
  simpa [hl] using allQueued_perm B s

/-- The front order of a side's best level is queued nowhere else. -/
theorem front_unique (hw : Wf B) {s : Side} {k : Int} {l : PriceLevelImpl} {rest : PriceMap}
    {p : Ptr} {ps : List Ptr} (hl : B.levels s = (k, l) :: rest) (hp : l.orders = p :: ps) :
    p ∉ ps ++ queued rest ++ queued (B.levels s.opposite) := by
  have hq := allQueued_perm_best B hl
  rw [hp, List.cons_append, List.cons_append] at hq
  exact (List.nodup_cons.mp (hq.nodup_iff.mp hw.nodup)).1

/-- One turn of the matching loop keeps the invariant. -/
theorem matchStep {passive : Side} {noCross : Int → Int → Bool} (hw : Wf B) {o : Order}
    {ts : List Trade} {st : MatchState} (h : Core.OrderBookImpl.matchStep passive noCross (B, o, ts) = some st) :
    Wf st.1 := by
  obtain ⟨-, k, l, rest, hl, -, hcase⟩ := matchStep_cases h
  have hsw := hw.side passive
  rw [hl] at hsw
  have hq := allQueued_perm_best B hl
  rcases hcase with ⟨he, rfl⟩ | ⟨p, ps, hp, -, rfl⟩ | ⟨p, ps, hp, hlt, rfl⟩
  · exact absurd he (hsw.level _ (List.mem_cons_self _ _)).2
  · have hpn := hw.front_unique hl hp
    rw [hp, List.cons_append, List.cons_append] at hq
    set m' := if ps = [] then rest
      else (k, { l with orders := ps, totalVolume := l.totalVolume - (B.heap p).quantity }) :: rest
    have hm' : queued m' = ps ++ queued rest := by
      by_cases hps : ps = [] <;> simp [m', hps]
    have hf : ∀ x, x ≠ p → Function.update B.heap p { B.heap p with quantity := 0 } x = B.heap x :=
      fun x hx => Function.update_noteq hx _ _
    have hpass : SideWf B.heap passive m' := by
      by_cases hps : ps = []
      · simpa [m', hps] using hsw.tail
      · simpa [m', hps] using
          hsw.setHead (v := { l with orders := ps, totalVolume := l.totalVolume - (B.heap p).quantity })
            rfl hps (fun x hx => by simp [hp, hx])
    refine hw.remove (p := p) ?_ (fun x hx => by simp [hf x hx]) (by simp) (by simp) ?_
    · refine hq.trans (List.Perm.cons p (List.Perm.symm ((allQueued_setLevels_perm _ _ _).trans ?_)))
      simp [hm']
    · intro t
      rcases Side.eq_or_eq_opposite t passive with rfl | rfl
      · simp only [levels_setLevels, setLevels_heap]
        exact hpass.frame (fun x hx => hf x fun h => hpn (by simp_all))
      · simp only [levels_setLevels_opposite, setLevels_heap, levels_mk]
        exact (hw.side _).frame (fun x hx => hf x fun h => hpn (by simp_all))
  · refine hw.fill (p := p) (UInt32.sub_pos_of_lt hlt) (by simp) (fun t => ?_) (by simp) (by simp)
      (fun t => ?_)
    · rcases Side.eq_or_eq_opposite t passive with rfl | rfl <;> simp [hl]
    · rcases Side.eq_or_eq_opposite t passive with rfl | rfl
      · simpa using hsw.setHead (v := { l with totalVolume := l.totalVolume - o.quantity }) rfl
          (hsw.level _ (List.mem_cons_self _ _)).2 fun _ hx => hx
      · simpa using hw.side _

/-- `add_to_book` of a live order under an id the index does not hold. -/
theorem addToBook (hw : Wf B) {o : Order} (hq : 0 < o.quantity) (hpr : 0 < o.price)
    (hfresh : o.orderId ∉ keys B.orderMap) : Wf (B.addToBook o) := by
  have hfree : ∀ x ∈ allQueued B, x ≠ B.nextPtr := fun x hx h =>
    Nat.lt_irrefl _ (h ▸ hw.allocated x hx)
  have hf : ∀ x ∈ allQueued B, Function.update B.heap B.nextPtr o x = B.heap x :=
    fun x hx => Function.update_noteq (hfree x hx) _ _
  have hsw := hw.side o.side
  obtain ⟨hlp, hlo, hlord⟩ := hsw.lookup_getD o.price
  refine hw.add (o := o) ?_ (by simp) (by simp) (by simp [assign_of_not_mem hfresh])
    hfresh ?_
  · refine (allQueued_perm _ o.side).trans ?_
    rw [addToBook_levels_side, addToBook_levels_opposite]
    refine ((queued_insert_perm hsw.sorted _ _).append_right _).trans ?_
    have h1 := queued_perm_levelOrders hsw.sorted o.price
    refine List.Perm.trans ?_ (((h1.append_right _).symm.trans (allQueued_perm B o.side).symm).cons _)
    simp [hlo, List.perm_middle]
  · intro t
    rcases Side.eq_or_eq_opposite t o.side with rfl | rfl
    · rw [addToBook_levels_side, addToBook_heap]
      refine (hsw.frame fun x hx => hf x (hw.mem_of_queued hx)).insert (by simpa using hlp)
        (by simp) fun x hx => ?_
      rcases List.mem_append.mp hx with hx | hx
      · have hxq : x ∈ queued (B.levels o.side) :=
          (queued_perm_levelOrders hsw.sorted o.price).mem_iff.mpr
            (List.mem_append_left _ (hlo ▸ hx))
        rw [hf x (hw.mem_of_queued hxq)]
        exact hlord x hx
      · obtain rfl := List.mem_singleton.mp hx
        simpa using ⟨hq, hpr⟩
    · rw [addToBook_levels_opposite, addToBook_heap]
      exact (hw.side _).frame fun x hx => hf x (hw.mem_of_queued hx)

/-- An indexed id names a queued order, found in the level of its side at its price. -/
theorem locate (hw : Wf B) {k : UInt64} {p : Ptr} (hk : lookup B.orderMap k = some p) :
    p ∈ allQueued B ∧ (B.heap p).orderId = k ∧
      ∃ l, lookup (B.levels (B.heap p).side) (B.heap p).price = some l ∧ p ∈ l.orders := by
  obtain ⟨hp, hid⟩ := (hw.indexed k p).mp ((lookup_eq_some hw.keysNodup).mp hk)
  refine ⟨hp, hid, ?_⟩
  obtain ⟨s, hs⟩ := mem_allQueued.mp hp
  obtain ⟨e, he, hpe⟩ := List.mem_flatMap.mp hs
  obtain ⟨hside, hprice, -⟩ := (hw.side s).order e he p hpe
  rw [hside, hprice]
  exact ⟨e.2, (lookup_eq_some (hw.side s).sorted.nodup).mpr he, hpe⟩

/-- The queue of the level holding `p` minus the orders with `p`'s id is the queue minus `p`. -/
theorem perm_removeOrder (hw : Wf B) {s : Side} {l : PriceLevelImpl} {p : Ptr}
    (hl : ∀ x ∈ l.orders, x ∈ queued (B.levels s)) (hp : p ∈ l.orders) (hnd : l.orders.Nodup) :
    l.orders.Perm (p :: (l.removeOrder B.heap (B.heap p).orderId).2.orders) := by
  refine (List.perm_cons_erase hp).trans (List.Perm.cons _ ?_)
  rw [hnd.erase_eq_filter, PriceLevelImpl.removeOrder_eq]
  refine List.Perm.of_eq (List.filter_congr fun x hx => ?_)
  have := fun h => hw.eq_of_orderId (hw.mem_of_queued (hl x hx)) (hw.mem_of_queued (hl p hp)) h
  by_cases hxp : x = p <;> simp_all

/-- The level a side holds at a price: its queue is part of the side's and has no repeats. -/
theorem level_of_lookup (hw : Wf B) {s : Side} {pr : Int} {l : PriceLevelImpl}
    (hl : lookup (B.levels s) pr = some l) :
    (∀ x ∈ l.orders, x ∈ queued (B.levels s)) ∧ l.orders.Nodup := by
  have hlm := (lookup_eq_some (hw.side s).sorted.nodup).mp hl
  have hqm := queued_perm_levelOrders (hw.side s).sorted pr
  rw [show levelOrders (B.levels s) pr = l.orders by simp [levelOrders, hl]] at hqm
  exact ⟨fun x hx => List.mem_flatMap.mpr ⟨_, hlm, hx⟩,
    (hqm.nodup_iff.mp (List.nodup_append.mp ((allQueued_perm B s).nodup_iff.mp hw.nodup)).1).of_append_left⟩

theorem cancelOrder (hw : Wf B) (orderId : UInt64) : Wf (B.cancelOrder orderId).2 := by
  cases hk : lookup B.orderMap orderId with
  | none => rw [cancelOrder_of_lookup_none hk]; exact hw
  | some p =>
    obtain ⟨hpq, rfl, l, hl, hpl⟩ := hw.locate hk
    rw [cancelOrder_of_lookup_some hk hl]
    set s := (B.heap p).side
    set pr := (B.heap p).price
    set l' := (l.removeOrder B.heap (B.heap p).orderId).2
    have hsw := hw.side s
    have hlm := (lookup_eq_some hsw.sorted.nodup).mp hl
    obtain ⟨hlq, hnd⟩ := hw.level_of_lookup hl
    have hqm := queued_perm_levelOrders hsw.sorted pr
    rw [show levelOrders (B.levels s) pr = l.orders by simp [levelOrders, hl]] at hqm
    have hl' := hw.perm_removeOrder hlq hpl hnd
    set M' := if l'.empty then Core.eraseKey (B.levels s) pr
      else PriceMap.insert s.before pr l' (B.levels s)
    have hM' : (queued M').Perm (l'.orders ++ queued (Core.eraseKey (B.levels s) pr)) := by
      by_cases he : l'.empty
      · simp [M', he, (PriceLevelImpl.empty_iff _).mp he]
      · simpa [M', he] using queued_insert_perm hsw.sorted pr l'
    refine hw.remove (p := p) ?_ (fun _ _ => by simp) (by simp) (by simp) fun t => ?_
    · refine (allQueued_perm B s).trans ((((hqm.trans (hl'.append_right _)).trans
        (List.Perm.cons _ hM'.symm)).append_right _).trans ?_)
      refine List.Perm.cons _ (List.Perm.symm ?_)
      simpa using allQueued_setLevels_perm { B with orderMap := eraseKey B.orderMap (B.heap p).orderId }
        s M'
    · have hsub : ∀ x ∈ l'.orders, x ∈ l.orders := fun x hx => by
        simp only [l', PriceLevelImpl.removeOrder_eq] at hx
        exact List.mem_of_mem_filter hx
      rcases Side.eq_or_eq_opposite t s with rfl | rfl
      · simp only [levels_setLevels, setLevels_heap]
        by_cases he : l'.empty
        · simpa [M', he] using hsw.eraseKey pr
        · simpa [M', he] using hsw.insert (v := l')
            (by simpa [l', PriceLevelImpl.removeOrder_eq] using (hsw.level _ hlm).1)
            (by simpa using he) fun x hx => hsw.order _ hlm x (hsub x hx)
      · simpa using hw.side _

/-- The matching loop keeps the invariant; the incoming order keeps all but its quantity and
the index only loses ids. -/
theorem matchLoop (hw : Wf B) (passive : Side) (noCross : Int → Int → Bool) (fuel : Nat)
    (o : Order) (ts : List Trade) :
    let st := Core.OrderBookImpl.matchLoop passive noCross fuel (B, o, ts)
    Wf st.1 ∧ st.2.1.orderId = o.orderId ∧ st.2.1.price = o.price ∧ st.2.1.side = o.side ∧
      (keys st.1.orderMap).Sublist (keys B.orderMap) := by
  refine matchLoop_induction (fun st => Wf st.1 ∧ st.2.1.orderId = o.orderId ∧
    st.2.1.price = o.price ∧ st.2.1.side = o.side ∧ (keys st.1.orderMap).Sublist (keys B.orderMap))
    ?_ fuel (B, o, ts) ⟨hw, rfl, rfl, rfl, List.Sublist.refl _⟩
  rintro ⟨B₁, o₁, ts₁⟩ st' ⟨hw₁, h1, h2, h3, h4⟩ hs
  obtain ⟨f1, f2, f3, -, -, -, f7⟩ := matchStep_frame hs
  exact ⟨hw₁.matchStep hs, f1.trans h1, f2.trans h2, f3.trans h3, f7.trans h4⟩

theorem addOrder (hw : Wf B) (order : Order) : Wf (B.addOrder order).2 := by
  rw [addOrder_eq]
  split_ifs with hbad hdup
  · exact hw
  · exact hw
  obtain ⟨hw', hid, hpr, -, hsub⟩ := hw.matchLoop order.side.opposite order.side.noCross
    (B.sweepBound order.side.opposite) order []
  dsimp only
  split_ifs with hq
  · refine hw'.addToBook hq ?_ ?_
    · rw [hpr]; simp only [not_or, not_le] at hbad; exact hbad.2
    · rw [hid]
      exact fun h => (lookup_isSome.not.mp hdup) (hsub.subset h)
  · exact hw'

theorem modifyOrder (hw : Wf B) (orderId : UInt64) (newPrice : Int) (newQuantity : UInt32)
    (now : UInt64) : Wf (B.modifyOrder orderId newPrice newQuantity now).2 := by
  have hc := hw.cancelOrder orderId
  unfold OrderBookImpl.modifyOrder
  split
  · exact hw
  · rcases hB : B.cancelOrder orderId with ⟨c, B₁⟩
    rw [hB] at hc
    cases c
    · exact hc
    · exact hc.addOrder _

theorem clear (B : OrderBookImpl) : Wf B.clear where
  side s := by simp only [levels_clear]; exact ⟨List.Pairwise.nil, by simp, by simp⟩
  nodup := by simp [allQueued]
  allocated := by simp [allQueued]
  keysNodup := by simp [OrderBookImpl.clear]
  indexed := by simp [OrderBookImpl.clear, allQueued, levels]

/-- The addresses `order_map_` holds are the queued ones, each once. -/
theorem orderMap_perm (hw : Wf B) : (B.orderMap.map Prod.snd).Perm (allQueued B) := by
  have hnd : (B.orderMap.map Prod.snd).Nodup := by
    refine List.Nodup.map_on (fun x hx y hy hxy => ?_) (hw.keysNodup.of_map _)
    have h1 := ((hw.indexed x.1 x.2).mp hx).2
    have h2 := ((hw.indexed y.1 y.2).mp hy).2
    exact Prod.ext (h1.symm.trans (hxy ▸ h2)) hxy
  refine (List.perm_ext_iff_of_nodup hnd hw.nodup).mpr fun x => ?_
  simp only [List.mem_map, Prod.exists, exists_and_right, exists_eq_right]
  exact ⟨fun ⟨k, hk⟩ => ((hw.indexed k x).mp hk).1, fun hx => ⟨_, (hw.indexed _ x).mpr ⟨hx, rfl⟩⟩⟩

/-- `order_map_.size()` is the number of queued orders. -/
theorem totalOrders_eq (hw : Wf B) : B.totalOrders = (allQueued B).length := by
  simpa [totalOrders] using hw.orderMap_perm.length_eq

end Wf

theorem wf_createOrderBook (symbolId : UInt64) : Wf (createOrderBook symbolId) where
  side s := by simp only [levels_create]; exact ⟨List.Pairwise.nil, by simp, by simp⟩
  nodup := by simp [allQueued]
  allocated := by simp [allQueued]
  keysNodup := by simp [createOrderBook]
  indexed := by simp [createOrderBook, allQueued, levels]

theorem Reachable.wf {B : OrderBookImpl} (h : Reachable B) : Wf B := by
  induction h with
  | create symbolId => exact wf_createOrderBook symbolId
  | addOrder order _ ih => exact ih.addOrder order
  | cancelOrder orderId _ ih => exact ih.cancelOrder orderId
  | modifyOrder orderId newPrice newQuantity now _ ih => exact ih.modifyOrder _ _ _ _
  | clear _ _ => exact Wf.clear _

/-- In every reachable book, levels are non-empty and hold live orders of their side at their key,
each queued once, and `order_map_` indexes exactly the queued orders by id. So `total_orders()`
counts the queued orders and no matching turn finds an empty level. -/
theorem reachable_representation {B : OrderBookImpl} (h : Reachable B) :
    Wf B ∧ (∀ k p, lookup B.orderMap k = some p ↔ p ∈ allQueued B ∧ (B.heap p).orderId = k) ∧
      B.totalOrders = (allQueued B).length ∧
      ∀ s, ∀ e ∈ B.levels s, e.2.peekFront.isSome := by
  have hw := h.wf
  refine ⟨hw, fun k p => (lookup_eq_some hw.keysNodup).trans (hw.indexed k p), hw.totalOrders_eq,
    fun s e he => ?_⟩
  simpa [PriceLevelImpl.peekFront, List.head?_eq_none_iff] using ((hw.side s).level e he).2

/-- The invariant after a bid partly fills a resting offer. -/
theorem representation_after_partial_fill :
    let B := (((createOrderBook 1).addOrder ⟨1, 1, 100, 10, 0, .SELL⟩).2.addOrder
      ⟨2, 1, 100, 4, 0, .BUY⟩).2
    Wf B ∧ (∀ k p, lookup B.orderMap k = some p ↔ p ∈ allQueued B ∧ (B.heap p).orderId = k) ∧
      B.totalOrders = (allQueued B).length ∧ ∀ s, ∀ e ∈ B.levels s, e.2.peekFront.isSome :=
  reachable_representation (.addOrder _ (.addOrder _ (.create 1)))

end Micromatch.Proofs
