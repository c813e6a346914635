import Micromatch.Network.FeedHandler
import Micromatch.Network.FeedThreads
import Micromatch.Proofs.FeedSimulator
import Micromatch.Proofs.SPSCThreads

namespace Micromatch.Network

/-- The sequence number of the member the `type` tag selects. -/
def MarketDataUpdate.sequenceNumber : MarketDataUpdate → UInt64
  | .quote q => q.sequenceNumber
  | .trade t => t.sequenceNumber

end Micromatch.Network

namespace Micromatch.Utils.SpscSystem

variable {α : Type} [Inhabited α] {s s' : SpscSystem α}

/-- `new Node(value)` appends `value` to the values enqueued. -/
theorem next_startEnqueue_enqueued {v : α} (h : s.next (.startEnqueue v) = some s') :
    s'.enqueued = s.enqueued ++ [v] := by
  cases hp : s.producer <;> simp only [SpscSystem.next, hp, reduceCtorEq] at h
  cases h
  rfl

/-- No other step changes the values enqueued, and no step takes back a return. -/
theorem next_enqueued_returns {a : SpscAction α} (h : s.next a = some s') :
    ((∀ v, a ≠ .startEnqueue v) → s'.enqueued = s.enqueued) ∧ s.returns <+: s'.returns := by
  cases a with
  | startEnqueue v =>
    cases hp : s.producer <;> simp only [SpscSystem.next, hp, reduceCtorEq] at h
    cases h
    exact ⟨fun ha => absurd rfl (ha v), List.prefix_rfl⟩
  | startDequeue =>
    cases hc : s.consumer <;> simp only [SpscSystem.next, hc, reduceCtorEq] at h
    cases h
    exact ⟨fun _ => rfl, List.prefix_rfl⟩
  | stepProducer =>
    cases hp : s.producer <;> simp only [SpscSystem.next, producerStep, hp, reduceCtorEq] at h <;>
      cases h <;> exact ⟨fun _ => rfl, List.prefix_rfl⟩
  | stepConsumer =>
    cases hc : s.consumer <;> simp only [SpscSystem.next, consumerStep, SPSCQueue.dequeueStep, hc,
      reduceCtorEq] at h <;>
      repeat' (first | split at h | cases h)
    all_goals first
      | exact ⟨fun _ => rfl, List.prefix_rfl⟩
      | exact ⟨fun _ => rfl, List.prefix_append _ _⟩

end Micromatch.Utils.SpscSystem

namespace Micromatch.Proofs
open Micromatch.Network Micromatch.Utils FeedWorker

/-- The update a turn takes from the queue, dropped or not. -/
def WorkerInput.taken? : WorkerInput → Option MarketDataUpdate
  | .update update _ _ => some update
  | .idle => none

/-- The sequence numbers a feed stamps from `start` on, modulo `2^64`. -/
def stamps (start : UInt64) (n : Nat) : List UInt64 :=
  (List.range n).map fun i => start + UInt64.ofNat i

theorem stamps_succ (start : UInt64) (n : Nat) :
    stamps start (n + 1) = stamps start n ++ [start + UInt64.ofNat n] := by
  simp [stamps, List.range_succ]

theorem stamps_append (start : UInt64) (m n : Nat) :
    stamps start m ++ stamps (start + UInt64.ofNat m) n = stamps start (m + n) := by
  simp [stamps, List.range_add, UInt64.ofNat_add, add_assoc]

/-- While they do not wrap, the stamps from `start` are the numbers from `start.toNat` on. -/
theorem stamps_toNat {start : UInt64} {n : Nat} (h : start.toNat + n ≤ UInt64.size) :
    (stamps start n).map UInt64.toNat = (List.range n).map (start.toNat + ·) := by
  simp only [stamps, List.map_map]
  refine List.map_congr_left fun i hi => ?_
  have hi := List.mem_range.mp hi
  simp only [Function.comp, UInt64.toNat_add_mod, UInt64.toNat_ofNat_mod]
  rw [Nat.mod_eq_of_lt (by omega : i < UInt64.size), Nat.mod_eq_of_lt (by omega)]

/-- What every interleaving keeps: the queue is one that `SpscSystem` reaches, each update
enqueued carries the stamp of its place, and the worker is a run of `worker_loop` over the
results of the `dequeue` calls it has acted on. -/
structure FeedInv (start : UInt64) (callback : Bool) (s : FeedThreads) : Prop where
  reachable : s.pending.Reachable
  sequenceNumber : s.sequenceNumber = start + UInt64.ofNat s.pending.enqueued.length
  stamped : s.pending.enqueued.map MarketDataUpdate.sequenceNumber =
    stamps start s.pending.enqueued.length
  handled_le : s.handled ≤ s.pending.returns.length
  worker : ∃ inputs, s.worker = (FeedWorker.create callback).run inputs ∧
    inputs.filterMap WorkerInput.taken? = (s.pending.returns.take s.handled).filterMap Prod.fst

namespace FeedInv

variable {start : UInt64} {callback : Bool} {s s' : FeedThreads}

theorem create (feedId : Char) : FeedInv start callback (FeedThreads.create feedId start callback) :=
  ⟨.create, by simp [FeedThreads.create, SpscSystem.create], rfl, le_rfl, ⟨[], rfl, rfl⟩⟩

/-- A step of the queue alone, by either thread. -/
theorem of_pending (h : FeedInv start callback s) {a : SpscAction MarketDataUpdate}
    {pending : SpscSystem MarketDataUpdate} (hp : s.pending.next a = some pending)
    (ha : ∀ v, a ≠ .startEnqueue v) : FeedInv start callback { s with pending } := by
  obtain ⟨henq, hret⟩ := SpscSystem.next_enqueued_returns hp
  obtain ⟨t, ht⟩ := hret
  obtain ⟨inputs, hw, hin⟩ := h.worker
  refine ⟨h.reachable.next a hp, by simpa [henq ha] using h.sequenceNumber,
    by simpa [henq ha] using h.stamped, ?_, inputs, hw, ?_⟩
  · simpa [← ht] using Nat.le_add_right_of_le h.handled_le
  · simpa [← ht, List.take_append_of_le_length h.handled_le] using hin

/-- A publish call stamps the update with the next number and starts its `enqueue`. -/
theorem publish (h : FeedInv start callback s) {u : MarketDataUpdate}
    (hs : s.publish u = some s') (hu : u.sequenceNumber = s.sequenceNumber) :
    FeedInv start callback s' := by
  obtain ⟨pending, hp, rfl⟩ := Option.map_eq_some'.mp hs
  have henq := SpscSystem.next_startEnqueue_enqueued hp
  have hret : pending.returns = s.pending.returns := by
    cases hpr : s.pending.producer <;> simp only [SpscSystem.next, hpr, reduceCtorEq] at hp
    cases hp
    rfl
  obtain ⟨inputs, hw, hin⟩ := h.worker
  refine ⟨h.reachable.next _ hp, ?_, ?_, by simpa [hret] using h.handled_le, inputs, hw,
    by simpa [hret] using hin⟩
  · simp only [henq, List.length_append, List.length_singleton, UInt64.ofNat_succ, h.sequenceNumber,
      add_assoc]
  · rw [henq, List.map_append, h.stamped, List.length_append, List.length_singleton, stamps_succ,
      List.map_singleton, hu, h.sequenceNumber]

/-- The worker acts on the next result of its `dequeue` calls. -/
theorem handle (h : FeedInv start callback s) {result : Option MarketDataUpdate} {seen : Nat}
    (hr : s.pending.returns[s.handled]? = some (result, seen)) (drop : Bool) (now : Int) :
    FeedInv start callback { s with
      worker := s.worker.turn (FeedThreads.turnOf result drop now)
      handled := s.handled + 1 } := by
  obtain ⟨inputs, hw, hin⟩ := h.worker
  have hlt : s.handled < s.pending.returns.length := (List.getElem?_eq_some_iff.mp hr).1
  refine ⟨h.reachable, h.sequenceNumber, h.stamped, hlt, inputs ++ [FeedThreads.turnOf result drop now],
    by rw [hw, FeedWorker.run, FeedWorker.run, List.foldl_append]; rfl, ?_⟩
  show _ = (s.pending.returns.take (s.handled + 1)).filterMap Prod.fst
  rw [List.filterMap_append, hin, List.take_succ, hr, List.filterMap_append]
  cases result <;> rfl

theorem next (h : FeedInv start callback s) {a : FeedAction} (hs : s.next a = some s') :
    FeedInv start callback s' := by
  cases a with
  | publishQuote => exact h.publish hs rfl
  | publishTrade => exact h.publish hs rfl
  | stepPublisher =>
    obtain ⟨pending, hp, rfl⟩ := Option.map_eq_some'.mp hs
    exact h.of_pending hp fun _ => SpscAction.noConfusion
  | dequeue =>
    simp only [FeedThreads.next] at hs
    split_ifs at hs
    obtain ⟨pending, hp, rfl⟩ := Option.map_eq_some'.mp hs
    exact h.of_pending hp fun _ => SpscAction.noConfusion
  | stepWorker =>
    obtain ⟨pending, hp, rfl⟩ := Option.map_eq_some'.mp hs
    exact h.of_pending hp fun _ => SpscAction.noConfusion
  | handle drop now =>
    simp only [FeedThreads.next] at hs
    split at hs
    · cases hs
      exact h.handle ‹_› drop now
    · cases hs

theorem runActions (h : FeedInv start callback s) {as : List FeedAction}
    (hr : s.runActions as = some s') : FeedInv start callback s' := by
  induction as generalizing s with
  | nil => cases hr; exact h
  | cons a as ih =>
    obtain ⟨s₁, h₁, hr⟩ := Option.bind_eq_some.mp hr
    exact ih (h.next h₁) hr

end FeedInv

end Micromatch.Proofs

namespace Micromatch.Network
open Micromatch.Core

/-- The orders `process_feed_update` asks the engine for on an update of feed A, as symbol,
side, price and size: for a quote, its bid and then its ask, each if its price and size are
positive; none for a trade. -/
def MarketDataUpdate.quoteSides : MarketDataUpdate → List (UInt64 × Side × Int × UInt32)
  | .quote q =>
    (if q.bidPrice > 0 ∧ q.bidSize > 0 then [(q.symbolId, .BUY, q.bidPrice, q.bidSize)] else []) ++
      if q.askPrice > 0 ∧ q.askSize > 0 then [(q.symbolId, .SELL, q.askPrice, q.askSize)] else []
  | .trade _ => []

/-- The orders a call asks the engine for: those of its update if it comes from feed A. -/
def FeedCall.orderSides (call : FeedCall) : List (UInt64 × Side × Int × UInt32) :=
  if call.feedId = 'A' then call.update.quoteSides else []

/-- The `on_feed_update` call a handler call makes. -/
def FeedCall.detectorCall (call : FeedCall) : Char × MarketDataUpdate × UInt64 :=
  (call.feedId, call.update, call.now)

theorem FeedCall.pos_of_mem_orderSides {call : FeedCall} {x : UInt64 × Side × Int × UInt32}
    (h : x ∈ call.orderSides) : 0 < x.2.2.1 ∧ 0 < x.2.2.2 := by
  unfold FeedCall.orderSides at h
  split_ifs at h
  · cases hu : call.update <;> simp only [hu, MarketDataUpdate.quoteSides] at h
    · split_ifs at h <;> aesop
    · exact absurd h (List.not_mem_nil _)
  · exact absurd h (List.not_mem_nil _)

end Micromatch.Network

namespace Micromatch.Core

/-- An order's symbol, side, price and size. -/
def Order.terms (o : Order) : UInt64 × Side × Int × UInt32 := (o.symbolId, o.side, o.price, o.quantity)

end Micromatch.Core

namespace Micromatch.Proofs
open Micromatch.Core Micromatch.Network FeedHandler

/-- `H'` is `H` after submitting orders of the given terms, their ids drawn from `next_id` in
turn. -/
def Submits (H H' : FeedHandler) (terms : List (UInt64 × Side × Int × UInt32)) : Prop :=
  ∃ new : List Order, H'.submitted = H.submitted ++ new ∧ new.map Order.terms = terms ∧
    new.map Order.orderId = stamps H.nextId new.length ∧ H'.nextId = H.nextId + UInt64.ofNat new.length

namespace Submits

theorem refl (H : FeedHandler) : Submits H H [] := ⟨[], by simp, rfl, rfl, by simp [UInt64.ofNat_zero]⟩

theorem trans {H H' H'' : FeedHandler} {t₁ t₂ : List (UInt64 × Side × Int × UInt32)}
    (h₁ : Submits H H' t₁) (h₂ : Submits H' H'' t₂) : Submits H H'' (t₁ ++ t₂) := by
  obtain ⟨n₁, s₁, m₁, i₁, x₁⟩ := h₁
  obtain ⟨n₂, s₂, m₂, i₂, x₂⟩ := h₂
  refine ⟨n₁ ++ n₂, by rw [s₂, s₁, List.append_assoc], by rw [List.map_append, m₁, m₂], ?_, ?_⟩
  · rw [List.map_append, i₁, i₂, x₁, stamps_append, List.length_append]
  · rw [x₂, x₁, List.length_append, UInt64.ofNat_add, add_assoc]

theorem submitOrder (H : FeedHandler) (symbolId : UInt64) (side : Side) (price : Int)
    (quantity : UInt32) (timestampNs : UInt64) :
    Submits H (H.submitOrder symbolId side price quantity timestampNs)
      [(symbolId, side, price, quantity)] :=
  ⟨[⟨H.nextId, symbolId, price, quantity, timestampNs, side⟩], rfl, rfl,
    by simp [stamps, List.range_succ, UInt64.ofNat_zero], rfl⟩

theorem ite {H H' : FeedHandler} (c : Prop) [Decidable c] {t : UInt64 × Side × Int × UInt32}
    (h : Submits H H' [t]) : Submits H (if c then H' else H) (if c then [t] else []) := by
  split_ifs
  · exact h
  · exact refl H

end Submits

theorem processFeedUpdate_arbitrageDetector (H : FeedHandler) (call : FeedCall) :
    (H.processFeedUpdate call).arbitrageDetector =
      (H.arbitrageDetector.onFeedUpdate call.feedId call.update call.now).2 := by
  unfold processFeedUpdate
  split
  · split_ifs <;> rfl
  · rfl

/-- A call submits the orders it asks for. -/
theorem processFeedUpdate_submits (H : FeedHandler) (call : FeedCall) :
    Submits H (H.processFeedUpdate call) call.orderSides := by
  obtain ⟨feedId, update, now, bidTimestamp, askTimestamp⟩ := call
  change Submits { H with arbitrageDetector := (H.arbitrageDetector.onFeedUpdate feedId update now).2 }
    (H.processFeedUpdate _) (FeedCall.orderSides _)
  unfold processFeedUpdate FeedCall.orderSides
  dsimp only
  split
  · rw [if_pos rfl]
    exact Submits.trans (Submits.ite _ (Submits.submitOrder _ _ _ _ _ _))
      (Submits.ite _ (Submits.submitOrder _ _ _ _ _ _))
  · rename_i hnot
    split_ifs with hA
    · cases update with
      | quote q => exact absurd rfl (hnot q hA)
      | trade t => exact Submits.refl _
    · exact Submits.refl _

/-- A run gives the detector every update in the order of the calls, and submits the orders
the calls ask for, in that order. -/
theorem run_spec (H : FeedHandler) (calls : List FeedCall) :
    (H.run calls).arbitrageDetector =
        (H.arbitrageDetector.runUpdates (calls.map FeedCall.detectorCall)).2 ∧
      Submits H (H.run calls) (calls.flatMap FeedCall.orderSides) := by
  induction calls generalizing H with
  | nil => exact ⟨rfl, Submits.refl H⟩
  | cons call calls ih =>
    obtain ⟨hd, hs⟩ := ih (H.processFeedUpdate call)
    refine ⟨?_, List.flatMap_cons .. ▸ (processFeedUpdate_submits H call).trans hs⟩
    rw [run, List.foldl_cons, ← run, hd, processFeedUpdate_arbitrageDetector]
    rfl

/-- A run of `process_feed_update` calls on a new handler, with `generate_order_id`'s counter at
`nextId`, gives the detector every update in order and submits the bid and then the ask of each
positive feed-A quote, with ids consecutive from `nextId` modulo `2^64`. The orders have positive
prices and quantities, and while the ids do not wrap they increase from `nextId`. -/
theorem handler_orders_from_feed_a_quotes (nextId : UInt64) (calls : List FeedCall) :
    ((FeedHandler.create nextId).run calls).arbitrageDetector =
        (ArbitrageDetector.create.setCallback.runUpdates (calls.map FeedCall.detectorCall)).2 ∧
      ((FeedHandler.create nextId).run calls).submitted.map Order.terms =
        calls.flatMap FeedCall.orderSides ∧
      ((FeedHandler.create nextId).run calls).submitted.map Order.orderId =
        stamps nextId ((FeedHandler.create nextId).run calls).submitted.length ∧
      (∀ o ∈ ((FeedHandler.create nextId).run calls).submitted, 0 < o.price ∧ 0 < o.quantity) ∧
      (nextId.toNat + ((FeedHandler.create nextId).run calls).submitted.length ≤ UInt64.size →
        (((FeedHandler.create nextId).run calls).submitted.map fun o => o.orderId.toNat).Pairwise
            (· < ·) ∧
          ∀ o ∈ ((FeedHandler.create nextId).run calls).submitted, nextId.toNat ≤ o.orderId.toNat) := by
  obtain ⟨hd, new, hs, hterms, hids, -⟩ := run_spec (FeedHandler.create nextId) calls
  have hnew : ((FeedHandler.create nextId).run calls).submitted = new := hs
  rw [hnew]
  have hpos : ∀ o ∈ new, 0 < o.price ∧ 0 < o.quantity := fun o ho => by
    obtain ⟨call, -, hc⟩ := List.mem_flatMap.mp (hterms ▸ List.mem_map_of_mem Order.terms ho)
    exact FeedCall.pos_of_mem_orderSides hc
  refine ⟨hd, hterms, hids, hpos, fun hwrap => ?_⟩
  have hnat : (new.map fun o => o.orderId.toNat) = (List.range new.length).map (nextId.toNat + ·) := by
    have hids : new.map Order.orderId = stamps nextId new.length := hids
    have := congrArg (List.map UInt64.toNat) hids
    rwa [List.map_map, stamps_toNat hwrap] at this
  rw [hnat, List.pairwise_map]
  refine ⟨(List.pairwise_lt_range _).imp (Nat.add_lt_add_left · _), fun o ho => ?_⟩
  have hmem : o.orderId.toNat ∈ (List.range new.length).map (nextId.toNat + ·) :=
    hnat ▸ List.mem_map_of_mem (fun o : Order => o.orderId.toNat) ho
  obtain ⟨i, -, hi⟩ := List.mem_map.mp hmem
  omega

end Micromatch.Proofs
