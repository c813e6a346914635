import Micromatch.Network.FeedSimulator

namespace Micromatch.Proofs
open Micromatch.Network FeedWorker

/-- The update a turn delivers, if it delivers one. -/
def WorkerInput.kept? : WorkerInput → Option MarketDataUpdate
  | .update update false _ => some update
  | _ => none

/-- Whether a turn drops its update. -/
def WorkerInput.dropped : WorkerInput → Bool
  | .update _ drop _ => drop
  | .idle => false

/-- The updates a run delivers, in order. -/
def keptUpdates (inputs : List WorkerInput) : List MarketDataUpdate :=
  inputs.filterMap WorkerInput.kept?

/-- How many updates a run drops. -/
def droppedCount (inputs : List WorkerInput) : Nat := (inputs.filter WorkerInput.dropped).length

/-- Every clock reading of the run is past the clock's epoch. -/
def ClockPositive (inputs : List WorkerInput) : Prop :=
  ∀ update drop now, WorkerInput.update update drop now ∈ inputs → 0 < now

@[simp] theorem recordArrival_messagesReceived (stats : FeedStats) (now : Int) :
    (recordArrival stats now).messagesReceived =
      stats.messagesReceived + if stats.lastUpdate > 0 then 1 else 0 := by
  unfold recordArrival
  dsimp only
  split_ifs <;> simp

@[simp] theorem recordArrival_messagesDropped (stats : FeedStats) (now : Int) :
    (recordArrival stats now).messagesDropped = stats.messagesDropped := by
  unfold recordArrival
  dsimp only
  split_ifs <;> rfl

@[simp] theorem recordArrival_lastUpdate (stats : FeedStats) (now : Int) :
    (recordArrival stats now).lastUpdate = now := rfl

@[simp] theorem turn_idle (W : FeedWorker) : W.turn .idle = W := rfl

@[simp] theorem turn_drop (W : FeedWorker) (update : MarketDataUpdate) (now : Int) :
    W.turn (.update update true now) =
      { W with stats := { W.stats with messagesDropped := W.stats.messagesDropped + 1 } } := rfl

@[simp] theorem turn_keep (W : FeedWorker) (update : MarketDataUpdate) (now : Int) :
    W.turn (.update update false now) =
      { W with
        stats := recordArrival W.stats now
        deliveries := if W.callback then W.deliveries ++ [(update, recordArrival W.stats now)]
          else W.deliveries } := by
  cases hc : W.callback <;> simp [turn, hc]

theorem run_cons (W : FeedWorker) (input : WorkerInput) (inputs : List WorkerInput) :
    W.run (input :: inputs) = (W.turn input).run inputs := rfl

@[simp] theorem run_callback (W : FeedWorker) (inputs : List WorkerInput) :
    (W.run inputs).callback = W.callback := by
  induction inputs generalizing W with
  | nil => rfl
  | cons input inputs ih =>
    rw [run_cons, ih]
    rcases input with _ | ⟨update, _ | _, now⟩ <;> simp

/-- The callback gets exactly the updates not dropped, in order, if it is set. -/
theorem run_deliveries (W : FeedWorker) (inputs : List WorkerInput) :
    (W.run inputs).deliveries.map Prod.fst =
      W.deliveries.map Prod.fst ++ if W.callback then keptUpdates inputs else [] := by
  induction inputs generalizing W with
  | nil => simp [run, keptUpdates]
  | cons input inputs ih =>
    rw [run_cons, ih]
    rcases input with _ | ⟨update, _ | _, now⟩ <;> cases hc : W.callback <;>
      simp [hc, keptUpdates, WorkerInput.kept?]

/-- `messages_dropped` counts the dropped updates. -/
theorem run_messagesDropped (W : FeedWorker) (inputs : List WorkerInput) :
    (W.run inputs).stats.messagesDropped =
      W.stats.messagesDropped + UInt64.ofNat (droppedCount inputs) := by
  induction inputs generalizing W with
  | nil => simp [run, droppedCount]
  | cons input inputs ih =>
    rw [run_cons, ih]
    rcases input with _ | ⟨update, _ | _, now⟩
    · rfl
    · simp [droppedCount, WorkerInput.dropped]
    · simp [droppedCount, WorkerInput.dropped, UInt64.ofNat_succ, add_assoc, add_comm]

/-- `messages_received` counts the updates delivered, but for the first one when the run
starts at the clock's epoch. -/
theorem run_messagesReceived (W : FeedWorker) (inputs : List WorkerInput)
    (hclock : ClockPositive inputs) :
    (W.run inputs).stats.messagesReceived +
        (if W.stats.lastUpdate > 0 ∨ keptUpdates inputs = [] then 0 else 1) =
      W.stats.messagesReceived + UInt64.ofNat (keptUpdates inputs).length := by
  induction inputs generalizing W with
  | nil => simp [run, keptUpdates]
  | cons input inputs ih =>
    have htail : ClockPositive inputs := fun u d now h => hclock u d now (List.mem_cons_of_mem _ h)
    rw [run_cons]
    rcases input with _ | ⟨update, _ | _, now⟩
    · exact ih W htail
    · have hnow : 0 < now := hclock update false now (List.mem_cons_self _ _)
      have h := ih (W.turn (.update update false now)) htail
      simp only [turn_keep, recordArrival_lastUpdate, recordArrival_messagesReceived, hnow,
        true_or, if_true, add_zero] at h
      simp only [turn_keep, keptUpdates, List.filterMap_cons, WorkerInput.kept?, List.length_cons,
        reduceCtorEq, or_false, UInt64.ofNat_succ] at h ⊢
      rw [h]
      split_ifs <;> simp only [add_zero, zero_add, add_assoc, add_comm, add_left_comm]
    · exact ih _ htail

/-- Along runs of `worker_loop` with clock readings past the epoch, the callback gets each update
not dropped once, in order, and `messages_dropped` counts the others. But `messages_received` is one
short once there is a delivery: the first finds `last_update` at the epoch and skips
`update_latency`. -/
theorem worker_first_delivery_uncounted (callback : Bool) (inputs : List WorkerInput)
    (hclock : ClockPositive inputs) :
    let W := (FeedWorker.create callback).run inputs
    W.deliveries.map Prod.fst = (if callback then keptUpdates inputs else []) ∧
      W.stats.messagesDropped = UInt64.ofNat (droppedCount inputs) ∧
      W.stats.messagesReceived = UInt64.ofNat ((keptUpdates inputs).length - 1) := by
  refine ⟨by simpa [create] using run_deliveries (create callback) inputs,
    by simpa [create, FeedStats.initial] using run_messagesDropped (create callback) inputs, ?_⟩
  have h := run_messagesReceived (create callback) inputs hclock
  simp only [create, FeedStats.initial, lt_irrefl, false_or, zero_add] at h
  cases hk : keptUpdates inputs with
  | nil => simpa [hk] using h
  | cons u us =>
    simp only [hk, reduceCtorEq, if_false, List.length_cons, UInt64.ofNat_succ] at h
    simpa using add_right_cancel h

/-- One quote, not dropped, delivered at clock reading 5: the callback gets it, and the
counters stay at zero. -/
theorem one_delivery_zero_received :
    let inputs := [WorkerInput.update (.quote default) false 5]
    keptUpdates inputs = [.quote default] ∧ ClockPositive inputs ∧
      let W := (FeedWorker.create true).run inputs
      W.deliveries.map Prod.fst = (if true then keptUpdates inputs else []) ∧
        W.stats.messagesDropped = UInt64.ofNat (droppedCount inputs) ∧
        W.stats.messagesReceived = UInt64.ofNat ((keptUpdates inputs).length - 1) :=
  have hclock : ClockPositive [WorkerInput.update (.quote default) false 5] := by
    intro _ _ now h
    rw [List.mem_singleton, WorkerInput.update.injEq] at h
    rw [h.2.2]
    decide
  ⟨rfl, hclock, worker_first_delivery_uncounted true _ hclock⟩

end Micromatch.Proofs
