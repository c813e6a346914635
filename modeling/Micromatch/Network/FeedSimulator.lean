import Micromatch.Network.MarketData

namespace Micromatch.Network

/-- What the worker keeps: `stats_`, whether `callback_` is set, and the calls of the callback
so far, each with the update and the statistics it was passed. -/
structure FeedWorker where
  stats : FeedStats
  callback : Bool
  deliveries : List (MarketDataUpdate × FeedStats)

/-- One turn of the `while (running_)` loop. -/
inductive WorkerInput where
  /-- `dequeue` returned `nullopt`: the worker sleeps. -/
  | idle
  /-- `dequeue` returned `update`; `drop` is `should_drop_packet()` and `now` the clock. -/
  | update (update : MarketDataUpdate) (drop : Bool) (now : Int)

namespace FeedWorker

/-- A worker before its first turn. -/
def create (callback : Bool) : FeedWorker := ⟨FeedStats.initial, callback, []⟩

/-- Record a delivered update's arrival: the latency since the last arrival is counted only
when `last_update` is past the clock's epoch, then a jitter event if the latency exceeds ten
times the running average after 100 messages; `last_update` moves to `now`. -/
def recordArrival (stats : FeedStats) (now : Int) : FeedStats :=
  let stats :=
    if stats.lastUpdate > 0 then
      let latencyNs := int64Sub now stats.lastUpdate
      let stats := stats.updateLatency (uint64OfInt64 latencyNs)
      if stats.messagesReceived > 100 ∧ Float.ofInt latencyNs > stats.averageLatencyUs * 10000 then
        { stats with jitterEvents := stats.jitterEvents + 1 }
      else stats
    else stats
  { stats with lastUpdate := now }

/-- One turn of `worker_loop`. -/
def turn (W : FeedWorker) : WorkerInput → FeedWorker
  | .idle => W
  | .update update drop now =>
    if drop then
      { W with stats := { W.stats with messagesDropped := W.stats.messagesDropped + 1 } }
    else
      let stats := recordArrival W.stats now
      if W.callback then { W with stats := stats, deliveries := W.deliveries ++ [(update, stats)] }
      else { W with stats := stats }

/-- The worker's turns in order. -/
def run (W : FeedWorker) (inputs : List WorkerInput) : FeedWorker := inputs.foldl turn W

end FeedWorker

end Micromatch.Network
