import Micromatch.Core.Order

namespace Micromatch.Network

/-- An `int64_t` result: the representative modulo `2^64` in `[-2^63, 2^63)`. -/
def int64Wrap (x : Int) : Int := x.bmod (2 ^ 64)

/-- `a - b` on `int64_t`. -/
def int64Sub (a b : Int) : Int := int64Wrap (a - b)

/-- `std::abs` on `int64_t`: the magnitude, but `INT64_MIN` is its own absolute value. -/
def int64Abs (x : Int) : Int := int64Wrap x.natAbs

/-- `static_cast<int64_t>` of a `uint64_t`. -/
def int64OfUInt64 (x : UInt64) : Int := int64Wrap x.toNat

/-- An `int64_t` converted to `uint64_t`. -/
def uint64OfInt64 (x : Int) : UInt64 := UInt64.ofNat (x % 2 ^ 64).toNat

/-- `struct Quote`: level-1 prices and sizes, the clock reading taken when it was made, the
sequence number its feed stamps, and the feed's id. -/
structure Quote where
  symbolId : UInt64
  bidPrice : Int
  askPrice : Int
  bidSize : UInt32
  askSize : UInt32
  timestampNs : UInt64
  sequenceNumber : UInt64
  feedId : Char
  deriving DecidableEq, Repr

/-- `Quote() = default`, value-initialized by `operator[]`: every field zero. -/
instance : Inhabited Quote := ⟨⟨0, 0, 0, 0, 0, 0, 0, Char.ofNat 0⟩⟩

/-- `struct TradeTick`. -/
structure TradeTick where
  symbolId : UInt64
  price : Int
  quantity : UInt32
  timestampNs : UInt64
  sequenceNumber : UInt64
  feedId : Char
  isBuySide : Bool
  deriving DecidableEq, Repr

/-- `struct MarketDataUpdate`: the `type` tag with the member of the union it selects. Its
constructors only make `QUOTE` and `TRADE` updates. -/
inductive MarketDataUpdate where
  | quote (quote : Quote)
  | trade (trade : TradeTick)
  deriving DecidableEq, Repr

/-- `struct FeedStats`. `last_update` is a `steady_clock::time_point`, here its count of
nanoseconds since the clock's epoch. -/
structure FeedStats where
  messagesReceived : UInt64
  messagesDropped : UInt64
  latencySumNs : UInt64
  latencyMinNs : UInt64
  latencyMaxNs : UInt64
  jitterEvents : UInt64
  lastUpdate : Int
  deriving DecidableEq, Repr

namespace FeedStats

/-- The member initializers: zero counters, `latency_min_ns = UINT64_MAX`, the clock's epoch. -/
def initial : FeedStats := ⟨0, 0, 0, UInt64.ofNat (2 ^ 64 - 1), 0, 0, 0⟩

/-- `update_latency`: the only place `messages_received` is counted. -/
def updateLatency (stats : FeedStats) (latencyNs : UInt64) : FeedStats :=
  { stats with
    latencySumNs := stats.latencySumNs + latencyNs
    latencyMinNs := min stats.latencyMinNs latencyNs
    latencyMaxNs := max stats.latencyMaxNs latencyNs
    messagesReceived := stats.messagesReceived + 1 }

/-- `average_latency_us()`, in `double`. -/
def averageLatencyUs (stats : FeedStats) : Float :=
  if stats.messagesReceived > 0 then
    stats.latencySumNs.toFloat / stats.messagesReceived.toFloat / 1000.0
  else 0.0

@[simp] theorem updateLatency_messagesReceived (stats : FeedStats) (latencyNs : UInt64) :
    (stats.updateLatency latencyNs).messagesReceived = stats.messagesReceived + 1 := rfl

@[simp] theorem updateLatency_messagesDropped (stats : FeedStats) (latencyNs : UInt64) :
    (stats.updateLatency latencyNs).messagesDropped = stats.messagesDropped := rfl

end FeedStats

end Micromatch.Network
