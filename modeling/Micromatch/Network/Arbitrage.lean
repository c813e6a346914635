import Micromatch.Network.MarketData
import Micromatch.Core.Maps

namespace Micromatch.Network
open Micromatch.Core

/-- `struct ArbitrageOpportunity`. -/
structure ArbitrageOpportunity where
  symbolId : UInt64
  fastFeed : Char
  slowFeed : Char
  priceDifference : Int
  latencyDifferenceNs : UInt64
  timestampNs : UInt64
  feedABid : Int
  feedAAsk : Int
  feedBBid : Int
  feedBAsk : Int
  deriving DecidableEq, Repr

namespace ArbitrageOpportunity

/-- `profit_basis_points()`, in `double`: the spread of a cross over the price bought at. -/
def profitBasisPoints (opp : ArbitrageOpportunity) : Float :=
  if opp.feedAAsk > 0 ∧ opp.feedBBid > 0 ∧ opp.feedBBid > opp.feedAAsk then
    Float.ofInt (int64Sub opp.feedBBid opp.feedAAsk) / Float.ofInt opp.feedAAsk * 10000
  else if opp.feedBAsk > 0 ∧ opp.feedABid > 0 ∧ opp.feedABid > opp.feedBAsk then
    Float.ofInt (int64Sub opp.feedABid opp.feedBAsk) / Float.ofInt opp.feedBAsk * 10000
  else 0.0

def isProfitable (opp : ArbitrageOpportunity) : Bool := opp.profitBasisPoints > 0.0

end ArbitrageOpportunity

/-- `struct ArbitrageStats`. -/
structure ArbitrageStats where
  opportunitiesDetected : UInt64
  profitableOpportunities : UInt64
  missedOpportunities : UInt64
  totalProfitBps : Float
  maxLatencyDiffNs : UInt64
  totalLatencyDiffNs : UInt64

/-- `record_opportunity`. The profit test touches only the two profit fields. -/
def ArbitrageStats.recordOpportunity (stats : ArbitrageStats) (opp : ArbitrageOpportunity) :
    ArbitrageStats :=
  { stats with
    opportunitiesDetected := stats.opportunitiesDetected + 1
    profitableOpportunities :=
      if opp.isProfitable then stats.profitableOpportunities + 1 else stats.profitableOpportunities
    totalProfitBps :=
      if opp.isProfitable then stats.totalProfitBps + opp.profitBasisPoints else stats.totalProfitBps
    maxLatencyDiffNs := max stats.maxLatencyDiffNs opp.latencyDifferenceNs
    totalLatencyDiffNs := stats.totalLatencyDiffNs + opp.latencyDifferenceNs }

/-- `struct SymbolState`: the latest quote of feed A and of feed B, and whether each came. -/
structure SymbolState where
  feedAQuote : Quote
  feedBQuote : Quote
  hasFeedA : Bool
  hasFeedB : Bool
  deriving DecidableEq, Repr

namespace SymbolState

/-- The state `operator[]` makes for a new symbol. -/
def empty : SymbolState := ⟨default, default, false, false⟩

/-- `update_quote`: any feed other than `A` is feed B. -/
def updateQuote (state : SymbolState) (feedId : Char) (quote : Quote) : SymbolState :=
  if feedId = 'A' then { state with feedAQuote := quote, hasFeedA := true }
  else { state with feedBQuote := quote, hasFeedB := true }

def hasBothFeeds (state : SymbolState) : Bool := state.hasFeedA && state.hasFeedB

end SymbolState

/-- The opportunity `check_arbitrage` records from the latest quotes of a symbol, if any,
stamped with the clock reading `now`. -/
def opportunity (symbolId : UInt64) (state : SymbolState) (now : UInt64) :
    Option ArbitrageOpportunity :=
  let a := state.feedAQuote
  let b := state.feedBQuote
  let hasOpportunity :=
    decide (a.askPrice > 0 ∧ b.bidPrice > 0 ∧ b.bidPrice > a.askPrice) ||
      decide (b.askPrice > 0 ∧ a.bidPrice > 0 ∧ a.bidPrice > b.askPrice)
  let bidDiff := int64Abs (int64Sub a.bidPrice b.bidPrice)
  let askDiff := int64Abs (int64Sub a.askPrice b.askPrice)
  if bidDiff > 0 ∨ askDiff > 0 ∨ hasOpportunity then
    let (fastFeed, slowFeed, latencyDifferenceNs) :=
      if a.timestampNs < b.timestampNs then ('A', 'B', b.timestampNs - a.timestampNs)
      else ('B', 'A', a.timestampNs - b.timestampNs)
    some ⟨symbolId, fastFeed, slowFeed, max bidDiff askDiff, latencyDifferenceNs, now,
      a.bidPrice, a.askPrice, b.bidPrice, b.askPrice⟩
  else none

/-- `push_back`, then erase the oldest once there are more than 1000. -/
def pushRecent (recent : List ArbitrageOpportunity) (opp : ArbitrageOpportunity) :
    List ArbitrageOpportunity :=
  let recent := recent ++ [opp]
  if recent.length > 1000 then recent.tail else recent

/-- `class ArbitrageDetector`: its maps, `recent_opportunities_`, `stats_`, whether `callback_`
is set, and the calls of the callback so far. -/
structure ArbitrageDetector where
  symbolStates : List (UInt64 × SymbolState)
  tradeTimestamps : List (UInt64 × List (Char × UInt64))
  recentOpportunities : List ArbitrageOpportunity
  stats : ArbitrageStats
  callback : Bool
  callbackCalls : List ArbitrageOpportunity

namespace ArbitrageDetector

/-- `ArbitrageDetector() = default`. -/
def create : ArbitrageDetector := ⟨[], [], [], ⟨0, 0, 0, 0.0, 0, 0⟩, false, []⟩

/-- `set_callback`. -/
def setCallback (D : ArbitrageDetector) : ArbitrageDetector := { D with callback := true }

/-- What `check_arbitrage` does with an opportunity it found: `record_opportunity`, the buffer,
the callback. -/
def record (D : ArbitrageDetector) (opp : ArbitrageOpportunity) : ArbitrageDetector :=
  { D with
    stats := D.stats.recordOpportunity opp
    recentOpportunities := pushRecent D.recentOpportunities opp
    callbackCalls := if D.callback then D.callbackCalls ++ [opp] else D.callbackCalls }

/-- `check_arbitrage`; it also returns the opportunity it records, if any. -/
def checkArbitrage (D : ArbitrageDetector) (symbolId : UInt64) (state : SymbolState)
    (now : UInt64) : Option ArbitrageOpportunity × ArbitrageDetector :=
  let found := opportunity symbolId state now
  (found, found.elim D D.record)

/-- `process_quote`. -/
def processQuote (D : ArbitrageDetector) (feedId : Char) (quote : Quote) (now : UInt64) :
    Option ArbitrageOpportunity × ArbitrageDetector :=
  let state := ((lookup D.symbolStates quote.symbolId).getD .empty).updateQuote feedId quote
  let D := { D with symbolStates := assign D.symbolStates quote.symbolId state }
  if state.hasBothFeeds then D.checkArbitrage quote.symbolId state now else (none, D)

/-- The `uint64_t` distance `process_trade` computes between two trade timestamps:
`std::abs(static_cast<int64_t>(a - b))`. -/
def tradeGap (a b : UInt64) : UInt64 := uint64OfInt64 (int64Abs (int64OfUInt64 (a - b)))

/-- `process_trade`. -/
def processTrade (D : ArbitrageDetector) (feedId : Char) (trade : TradeTick) :
    ArbitrageDetector :=
  let times := assign ((lookup D.tradeTimestamps trade.symbolId).getD []) feedId trade.timestampNs
  let D := { D with tradeTimestamps := assign D.tradeTimestamps trade.symbolId times }
  match lookup times 'A', lookup times 'B' with
  | some a, some b =>
    if tradeGap a b > 1000000 then
      { D with stats := { D.stats with missedOpportunities := D.stats.missedOpportunities + 1 } }
    else D
  | _, _ => D

/-- `on_feed_update`, with the clock reading `now` a recorded opportunity is stamped with;
it also returns the opportunity recorded, if any. -/
def onFeedUpdate (D : ArbitrageDetector) (feedId : Char) (update : MarketDataUpdate)
    (now : UInt64) : Option ArbitrageOpportunity × ArbitrageDetector :=
  match update with
  | .quote quote => D.processQuote feedId quote now
  | .trade trade => (none, D.processTrade feedId trade)

/-- `get_recent_opportunities(count)`. -/
def getRecentOpportunities (D : ArbitrageDetector) (count : Nat) : List ArbitrageOpportunity :=
  let start := if D.recentOpportunities.length > count then D.recentOpportunities.length - count
    else 0
  D.recentOpportunities.drop start

/-- A run of `on_feed_update` calls, with the opportunities recorded, oldest first. -/
def runUpdates (D : ArbitrageDetector) :
    List (Char × MarketDataUpdate × UInt64) → List ArbitrageOpportunity × ArbitrageDetector
  | [] => ([], D)
  | (feedId, update, now) :: calls =>
    let (opp, D) := D.onFeedUpdate feedId update now
    let (H, D) := D.runUpdates calls
    (opp.toList ++ H, D)

end ArbitrageDetector

end Micromatch.Network
