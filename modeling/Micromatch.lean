import Micromatch.Core.Order
import Micromatch.Core.PriceLevel
import Micromatch.Core.Maps
import Micromatch.Core.OrderBook
import Micromatch.Proofs.Step
import Micromatch.Proofs.Invariant
import Micromatch.Proofs.Spread
import Micromatch.Proofs.Volume
import Micromatch.Proofs.RoundTrip
import Micromatch.Spec.PriceTime
import Micromatch.Proofs.TradeIds
import Micromatch.Proofs.Refinement
import Micromatch.Core.Engine
import Micromatch.Proofs.Engine
import Micromatch.Proofs.BookCalls
import Micromatch.Utils.MPMCQueue
import Micromatch.Spec.Queue
import Micromatch.Proofs.MPMCQueue
import Micromatch.Utils.SPSCQueue
import Micromatch.Utils.SPSCThreads
import Micromatch.Core.EngineThreads
import Micromatch.Utils.MPMCThreads
import Micromatch.Proofs.MPMCThreads
import Micromatch.Proofs.MPMCSafety
import Micromatch.Proofs.MPMCWrap
import Micromatch.Network.MarketData
import Micromatch.Network.FeedSimulator
import Micromatch.Proofs.FeedSimulator
import Micromatch.Network.Arbitrage
import Micromatch.Proofs.Arbitrage
import Micromatch.Proofs.SPSCThreads
import Micromatch.Proofs.EngineDelivery
import Micromatch.Proofs.Fills
import Micromatch.Proofs.Modify
import Micromatch.Proofs.EngineBooks
import Micromatch.Network.FeedThreads
import Micromatch.Network.FeedHandler
import Micromatch.Proofs.FeedPipeline
