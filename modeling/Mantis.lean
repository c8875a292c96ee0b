import Mantis.Lib.I64
import Mantis.Lib.Runs
import Mantis.Lib.Slots
import Mantis.Types
import Mantis.Strategy.OrderTracker
import Mantis.Strategy.OrderLifecycle
import Mantis.Strategy.Pnl
import Mantis.Strategy.Exposure
import Mantis.Registry.Registry
import Mantis.Lib.Spsc
import Mantis.Queue.Ring
import Mantis.Registry.ReverseIndex
import Mantis.Queue.RingEngine
import Mantis.Queue.CopyRing
import Mantis.Queue.CopyRingEngine
import Mantis.Events
import Mantis.MarketState.ArrayBook
import Mantis.MarketState.Engine
import Mantis.MarketState.Isolation
import Mantis.MarketState.Polling
import Mantis.Fixed.Parse
import Mantis.Polymarket.Decoder
import Mantis.Polymarket.Handoff
import Mantis.MarketState.PriceMap
import Mantis.MarketState.Snapshot
import Mantis.MarketState.Resync
import Mantis.Lib.Fifo
import Mantis.Queue.Sequential
import Mantis.Queue.CopySequential
import Mantis.SeqLock
import Mantis.Registry.Identity
import Mantis.Polymarket.Decode
import Mantis.Binance.Decoder
import Mantis.Binance.Mirror
import Mantis.Feed.Sequence
import Mantis.Polymarket.Loss
import Mantis.Fixed.Numeral
import Mantis.Fixed.Fmt
import Mantis.Lib.I128
import Mantis.Lib.Rounding
import Mantis.Fixed.MulDiv
import Mantis.Polymarket.Framing
import Mantis.Strategy.Valuation
import Mantis.MarketState.Depth
import Mantis.MarketState.Overflow
import Mantis.Feed.Safety
import Mantis.Lib.Json
import Mantis.Lib.TextSearch
import Mantis.Polymarket.PeekType
import Mantis.Strategy.SlotReuse
import Mantis.Strategy.OpenQty
import Mantis.Strategy.QueueEstimator
import Mantis.Strategy.QueuePosition
import Mantis.Fixed.Arithmetic
import Mantis.Fixed.Convert
import Mantis.Polymarket.Grid
import Mantis.MarketState.FairValue
import Mantis.Lib.ByteCopy
import Mantis.Platform.CopyDispatch
import Mantis.Queue.Instrumented
import Mantis.Transport.Timer
import Mantis.Transport.Ws
import Mantis.Transport.Feed
import Mantis.Transport.Monitor
import Mantis.Feed.Session
import Mantis.Lib.LongDivision
import Mantis.Platform.ConstantTime
import Mantis.Platform.CtDivision
import Mantis.Lib.Limbs
import Mantis.Lib.Linearizable
import Mantis.Lib.Packed
import Mantis.Tape.Format
import Mantis.Tape.Capture
import Mantis.Tape.Telemetry
import Mantis.Tape.EngineBook
import Mantis.Tape.EngineThread
import Mantis.Queue.Linearizable
import Mantis.Queue.CopyLinearizable
import Mantis.Queue.Length
import Mantis.SeqLock.Linearizable
import Mantis.SeqLock.Progress
import Mantis.MarketState.Replay
import Mantis.Platform.ExtendedPrec
import Mantis.Queue.Teardown
import Mantis.Queue.Interchange
import Mantis.Polymarket.DepthRank
import Mantis.Tape.EngineReplay
