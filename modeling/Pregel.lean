import Pregel.Lib.Lts
import Pregel.Lib.Assoc
import Pregel.Lib.Bsp
import Pregel.Lib.Range
import Pregel.Lib.Record
import Pregel.Types
import Pregel.Transport
import Pregel.MessageBus
import Pregel.Barrier
import Pregel.Scheduler
import Pregel.WorkerNode
import Pregel.GraphEngine
import Pregel.Reordering
import Pregel.Local
import Pregel.Refinement
import Pregel.SingleWorker
import Pregel.Transparency
import Pregel.Delivery
import Pregel.Coordinator
import Pregel.Convergence
import Pregel.Conservation
import Pregel.Migration
import Pregel.Fifo
import Pregel.Flush
import Pregel.Accounting
import Pregel.Lifecycle
import Pregel.Heartbeat
import Pregel.Window
import Pregel.Recovery
import Pregel.FaultInjection
import Pregel.MessageFlow
import Pregel.Outbox
import Pregel.OrderBook.Basic
import Pregel.OrderBook.Order
import Pregel.OrderBook.LifeCycle
import Pregel.OrderBook.PriceLevel
import Pregel.OrderBook.Venue
import Pregel.OrderBook.Depth
import Pregel.OrderBook.MarketMaker
import Pregel.OrderBook.Graph
import Pregel.OrderBook.Layout
import Pregel.OrderBook.WellFormed
import Pregel.OrderBook.Partition
import Pregel.Main
import Pregel.OrderBook.Flow
import Pregel.OrderBook.Arithmetic
import Pregel.OrderBook.Prices
import Pregel.OrderBook.TradeId
import Pregel.Provenance
import Pregel.OrderBook.Provenance
import Pregel.History
import Pregel.OrderBook.History
import Pregel.OrderBook.Activity
import Pregel.OrderBook.Service
import Pregel.OrderBook.Makers
import Pregel.Termination
import Pregel.Threads
import Pregel.Suspicion
import Pregel.Ledger
import Pregel.Completion
import Pregel.Report
import Pregel.SharedProgress
