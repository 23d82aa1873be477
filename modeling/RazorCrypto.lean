import RazorCrypto.Foundation.MachineInt
import RazorCrypto.Foundation.SlotRing
import RazorCrypto.Foundation.Transition
import RazorCrypto.Foundation.Book
import RazorCrypto.Shm.Plus.Invariant
import RazorCrypto.Shm.Plus.Attach
import RazorCrypto.Shm.Plus.Region
import RazorCrypto.Shm.Plus.Relabel
import RazorCrypto.Shm.Plus.Query
import RazorCrypto.Shm.Plus.Window
import RazorCrypto.Shm.Plus.Isolation
import RazorCrypto.Foundation.SlotPublication
import RazorCrypto.Shm.Tick.Record
import RazorCrypto.Shm.Untorn
import RazorCrypto.Mq.RingBuffer
import RazorCrypto.Mq.Push
import RazorCrypto.Mq.PushAlone
import RazorCrypto.Mq.PushInvariant
import RazorCrypto.Mq.Attach
import RazorCrypto.Mq.Delivery
import RazorCrypto.Mq.Mapping
import RazorCrypto.Shm.Pairing
import RazorCrypto.Mq.Zero
import RazorCrypto.ShmQueue.Queue
import RazorCrypto.ShmQueue.Consumers
import RazorCrypto.Ws.Client
import RazorCrypto.Ws.SendQueue
import RazorCrypto.Ws.Unwritten
import RazorCrypto.Ws.Close
import RazorCrypto.BinanceMd.Subscription
import RazorCrypto.Shm.Plus.Settled
import RazorCrypto.Shm.Plus.Attaching
import RazorCrypto.Shm.Plus.Orderly
import RazorCrypto.Foundation.BitSpread
import RazorCrypto.ShmQueue.Geometry
import RazorCrypto.ShmQueue.TryPop
import RazorCrypto.ShmQueue.Startup
import RazorCrypto.Shm.Tick.Store
import RazorCrypto.Shm.Tick.Scan
import RazorCrypto.BinanceMd.Payload
import RazorCrypto.BinanceMd.Statistics
import RazorCrypto.BinanceMd.Lifecycle
import RazorCrypto.Foundation.Bisection
import RazorCrypto.Shm.Plus.Search
import RazorCrypto.Shm.Plus.ExactWindow
import RazorCrypto.Shm.Plus.Shortcut
import RazorCrypto.Mq.History
import RazorCrypto.Shm.Plus.Compare
import RazorCrypto.Foundation.FlatMemory
import RazorCrypto.ShmQueue.Bytes
import RazorCrypto.BinanceMd.Latency
import RazorCrypto.Common.Timestamps
import RazorCrypto.Shm.Plus.Epoch
import RazorCrypto.Shm.Plus.OpenOrCreate
import RazorCrypto.Shm.Plus.Times
import RazorCrypto.Mq.Capacity
import RazorCrypto.Common.Prices
import RazorCrypto.Shm.Plus.MonthTable
import RazorCrypto.Common.Splitting
import RazorCrypto.Common.Codes
import RazorCrypto.Common.Rounding
import RazorCrypto.MDRunner.Resource
import RazorCrypto.Strategy.Polling
import RazorCrypto.FlatHashMap.Policy
import RazorCrypto.FlatHashMap.Table
import RazorCrypto.FlatHashMap.Loops
import RazorCrypto.FlatHashMap.Calls
import RazorCrypto.FlatHashMap.Refinement
import RazorCrypto.FlatHashMap.Iteration
import RazorCrypto.FlatHashMap.Runs
import RazorCrypto.Strategy.DepthMap
import RazorCrypto.Shm.Plus.Restart
import RazorCrypto.BinanceMd.Delivery
import RazorCrypto.Shm.Tick.Contents
import RazorCrypto.MDRunner.Main
import RazorCrypto.MDRunner.Exit
import RazorCrypto.Ws.Reading
import RazorCrypto.BinanceMd.SubscribeText
import RazorCrypto.BinanceMd.Configuration
import RazorCrypto.BinanceMd.Startup
import RazorCrypto.Mq.Replay
import RazorCrypto.Shm.Plus.Underway
import RazorCrypto.Strategy.Market
