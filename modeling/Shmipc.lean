import Shmipc.Library.ByteMemory
import Shmipc.Library.Transition
import Shmipc.Library.Threads
import Shmipc.Layout
import Shmipc.Error
import Shmipc.Slice
import Shmipc.BufferList
import Shmipc.BufferManager
import Shmipc.FreeList
import Shmipc.ListOperations
import Shmipc.ListCreate
import Shmipc.ListFifo
import Shmipc.ConcurrentList
import Shmipc.ConcurrentInv
import Shmipc.ConcurrentSteps
import Shmipc.ConcurrentSafety
import Shmipc.Library.CircularQueue
import Shmipc.Queue
import Shmipc.Delivery
import Shmipc.Wakeup
import Shmipc.DeliveryOrder
import Shmipc.Holding
import Shmipc.SendChannel
import Shmipc.Registry
import Shmipc.SessionRegion
import Shmipc.BufReader
import Shmipc.Event
import Shmipc.ReadLoop
import Shmipc.FrameStream
import Shmipc.ParserProgress
import Shmipc.SessionCreate
import Shmipc.Library.MemoryAccess
import Shmipc.StreamRead
import Shmipc.SharedQueue
import Shmipc.SharedQueueOrder
import Shmipc.LinkedBufferInv
import Shmipc.LinkedBufferWrite
import Shmipc.LinkedBufferRead
import Shmipc.LinkedBufferRelease
import Shmipc.ByteFifo
import Shmipc.Stream
import Shmipc.StreamChain
import Shmipc.PendingClose
import Shmipc.SessionClose
import Shmipc.ManagerLayout
import Shmipc.ManagerRun
import Shmipc.ManagerMapping
import Shmipc.UntrustedRegion
import Shmipc.HomeList
import Shmipc.Handshake
import Shmipc.Connection
import Shmipc.AcceptOnce
import Shmipc.LinkedBufferOpen
import Shmipc.ReserveDelivers
import Shmipc.PublishedChain
import Shmipc.HandshakeBounds
import Shmipc.MappedQueue
import Shmipc.FallbackFrame
import Shmipc.AllocRoom
import Shmipc.FlushDisposes
import Shmipc.UnreadRemainder
import Shmipc.StreamExt
import Shmipc.ChainWalks
import Shmipc.ConfigVerify
import Shmipc.SlotHoard
import Shmipc.ReadViews
import Shmipc.FlushSends
import Shmipc.SameData
import Shmipc.StreamReuse
import Shmipc.CloseReturns
import Shmipc.KeptSlots
import Shmipc.LateCalls
import Shmipc.UnmappedRegion
