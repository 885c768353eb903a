import Fantuan.Lib.Framing
import Fantuan.Lib.Storage
import Fantuan.Lib.Block
import Fantuan.Lib.Runs
import Fantuan.Midware.Reassembly
import Fantuan.Midware.Untrusted
import Fantuan.Midware.Ownership
import Fantuan.Midware.Initialize
import Fantuan.Midware.Isolation
import Fantuan.Midware.Registry
import Fantuan.Midware.Addressing
import Fantuan.Network.Lifetime
import Fantuan.Lib.Memory
import Fantuan.Network.Send
import Fantuan.Network.PartialWrites
import Fantuan.Network.Packets
import Fantuan.Midware.Client
import Fantuan.Midware.Stream
import Fantuan.Common.DyArray
import Fantuan.Common.ElementOps
import Fantuan.Common.BulkOps
import Fantuan.Midware.CommandQueue
import Fantuan.Common.Strings
import Fantuan.Common.ObjectArray
import Fantuan.Network.Locks
import Fantuan.Lib.Regions
import Fantuan.Lib.Words
import Fantuan.Common.Allocator
import Fantuan.Common.Heap
import Fantuan.Common.Characters
import Fantuan.Common.LocalStrings
import Fantuan.Common.Log
import Fantuan.Midware.Attached
import Fantuan.Midware.Shutdown
import Fantuan.Lib.LinkedStack
import Fantuan.Lib.Threads
import Fantuan.Network.Iocp
import Fantuan.Network.References
import Fantuan.Network.Contexts
import Fantuan.Network.Stop
import Fantuan.Network.Stages
import Fantuan.Network.Lifecycle
import Fantuan.Network.Released
import Fantuan.Network.FreeConnections
import Fantuan.Network.Received
import Fantuan.Network.EndOfStream
import Fantuan.Lib.Cursor
import Fantuan.Midware.StreamCalls
import Fantuan.Midware.SendFrame
import Fantuan.Midware.TwoWayStream
import Fantuan.Common.BlockSizes
import Fantuan.Common.BulkAppend
import Fantuan.Common.ClassElements
import Fantuan.Common.CopyConstruct
import Fantuan.Network.Drain
import Fantuan.Network.SentRanges
import Fantuan.Lib.Lock
import Fantuan.Network.Semaphore
import Fantuan.SimpleNetwork.SendData
import Fantuan.SimpleNetwork.SimpleThread
import Fantuan.Common.Buffer
import Fantuan.Midware.ChatMessages
import Fantuan.Common.Chunks
import Fantuan.Midware.Broadcast
import Fantuan.Midware.Recipients
import Fantuan.Network.Delivery
import Fantuan.Network.EdgeTriggered
import Fantuan.Network.Handed
import Fantuan.Midware.Conversation
import Fantuan.Network.Workers
import Fantuan.Common.LogThread
import Fantuan.Network.OutputBuffers
