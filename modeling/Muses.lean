import Muses.BoundedQueue.SemaphoreRange
import Muses.Logger.Flush
import Muses.ThreadSafeQueue
import Muses.BloomFilter.Interference
import Muses.Memory.Lifetimes
import Muses.Memory.ByteStrings
import Muses.Net.Isolation
import Muses.Net.Outstanding
import Muses.Net.Edges
import Muses.Net.Bodies
import Muses.Net.Backlog
import Muses.Net.Ordering
import Muses.Net.Batching
import Muses.Net.Shutdown
import Muses.Task.Results
import Muses.Http.KeepAlive
import Muses.Http.Answers
import Muses.Proxy.SingleHead
import Muses.Proxy.Descriptors
import Muses.Proxy.Handles
import Muses.Proxy.Chunks
import Muses.Proxy.Retries
import Muses.Net.Gate
import Muses.Net.Scanning
import Muses.Net.IdleSweep
import Muses.Memory.HighWater
import Muses.Net.EndToEnd
import Muses.Http.Staleness
