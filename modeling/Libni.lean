import Libni.Logging.Fairness
import Libni.MSQueue.Reclamation
import Libni.MSQueue.Counting
import Libni.MSQueue.Progress
import Libni.MSQueue.Lifetime
import Libni.MSQueue.Element
import Libni.MSQueue.Sequential
import Libni.Hash.JumpConsistent
import Libni.Hash.Cursor
import Libni.MSQueue.Reuse
import Libni.DoubleTagPtr
import Libni.AtomicTaggedPtr
import Libni.RingBuffer.Length
import Libni.RingBuffer.Clear
import Libni.BufferList.Linearizable
import Libni.BufferList.Ownership
import Libni.BufferList.Lifetime
import Libni.BufferList.Destruction
import Libni.LinkedList.Fifo
import Libni.LinkedList.Lifetime
import Libni.Logging.Registration
import Libni.Logging.Shutdown
import Libni.Logging.LostWakeUp
import Libni.Logging.FutexWait
import Libni.Logging.Restart
import Libni.Logging.Routing
import Libni.Logging.Joining
import Libni.Logging.SystemCalls
import Libni.Logging.Lookup
import Libni.Distributed.Sweep
import Libni.Distributed.Deregistration
import Libni.Distributed.Rounds
import Libni.Distributed.Locking
import Libni.Distributed.Lifetime
import Libni.DistributedMSQueue.WrapAround
import Libni.DistributedMSQueue.Local
import Libni.Scopes.Guards
import Libni.DistributedMSQueue.Progress
