import EventManager.PipedEvent.Signals
import EventManager.PipedEvent.Failing
import EventManager.LockeFreeQueue.Reclamation
import EventManager.LockeFreeQueue.Exceptions
import EventManager.EventPoller.Registry
import EventManager.Main.Conservation
import EventManager.Main.Bounds
import EventManager.App6.Queue
import EventManager.App8.Order
import EventManager.App12.Accounting
import EventManager.App12.Reuse
import EventManager.App11.Produce
import EventManager.App12.Registration
import EventManager.IManager.Lifecycle
import EventManager.Main.Startup
import EventManager.Wrapper.Atomic
import EventManager.App12.RingDelivery
import EventManager.Lib.Bits
import EventManager.AtomicQueueB2.Conservation
import EventManager.AtomicQueueB2.Progress
import EventManager.App10.Delivery
