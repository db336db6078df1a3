import Ebot.Library.Circular
import Ebot.EventLoop
import Ebot.Dispatch
import Ebot.SlabBalance
import Ebot.Reception
import Ebot.WorkerPool
import Ebot.Progress
import Ebot.Connections
import Ebot.Callbacks
import Ebot.Exhaustion
import Ebot.ReadyQueues
import Ebot.LockedCalls
import Ebot.Lifecycle
import Ebot.Shutdown
import Ebot.Joins
import Ebot.Connect
import Ebot.Listener
import Ebot.Registry
import Ebot.Descriptors
import Ebot.Lifetime
import Ebot.Handoff
import Ebot.Places
import Ebot.Closing
import Ebot.Admission
import Ebot.Removal
import Ebot.HandoffOutcome
import Ebot.RingqBounds
import Ebot.RingqSizes
import Ebot.Registration
import Ebot.Wpool
import Ebot.Vec
