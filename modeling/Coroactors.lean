import Coroactors.Context.Yield
import Coroactors.Async.EndsIn
import Coroactors.Async.SameInv
import Coroactors.CallTree.Restore
import Coroactors.Conc.Chain
import Coroactors.Mailbox.HandOff
import Coroactors.Conc.System
import Coroactors.Asio.Continuation
import Coroactors.Asio.Resume
import Coroactors.TaskGroup.WhenReady
import Coroactors.TaskGroup.Delivery
import Coroactors.TaskGroup.Scope
import Coroactors.StopState.Waiting
import Coroactors.StopState.Honour
import Coroactors.StopState.Sources
import Coroactors.Queue.Fifo
import Coroactors.Queue.Asserts
import Coroactors.ItemMailbox.Fifo
import Coroactors.Continuation.Await
import Coroactors.Semaphore.Wakeup
import Coroactors.SleepUntil.Once
import Coroactors.Asio.Scheduler
import Coroactors.TaskGroup.Move
import Coroactors.Mailbox.Binding
import Coroactors.Mailbox.Calls
import Coroactors.WorkStealing.GlobalOwner
import Coroactors.WorkStealing.LocalSteps
import Coroactors.TaskLocal.Lexical
import Coroactors.StopScope.Nesting
import Coroactors.Queue.Stranded
import Coroactors.WorkStealing.Wakeups
import Coroactors.WorkStealing.GlobalTasks
import Coroactors.Mailbox.Refines
import Coroactors.BlockingQueue.StdMutex
import Coroactors.BlockingQueue.StdMailbox
import Coroactors.IntrusivePtr.Count
import Coroactors.PackagedAwaitable.Owner
import Coroactors.Asio.Destroy
