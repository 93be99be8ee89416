import Shreduler.GcCell.Guards
import Shreduler.IpAddr.Display
import Shreduler.Lts.Basic
import Shreduler.RubyIo.Lemmas.GuardOrder
import Shreduler.RubyIo.Lemmas.NonBlockGuard
import Shreduler.RubyIo.Lemmas.RubyIo
import Shreduler.TokioScheduler.Impl.Device
import Shreduler.TokioScheduler.Impl.Interrupts
import Shreduler.TokioScheduler.Impl.Pipe
import Shreduler.TokioScheduler.Lemmas.Action
import Shreduler.TokioScheduler.Lemmas.AddressResolve
import Shreduler.TokioScheduler.Lemmas.Aftermath
import Shreduler.TokioScheduler.Lemmas.BlockAgreement
import Shreduler.TokioScheduler.Lemmas.BlockUnblock
import Shreduler.TokioScheduler.Lemmas.Borrow
import Shreduler.TokioScheduler.Lemmas.ChildExits
import Shreduler.TokioScheduler.Lemmas.Close
import Shreduler.TokioScheduler.Lemmas.Coroutines
import Shreduler.TokioScheduler.Lemmas.Device
import Shreduler.TokioScheduler.Lemmas.ErrorContainment
import Shreduler.TokioScheduler.Lemmas.Executor
import Shreduler.TokioScheduler.Lemmas.ExitDelivery
import Shreduler.TokioScheduler.Lemmas.FiberFuture
import Shreduler.TokioScheduler.Lemmas.FinishedFibers
import Shreduler.TokioScheduler.Lemmas.Interrupts
import Shreduler.TokioScheduler.Lemmas.IoReadMinimum
import Shreduler.TokioScheduler.Lemmas.IoReadOrder
import Shreduler.TokioScheduler.Lemmas.IoReadWrite
import Shreduler.TokioScheduler.Lemmas.IoResult
import Shreduler.TokioScheduler.Lemmas.IoSelect
import Shreduler.TokioScheduler.Lemmas.IoSelectVerdict
import Shreduler.TokioScheduler.Lemmas.IoWait
import Shreduler.TokioScheduler.Lemmas.IoWrite
import Shreduler.TokioScheduler.Lemmas.Mark
import Shreduler.TokioScheduler.Lemmas.NestedFiber
import Shreduler.TokioScheduler.Lemmas.Pipe
import Shreduler.TokioScheduler.Lemmas.PipeDevice
import Shreduler.TokioScheduler.Lemmas.ProcessWait
import Shreduler.TokioScheduler.Lemmas.Runtime
import Shreduler.TokioScheduler.Lemmas.Settlement
import Shreduler.TokioScheduler.Lemmas.Sigchld
import Shreduler.TokioScheduler.Lemmas.SpawnAndTransfer
import Shreduler.TokioScheduler.Lemmas.TimeoutAfter
import Shreduler.TokioScheduler.Lemmas.TimeoutDuration
import Shreduler.TokioScheduler.Lemmas.TimeoutOrder
import Shreduler.TokioScheduler.Lemmas.WaitErrors
import Shreduler.TokioScheduler.Lemmas.Waitpid
import Shreduler.TokioScheduler.Lemmas.Wakeups
