import Qev.Lib.Run
import Qev.Wake.Model
import Qev.Wake.Delivery
import Qev.Wake.Gate
import Qev.Lib.Heap
import Qev.Loop.Heap
import Qev.Loop.Pending
import Qev.Loop.Deadlines
import Qev.Loop.Fd
import Qev.Loop.Interest
import Qev.Loop.Invoke
import Qev.Loop.Timers
import Qev.Backend.Aio
import Qev.Backend.AioPlaces
import Qev.Backend.AioRun
import Qev.Backend.Ring
import Qev.Backend.Uring
import Qev.Backend.UringPass
import Qev.Win32.Consistent
import Qev.Loop.ForkTold
import Qev.Loop.OnceFreed
import Qev.Win32.Watched
import Qev.Loop.Clock
import Qev.Loop.Changes
import Qev.Backend.Eperm
import Qev.Wake.Attach
import Qev.Loop.Break
import Qev.Loop.Collect
import Qev.Loop.Kept
import Qev.Loop.PassOrder
import Qev.Lib.While
import Qev.Backend.Queues
import Qev.Backend.EmbedLoop
import Qev.Backend.EmbedPrepare
import Qev.Loop.StatRun
import Qev.Loop.Expire
import Qev.Loop.Recalc
import Qev.Loop.Periodics
import Qev.Loop.Suspend
import Qev.Loop.Block
import Qev.Loop.Jump
import Qev.Loop.Next
import Qev.Loop.Supply
import Qev.Loop.Offset
import Qev.Backend.PollSelect
import Qev.Backend.UringDrain
import Qev.Compat.EventRun
import Qev.Loop.PriorityRun
import Qev.Loop.WalkRun
import Qev.Backend.ChangelistRun
import Qev.Loop.ChildRun
import Qev.Loop.Grow
import Qev.Loop.Version
import Qev.Loop.Indexes
import Qev.Backend.FdKill
import Qev.Loop.StatDiff
import Qev.Loop.Destroy
import Qev.Compat.BaseOnce
import Qev.Backend.ForkRefs
import Qev.Loop.Deliveries
import Qev.Loop.CensusRun
import Qev.Loop.OwnerRun
import Qev.Wepoll.HandlesRun
import Qev.Wepoll.SocksRun
import Qev.Wepoll.SocksReport
