import Lwt.Lib.Transition
import Lwt.Lib.Rings
import Lwt.Lib.RingBuffer
import Lwt.Lib.Count
import Lwt.Lib.Mailbox
import Lwt.Lib.Overtaking
import Lwt.Lib.Inbox
import Lwt.Types
import Lwt.State
import Lwt.Thread
import Lwt.Channel
import Lwt.Step
import Lwt.Calls
import Lwt.Sched
import Lwt.Inversion
import Lwt.Refinement
import Lwt.Net
import Lwt.Placement
import Lwt.Tasks
import Lwt.Single
import Lwt.Accounting
import Lwt.Frames
import Lwt.Channels
import Lwt.Delivery
import Lwt.Conservation
import Lwt.Fifo
import Lwt.Wired
import Lwt.Directed
import Lwt.Fairness
import Lwt.Groups
import Lwt.Ready
import Lwt.Reuse
import Lwt.GroupWait
import Lwt.Identity
import Lwt.Dying
import Lwt.Instances
import Lwt.Schedule
import Lwt.Exit
import Lwt.Join
import Lwt.Ledger
import Lwt.Reaping
import Lwt.Departure
import Lwt.Indices
import Lwt.Division
import Lwt.GroupFree
import Lwt.Allocation
import Lwt.Capacity
import Lwt.Running
import Lwt.Drain
import Lwt.Idle
import Lwt.Migration
import Lwt.Global
import Lwt.Arena
import Lwt.Wakeup
import Lwt.Lists
import Lwt.Sizes
import Lwt.Coalescing
import Lwt.Buffers
import Lwt.RoundRobin
import Lwt.Stacks
import Lwt.Leaks
import Lwt.Leftovers
import Lwt.Critical
import Lwt.Exclusion
import Lwt.Sleeping
import Lwt.Cpu
import Lwt.Dispatch
import Lwt.ForkJoin
import Lwt.Progress
import Lwt.References
import Lwt.Spinning
import Lwt.InMemory
import Lwt.Census
import Lwt.GroupLists
