import CpuLimit.Library.Runs
import CpuLimit.Library.ChainedTable
import CpuLimit.Library.MovingAverage
import CpuLimit.Library.Scanf
import CpuLimit.Library.ParentTree
import CpuLimit.Library.Sweep
import CpuLimit.Library.Fuel
import CpuLimit.Library.Topmost
import CpuLimit.Library.Getopt
import CpuLimit.Library.Strto
import CpuLimit.Library.LinkedList
import CpuLimit.Library.Outcome
import CpuLimit.Basic
import CpuLimit.ListHeap
import CpuLimit.ListHistory
import CpuLimit.ProcStat
import CpuLimit.ProcessIterator
import CpuLimit.LinuxIterator
import CpuLimit.IteratorHandles
import CpuLimit.SessionEnds
import CpuLimit.ProcessTree
import CpuLimit.ChildOf
import CpuLimit.Listing
import CpuLimit.FindProcess
import CpuLimit.ProcessTable
import CpuLimit.TableHistory
import CpuLimit.ProcessGroup
import CpuLimit.Departures
import CpuLimit.UsageEstimate
import CpuLimit.UsageHistory
import CpuLimit.SamplingWindow
import CpuLimit.Controller
import CpuLimit.LimitProcess
import CpuLimit.GroupHeap
import CpuLimit.FailedScan
import CpuLimit.RecordOwnership
import CpuLimit.StaleUsage
import CpuLimit.Steering
import CpuLimit.Limiter
import CpuLimit.QuietCycle
import CpuLimit.Resumption
import CpuLimit.SelfLimit
import CpuLimit.FileAccess
import CpuLimit.SelfWalk
import CpuLimit.CommandMode
import CpuLimit.Arguments
import CpuLimit.GroupMemory
import CpuLimit.LimitMemory
import CpuLimit.MainLoop
import CpuLimit.Library.Alternation
import CpuLimit.SignalOrder
import CpuLimit.Termination
import CpuLimit.TargetGone
import CpuLimit.Library.Cursor
import CpuLimit.AppleIterator
import CpuLimit.CallOrders
import CpuLimit.Platforms
import CpuLimit.LinuxSession
import CpuLimit.FreebsdSession
import CpuLimit.AppleSession
import CpuLimit.PlatformSessions
import CpuLimit.Library.IntegralControl
import CpuLimit.LimitKept
import CpuLimit.Library.Contraction
import CpuLimit.TimeSlot
import CpuLimit.EstimateMean
import CpuLimit.KernelView
import CpuLimit.KernelSignals
import CpuLimit.Library.OptionGrammar
import CpuLimit.CommandLine
import CpuLimit.CommandJob
import CpuLimit.CommandEnds
