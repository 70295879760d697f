import ProcSched.Lib.Bytes
import ProcSched.Lib.Compare
import ProcSched.Lib.ForkJoin
import ProcSched.Lib.Gantt
import ProcSched.Lib.Makespan
import ProcSched.Lib.Outcome
import ProcSched.Lib.Policies
import ProcSched.Lib.Preemption
import ProcSched.Lib.Printf
import ProcSched.Lib.Printing
import ProcSched.Lib.Qsort
import ProcSched.Lib.Response
import ProcSched.Lib.Rotation
import ProcSched.Lib.Scanf
import ProcSched.Lib.Schedule
import ProcSched.Lib.Shares
import ProcSched.Lib.Srpt
import ProcSched.Lib.Starvation
import ProcSched.Lib.Turnaround
import ProcSched.Lib.While
import ProcSched.Model.Accesses
import ProcSched.Model.Fifo
import ProcSched.Model.Loop
import ProcSched.Model.Main
import ProcSched.Model.Output
import ProcSched.Model.Policy
import ProcSched.Model.Process
import ProcSched.Model.Psjf
import ProcSched.Model.Rr
import ProcSched.Model.Sjf
import ProcSched.Model.System
import ProcSched.Props.Comparators
import ProcSched.Props.Endless
import ProcSched.Props.FailedFork
import ProcSched.Props.FifoRr
import ProcSched.Props.FileOrder
import ProcSched.Props.FirstCome
import ProcSched.Props.Foreground
import ProcSched.Props.InRange
import ProcSched.Props.InputFile
import ProcSched.Props.Integrity
import ProcSched.Props.Interleaving
import ProcSched.Props.Lockstep
import ProcSched.Props.Memory
import ProcSched.Props.MinimumSearch
import ProcSched.Props.Online
import ProcSched.Props.Optimal
import ProcSched.Props.Output
import ProcSched.Props.Preemption
import ProcSched.Props.Priority
import ProcSched.Props.Quantum
import ProcSched.Props.ReadInput
import ProcSched.Props.Reaping
import ProcSched.Props.Report
import ProcSched.Props.Reprint
import ProcSched.Props.Rotation
import ProcSched.Props.RotationEnds
import ProcSched.Props.Shares
import ProcSched.Props.SjfDispatch
import ProcSched.Props.SjfPsjf
import ProcSched.Props.Termination
import ProcSched.Props.Turnaround
import ProcSched.Props.WaitTotal
import ProcSched.Props.WorkConserving
import ProcSched.Refine.Accesses
import ProcSched.Refine.Calls
import ProcSched.Refine.Counts
import ProcSched.Refine.Disciplines
import ProcSched.Refine.Faults
import ProcSched.Refine.Forks
import ProcSched.Refine.Garbage
import ProcSched.Refine.Loop
import ProcSched.Refine.Main
import ProcSched.Refine.Output
import ProcSched.Refine.Phases
import ProcSched.Refine.Policy
import ProcSched.Refine.Positions
import ProcSched.Refine.Prefix
import ProcSched.Refine.Psjf
import ProcSched.Refine.Run
import ProcSched.Refine.Scan
import ProcSched.Refine.Switches
import ProcSched.Refine.System
import ProcSched.Refine.Table
import ProcSched.Refine.Trace
import ProcSched.Refine.Waiting
import ProcSched.Spec.Workload
