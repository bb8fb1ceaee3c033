import Thunderbolt.Bench.BenchmarkRunnerProofs
import Thunderbolt.Bench.JsonWriterProofs
import Thunderbolt.Concurrent.Places
import Thunderbolt.Concurrent.Rows
import Thunderbolt.Cpu.Affinity
import Thunderbolt.Executor.AbpDequeProofs
import Thunderbolt.Executor.GlobalQueue
import Thunderbolt.Executor.SlotAliasing
import Thunderbolt.Graph.Resubmit
import Thunderbolt.Graph.SubmitAndWaitProofs
import Thunderbolt.Graph.TopologicalOrder
import Thunderbolt.Runtime.Complete
import Thunderbolt.Runtime.DependencyOrder
import Thunderbolt.Runtime.ExactlyOnce
import Thunderbolt.Runtime.Exhaustion
import Thunderbolt.Runtime.ForkJoin
import Thunderbolt.Runtime.HandleWaitProofs
import Thunderbolt.Runtime.ParallelForProofs
import Thunderbolt.Runtime.ParallelForThrows
import Thunderbolt.Runtime.Queries
import Thunderbolt.Runtime.Refinement
import Thunderbolt.Runtime.ShardedCounter
import Thunderbolt.Runtime.StandardRuntime
import Thunderbolt.Runtime.StealingRuntime
import Thunderbolt.Runtime.SubmitProofs
import Thunderbolt.Runtime.WaitAllProofs
import Thunderbolt.Scheduler.AcquireProofs
import Thunderbolt.Scheduler.DispatchProofs
import Thunderbolt.Scheduler.DrainProofs
import Thunderbolt.Scheduler.Parking
import Thunderbolt.Scheduler.PopLocal
import Thunderbolt.Scheduler.Shutdown
import Thunderbolt.Scheduler.StandardProofs
import Thunderbolt.Scheduler.Static
import Thunderbolt.Scheduler.StaticProofs
import Thunderbolt.Scheduler.Stealing
import Thunderbolt.Scheduler.StealingProofs
import Thunderbolt.Scheduler.Search
import Thunderbolt.Scheduler.Victim
import Thunderbolt.Task.SuccessorLog
import Thunderbolt.Task.TaskFunctionProofs
import Thunderbolt.Task.TaskPool
import Thunderbolt.Task.TaskPoolProofs
import Thunderbolt.World.Fields
import Thunderbolt.World.Frames
import Thunderbolt.World.Perception
import Thunderbolt.World.SimulationProofs
import Thunderbolt.World.StateHashProofs
