import Cs33.Lib.ByteMemory
import Cs33.Lib.DoublyLinked
import Cs33.Lib.Exec
import Cs33.Lib.GuardedRun
import Cs33.Lib.Transition
import Cs33.Lib.GuardedSum
import Cs33.Lib.Interval
import Cs33.Lib.Text
import Cs33.Lib.Numeral
import Cs33.Lib.Percent
import Cs33.Lib.Smallest
import Cs33.Malloc.Memlib
import Cs33.Malloc.Macros
import Cs33.Malloc.BlockList
import Cs33.Malloc.Mm
import Cs33.Malloc.Frame
import Cs33.Malloc.Tags
import Cs33.Malloc.CheckHeap
import Cs33.Malloc.Coalesce
import Cs33.Malloc.LiveBlocks
import Cs33.Malloc.FreeList
import Cs33.Malloc.ExpCoalesce
import Cs33.Malloc.FirstFit
import Cs33.Malloc.StrayStore
import Cs33.Malloc.Remainder
import Cs33.Malloc.ExpPlace
import Cs33.Malloc.ImplicitRun
import Cs33.Malloc.ListSearch
import Cs33.Malloc.RequestSize
import Cs33.Malloc.LiveAllocator
import Cs33.Malloc.Placement
import Cs33.Malloc.Realloc
import Cs33.Malloc.Unlink
import Cs33.Driver.Allocator
import Cs33.Driver.Mdriver
import Cs33.Driver.Ranges
import Cs33.Driver.Trace
import Cs33.Driver.Soundness
import Cs33.Driver.Completeness
import Cs33.Driver.ReadTrace
import Cs33.Driver.Utilisation
import Cs33.Driver.SameCalls
import Cs33.Driver.Main
import Cs33.Traces.Checktrace
import Cs33.Traces.Balance
import Cs33.Traces.GenRandom
import Cs33.Traces.ReadBack
import Cs33.Traces.Pipeline
import Cs33.Traces.Synthetic
import Cs33.Traces.RandomTrace
import Cs33.Timing.Fcyc
import Cs33.Thread.Histogram
import Cs33.Thread.Kernels
import Cs33.Thread.Privatised
import Cs33.Thread.Verdict
import Cs33.Thread.RunThreads
import Cs33.Datalab.Bits
import Cs33.Datalab.GenVals
import Cs33.Datalab.References
import Cs33.Datalab.Puzzles
import Cs33.Datalab.Btest
import Cs33.Datalab.Scoreboard
import Cs33.Datalab.TestSet
import Cs33.Datalab.Autoresult
import Cs33.Datalab.NumVal
