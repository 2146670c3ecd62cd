import ConcurrencyCourse.Library.CircularWait
import ConcurrencyCourse.HierarchicalMutex.Invariant
import ConcurrencyCourse.HierarchicalMutex.Safety
import ConcurrencyCourse.HierarchicalMutex.Restore
import ConcurrencyCourse.Library.AtomicObject
import ConcurrencyCourse.Library.LinkedPath
import ConcurrencyCourse.OptimizedQueue.Model
import ConcurrencyCourse.OptimizedQueue.Invariant
import ConcurrencyCourse.OptimizedQueue.Preservation
import ConcurrencyCourse.OptimizedQueue.Steps
import ConcurrencyCourse.OptimizedQueue.WellFormed
import ConcurrencyCourse.OptimizedQueue.Linearization
import ConcurrencyCourse.OptimizedQueue.WakeUp
import ConcurrencyCourse.SimpleQueue.Model
import ConcurrencyCourse.SimpleQueue.Invariant
import ConcurrencyCourse.SimpleQueue.StepCases
import ConcurrencyCourse.SimpleQueue.Preservation
import ConcurrencyCourse.ThreadPool.Model
import ConcurrencyCourse.ThreadPool.Invariant
import ConcurrencyCourse.ThreadPool.StepCases
import ConcurrencyCourse.ThreadPool.Preservation
import ConcurrencyCourse.ThreadPool.Ledger
import ConcurrencyCourse.ThreadPool.Barrier
import ConcurrencyCourse.ThreadPool.Completion
import ConcurrencyCourse.Library.Slice
import ConcurrencyCourse.Sorting.Model
import ConcurrencyCourse.ThreadPool.Destruction
import ConcurrencyCourse.Sorting.Activations
import ConcurrencyCourse.Sorting.Agreement
import ConcurrencyCourse.SimpleQueue.Program
import ConcurrencyCourse.SimpleQueue.WakeUp
import ConcurrencyCourse.Delivery
import ConcurrencyCourse.SimpleQueue.Exceptions
import ConcurrencyCourse.OptimizedQueue.Exceptions
import ConcurrencyCourse.ThreadPool.Submission
import ConcurrencyCourse.ThreadPool.Lifetime
import ConcurrencyCourse.ConcurrentMap.Atomicity
import ConcurrencyCourse.Philosophers.Deadlock
import ConcurrencyCourse.JoinableThread.Model
import ConcurrencyCourse.JoinableThread.Ownership
import ConcurrencyCourse.Library.HandOver
import ConcurrencyCourse.ThreadPool.MemoryOrder
import ConcurrencyCourse.ThreadPool.Visibility
import ConcurrencyCourse.ThreadPool.Measure
import ConcurrencyCourse.ThreadPool.Progress
import ConcurrencyCourse.OptimizedQueue.Exchange
import ConcurrencyCourse.OptimizedQueue.Deadlock
import ConcurrencyCourse.Sorting.Recursion
import ConcurrencyCourse.OptimizedQueue.Destructor
import ConcurrencyCourse.ConcurrentMap.Handlers
import ConcurrencyCourse.ThreadPool.Construction
import ConcurrencyCourse.ThreadPool.Unwinding
import ConcurrencyCourse.ThreadPool.Failure
import ConcurrencyCourse.Library.Segments
import ConcurrencyCourse.Reporter.Model
import ConcurrencyCourse.Reporter.Normalisation
import ConcurrencyCourse.Reporter.Labels
import ConcurrencyCourse.Reporter.Recording
import ConcurrencyCourse.Reporter.Grouping
import ConcurrencyCourse.Library.Scripted
import ConcurrencyCourse.Library.ForkJoin
import ConcurrencyCourse.ThreadSafeQueue.Implementation
import ConcurrencyCourse.ThreadSafeQueue.Clients
import ConcurrencyCourse.ThreadSafeQueue.Benchmark
import ConcurrencyCourse.SimpleQueue.Implementation
import ConcurrencyCourse.OptimizedQueue.Implementation
import ConcurrencyCourse.SimpleQueue.Benchmark
import ConcurrencyCourse.OptimizedQueue.Benchmark
import ConcurrencyCourse.OptimizedQueue.Memory
import ConcurrencyCourse.Library.Recorded
import ConcurrencyCourse.Library.Decimal
import ConcurrencyCourse.ConcurrentMap.Linearization
import ConcurrencyCourse.ConcurrentMap.Benchmark
import ConcurrencyCourse.ThreadPool.Joining
import ConcurrencyCourse.ThreadPool.Reentrancy
import ConcurrencyCourse.ThreadPool.Order
import ConcurrencyCourse.Philosophers.Forks
import ConcurrencyCourse.Philosophers.Main
import ConcurrencyCourse.Sorting.Unwinding
import ConcurrencyCourse.Sorting.Threads
import ConcurrencyCourse.Sorting.Benchmark
import ConcurrencyCourse.Library.Columns
import ConcurrencyCourse.Reporter.Table
import ConcurrencyCourse.Reporter.Session
import ConcurrencyCourse.Library.Merge
import ConcurrencyCourse.Printing.Unsynchronised
import ConcurrencyCourse.Printing.Logger
import ConcurrencyCourse.RunBenchmark.Completion
