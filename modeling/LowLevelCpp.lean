import LowLevelCpp.Foundations.Bytes
import LowLevelCpp.Foundations.Clients
import LowLevelCpp.Foundations.CondVar
import LowLevelCpp.Foundations.ForkJoin
import LowLevelCpp.Foundations.Ledger
import LowLevelCpp.Foundations.Lifetimes
import LowLevelCpp.Foundations.Mutator
import LowLevelCpp.Foundations.Nested
import LowLevelCpp.Foundations.Path
import LowLevelCpp.Foundations.Programs
import LowLevelCpp.Foundations.Regions
import LowLevelCpp.Foundations.System
import LowLevelCpp.Foundations.Trace
import LowLevelCpp.Framebuffer.Frames
import LowLevelCpp.Framebuffer.Model
import LowLevelCpp.Framebuffer.Release
import LowLevelCpp.IntrusiveHashMap.Dictionary
import LowLevelCpp.IntrusiveHashMap.Lifetime
import LowLevelCpp.IntrusiveHashMap.Model
import LowLevelCpp.IntrusiveHashMap.Recency
import LowLevelCpp.Knocker.Answers
import LowLevelCpp.Knocker.Epoll
import LowLevelCpp.Knocker.EpollTimer
import LowLevelCpp.Knocker.Equivalence
import LowLevelCpp.Knocker.FlatList
import LowLevelCpp.Knocker.Intrusive
import LowLevelCpp.Knocker.IntrusiveList
import LowLevelCpp.Knocker.Kernel
import LowLevelCpp.Knocker.Reports
import LowLevelCpp.Knocker.Scanner
import LowLevelCpp.Knocker.Sweep
import LowLevelCpp.Knocker.TableIndices
import LowLevelCpp.Knocker.Timeouts
import LowLevelCpp.LockFreeStack.Demo
import LowLevelCpp.LockFreeStack.Lifo
import LowLevelCpp.LockFreeStack.Linearizable
import LowLevelCpp.LockFreeStack.Memory
import LowLevelCpp.LockFreeStack.Model
import LowLevelCpp.LockFreeStack.Progress
import LowLevelCpp.LockFreeStack.Tags
import LowLevelCpp.LockFreeStack.Validation
import LowLevelCpp.LockFreeStack.ZeroKeys
import LowLevelCpp.MarkSweep.Collect
import LowLevelCpp.MarkSweep.Mark
import LowLevelCpp.MarkSweep.Model
import LowLevelCpp.MarkSweep.NullReferences
import LowLevelCpp.MarkSweep.Runs
import LowLevelCpp.MarkSweep.StaleMarks
import LowLevelCpp.MarkSweep.Transparency
import LowLevelCpp.MarkSweep.WhitePaths
import LowLevelCpp.MemPool.Benchmark
import LowLevelCpp.MemPool.Links
import LowLevelCpp.MemPool.Model
import LowLevelCpp.MemPool.Partition
import LowLevelCpp.MyAlloc.Bump
import LowLevelCpp.MyFunction.Exchange
import LowLevelCpp.MyFunction.Model
import LowLevelCpp.MyFunction.Nesting
import LowLevelCpp.MyFunction.Overloads
import LowLevelCpp.MyFunction.Ownership
import LowLevelCpp.MyFunction.Reference
import LowLevelCpp.MyFunction.Refinement
import LowLevelCpp.MyVector.Aliasing
import LowLevelCpp.MyVector.Amortised
import LowLevelCpp.MyVector.Bounds
import LowLevelCpp.MyVector.Contents
import LowLevelCpp.MyVector.Discipline
import LowLevelCpp.MyVector.Exceptions
import LowLevelCpp.MyVector.Growth
import LowLevelCpp.MyVector.Members
import LowLevelCpp.MyVector.Model
import LowLevelCpp.MyVector.Reference
import LowLevelCpp.MyVector.Storage
import LowLevelCpp.MyVector.Tidy
import LowLevelCpp.ReinC.Arena
import LowLevelCpp.ReinC.Autograd
import LowLevelCpp.ReinC.Failures
import LowLevelCpp.ReinC.Gradients
import LowLevelCpp.ReinC.Graph
import LowLevelCpp.ReinC.Matrices
import LowLevelCpp.Rocker.Isolation
import LowLevelCpp.ThreadPool.Demo
import LowLevelCpp.ThreadPool.Model
import LowLevelCpp.ThreadPool.NoHang
import LowLevelCpp.ThreadPool.Shutdown
import LowLevelCpp.ThreadPool.Tasks
import LowLevelCpp.ThreadPool.Wakeups
import LowLevelCpp.ThreadSafeQueue.Demo
import LowLevelCpp.ThreadSafeQueue.Drain
import LowLevelCpp.ThreadSafeQueue.Exceptions
import LowLevelCpp.ThreadSafeQueue.Fifo
import LowLevelCpp.ThreadSafeQueue.Model
import LowLevelCpp.ThreadSafeQueue.NoHang
import LowLevelCpp.ThreadSafeQueue.Verdict
import LowLevelCpp.ThreadSafeQueue.Wakeups
