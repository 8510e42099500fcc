import CachePool.Lib.BitField
import CachePool.Lib.Machine
import CachePool.Lib.Route
import CachePool.Lib.Bag
import CachePool.Lib.Tally
import CachePool.Lib.Tickets
import CachePool.Lib.LinkChain
import CachePool.Lib.Tiling
import CachePool.Lib.Ring
import CachePool.Lib.FifoNet
import CachePool.Lib.KeyOrder
import CachePool.Lib.QueueLock
import CachePool.Lib.Observe
import CachePool.Lib.Arena
import CachePool.Lib.Turns
import CachePool.Lib.Lanes
import CachePool.Lib.Serial
import CachePool.Lib.Threads
import CachePool.Lib.Phases
import CachePool.Lib.Dft
import CachePool.Lib.Shards
import CachePool.Pkg
import CachePool.Interrupt
import CachePool.Interco
import CachePool.Refill
import CachePool.Rotation
import CachePool.Remote
import CachePool.ReqNet
import CachePool.Flush.Peripheral
import CachePool.Flush.Tile
import CachePool.Flush.System
import CachePool.Flush.Partition
import CachePool.Flush.Status
import CachePool.Flush.Runtime
import CachePool.Flush.Coverage
import CachePool.Flush.Protect
import CachePool.Amo.Alu
import CachePool.Amo.Unit
import CachePool.Amo.Reservation
import CachePool.Amo.Atomic
import CachePool.Amo.System
import CachePool.Amo.Invariant
import CachePool.Amo.Exclusive
import CachePool.Amo.ScResponse
import CachePool.Amo.Simulation
import CachePool.Dram
import CachePool.Preload.Elf
import CachePool.Preload.Load
import CachePool.BurstLock
import CachePool.StackRemap
import CachePool.DataBanks
import CachePool.Remapper
import CachePool.Barrier.Cluster
import CachePool.Barrier.Tile
import CachePool.Barrier.Stuck
import CachePool.Barrier.Transparent
import CachePool.Barrier.TwoLevel
import CachePool.Barrier.ReadChannel
import CachePool.Barrier.Software
import CachePool.Mcs.Lock
import CachePool.Mcs.Correct
import CachePool.Mcs.Slots
import CachePool.Rlc.System
import CachePool.Rlc.Transfer
import CachePool.Rlc.Ownership
import CachePool.Rlc.Sequence
import CachePool.Rlc.Pool
import CachePool.Rlc.DoublyLinked
import CachePool.Rlc.Statistics
import CachePool.Rlc.PageAlloc
import CachePool.Rlc.VectorUnit
import CachePool.Rlc.DataMove
import CachePool.Rlc.Transmission
import CachePool.Rlc.MemDiff
import CachePool.Omp.Dispatch
import CachePool.Omp.EventUnit
import CachePool.Omp.ForkJoin
import CachePool.Omp.Return
import CachePool.Omp.StaticSchedule
import CachePool.Omp.StaticChunked
import CachePool.Omp.ChunkedSigned
import CachePool.Omp.ChunkedUnsigned
import CachePool.Runtime.SwInterrupt
import CachePool.Runtime.Alloc
import CachePool.Runtime.Mutex
import CachePool.Omp.Guarded
import CachePool.Printf.Output
import CachePool.Printf.Integer
import CachePool.Printf.ReadBack
import CachePool.Printf.Format
import CachePool.Printf.Language
import CachePool.Printf.Locked
import CachePool.Periph.RegTop
import CachePool.Periph.Peripheral
import CachePool.Idotp.VectorUnit
import CachePool.Idotp.Kernel
import CachePool.Linalg.VectorUnit
import CachePool.Linalg.Fmatmul
import CachePool.Linalg.Gemv
import CachePool.Fft.Butterfly
import CachePool.Fft.Phase1
import CachePool.Fft.Phase2
import CachePool.Fft.Layout
import CachePool.Fft.Arrays
import CachePool.Fft.Shared
import CachePool.Fft.Own
import CachePool.Fft.Transform
import CachePool.Fft.Fourier
import CachePool.Verif.TcdmChecker
import CachePool.Verif.SharedMemory
import CachePool.Verif.FalseAlarm
import CachePool.Verif.Scoreboard
import CachePool.Dm.Queue
import CachePool.Dm.InOrder
