import Microkernel.Kernel.Sync
import Microkernel.Kernel.SyncProofs
import Microkernel.Kernel.Ownership
import Microkernel.Kernel.BasePriority
import Microkernel.Kernel.Rotation
import Microkernel.Calls.Outcome
import Microkernel.Calls.Steps
import Microkernel.Calls.Ownership
import Microkernel.Calls.Waiters
import Microkernel.Calls.Tokens
import Microkernel.Calls.Whole
import Microkernel.Calls.Inheritance
import Microkernel.Lib.WaitGraph
import Microkernel.Calls.WaitFor
import Microkernel.Calls.Lockdep
import Microkernel.Calls.Deadlock
import Microkernel.Calls.Asleep
import Microkernel.Calls.Inversion
import Microkernel.Calls.AbBa
import Microkernel.Lib.Rounds
import Microkernel.Calls.Turns
import Microkernel.Calls.Accounts
import Microkernel.Calls.TwoLocks
import Microkernel.Lib.Aarch64
import Microkernel.Arch.IrqEntry
import Microkernel.Lib.Bare
import Microkernel.Arch.Boot
import Microkernel.Preempt.Machine
import Microkernel.Preempt.Steps
import Microkernel.Preempt.Frames
import Microkernel.Preempt.Switch
import Microkernel.Preempt.Blocked
import Microkernel.Lib.Align
import Microkernel.Mem.Kmem
import Microkernel.Mem.Pool
import Microkernel.Mem.Frees
import Microkernel.Mem.Debug
import Microkernel.Mem.Libc
import Microkernel.Lib.Blocks
import Microkernel.Mem.FirstFit
import Microkernel.Mem.Heap
import Microkernel.Preempt.Depth
import Microkernel.Preempt.Shadow
import Microkernel.Preempt.Exclusion
import Microkernel.Preempt.Locks
import Microkernel.Preempt.Fp
import Microkernel.Preempt.Requests
import Microkernel.Arch.Context
import Microkernel.Arch.Switches
import Microkernel.Arch.FpContext
import Microkernel.Dma.Queue
import Microkernel.Dma.Descs
import Microkernel.Dma.Complete
import Microkernel.Dma.Window
import Microkernel.Lib.Translation
import Microkernel.Mmu.Tables
import Microkernel.Mmu.Map
import Microkernel.Mmu.Guard
import Microkernel.Lib.Cache
import Microkernel.Dma.Bus
import Microkernel.Dma.Coherence
import Microkernel.Dma.Interrupts
import Microkernel.Dma.Neighbours
import Microkernel.Dma.Rules
import Microkernel.Arch.Barrier
import Microkernel.Lib.Numeral
import Microkernel.Dev.Console
import Microkernel.Dev.Uart
import Microkernel.Threads.Create
import Microkernel.Threads.Allocators
import Microkernel.Threads.Stack
import Microkernel.Threads.Failed
import Microkernel.Threads.Watermark
