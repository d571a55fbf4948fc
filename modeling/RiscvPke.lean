import RiscvPke.Elf.Leb128
import RiscvPke.Fs.Counts
import RiscvPke.Fs.Directories
import RiscvPke.Fs.Ownership
import RiscvPke.Fs.Splice
import RiscvPke.Fs.Streams
import RiscvPke.Heap.Exiting
import RiscvPke.Heap.PageTables
import RiscvPke.Memory.RegionTable
import RiscvPke.Memory.Shortage
import RiscvPke.Pmm.CowFaults
import RiscvPke.Sched.Dequeue
import RiscvPke.Sched.KernelStack
import RiscvPke.Sched.Parents
import RiscvPke.Sched.Semaphore
import RiscvPke.Sched.Shutdown
import RiscvPke.Sched.Slots
import RiscvPke.Shell.PipeIndices
import RiscvPke.Shell.Pipeline
import RiscvPke.Shell.Reuse
import RiscvPke.Syscall.Buffers
import RiscvPke.Vmm.Refinement
