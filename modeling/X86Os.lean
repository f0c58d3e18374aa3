import X86Os.MutexProtocol
import X86Os.UvmCopy
import X86Os.UvmSeparate
import X86Os.Boot
import X86Os.FileBuffer
import X86Os.Cpu
import X86Os.Kernel
import X86Os.ForkAtomic
import X86Os.KernelInit
import X86Os.TaskInit
import X86Os.UvmRange
import X86Os.SchedFairness
import X86Os.SchedState
import X86Os.SemProtocol
import X86Os.ListFamily
import X86Os.PageDirectory
import X86Os.MapLookup
import X86Os.RangeAlloc
import X86Os.Transfer
import X86Os.UvmData
import X86Os.UvmDestroy
import X86Os.Elf
import X86Os.Exec
import X86Os.Populated
import X86Os.ElfImage
import X86Os.LoadImage
import X86Os.ExecLoad
import X86Os.ArgStrings
import X86Os.ExecArgs
import X86Os.ExecSpace
import X86Os.ExecImage
import X86Os.UserImage
import X86Os.RangeFill
import X86Os.Heap
import X86Os.FreePage
import X86Os.ManagedMemory
import X86Os.SleepRun
import X86Os.ForkChild
import X86Os.SegmentLoad
import X86Os.ArgPassing
import X86Os.Gdt
import X86Os.SemInit
import X86Os.BitmapRuns
import X86Os.Console
import X86Os.Itoa
import X86Os.Vsprintf
import X86Os.Log
import X86Os.ReloadElf
import X86Os.DetectMemory
import X86Os.FirstPages
import X86Os.KernelTable
import X86Os.HeapBounds
import X86Os.TakenPages
import X86Os.ExecFailure
import X86Os.KernelStrings
import X86Os.TaskNames
import X86Os.Cut
import X86Os.CopySteps
import X86Os.ForkSteps
import X86Os.Claims
import X86Os.ForkRun
import X86Os.ForkInv
import X86Os.ForkWindow
import X86Os.ForkExclusive
import X86Os.ExecCut
import X86Os.RoleBoot
import X86Os.Intact
import X86Os.ForkReturn
import X86Os.Exceptions
