import Xv6.Machine
import Xv6.Peterson
import Xv6.Ring
import Xv6.Least
import Xv6.Spinlock
import Xv6.Pipe
import Xv6.PipeExclusion
import Xv6.PipeProgress
import Xv6.PipeStream
import Xv6.PipeClose
import Xv6.PipeFiles
import Xv6.Proc
import Xv6.Thermal
import Xv6.Scheduler
import Xv6.Kernel
import Xv6.Round
import Xv6.Quantum
import Xv6.KernelSteps
import Xv6.CpuSteps
import Xv6.Dispatch
import Xv6.FreeSlots
import Xv6.Throttle
import Xv6.Envelope
import Xv6.Selection
import Xv6.Starvation
import Xv6.FamilySteps
import Xv6.WaitLock
import Xv6.Reaping
import Xv6.ProcTree
import Xv6.Summary
import Xv6.SleepWakeup
import Xv6.Wakeups
import Xv6.Console
import Xv6.LineDiscipline
import Xv6.KillWait
import Xv6.Regex
import Xv6.Printf
import Xv6.Analyzer
import Xv6.Policy
import Xv6.Metrics
import Xv6.SkipCount
import Xv6.Ends
import Xv6.Radix
import Xv6.Vm
import Xv6.PageTable
import Xv6.UserSpace
import Xv6.Reads
import Xv6.UserCopy
import Xv6.Virtio
import Xv6.VirtioDisk
import Xv6.VirtioInv
import Xv6.VirtioProtocol
import Xv6.Bytes
import Xv6.Overlay
import Xv6.Bcache
import Xv6.DList
import Xv6.BufferCache
import Xv6.CacheOver
import Xv6.Log
import Xv6.LogInv
import Xv6.LogSteps
import Xv6.LogCommit
import Xv6.LogRun
import Xv6.GroupCommit
import Xv6.Admission
import Xv6.CommitBuffers
import Xv6.Recovery
import Xv6.Fs
import Xv6.FsView
import Xv6.Ownership
import Xv6.FsBlocks
import Xv6.FileData
import Xv6.FileContents
import Xv6.PageMap
import Xv6.CopyOut
import Xv6.UserPages
import Xv6.UvmCopy
import Xv6.Shell
import Xv6.ShellGrammar
import Xv6.ShellParse
import Xv6.ShellCommands
import Xv6.Linked
import Xv6.Tiling
import Xv6.Umalloc
import Xv6.UmallocFree
import Xv6.UmallocSearch
import Xv6.UmallocRun
import Xv6.SlotMap
import Xv6.Directory
import Xv6.InodeTable
import Xv6.DirectoryMap
import Xv6.Namei
import Xv6.NameiWalk
import Xv6.OpenFiles
import Xv6.FailedWrite
import Xv6.Memmove
import Xv6.Printint
import Xv6.GrepMatch
import Xv6.GrepLines
import Xv6.UmallocBreak
import Xv6.Interrupts
