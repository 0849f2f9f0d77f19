import LiteBox.Lib.Bytes
import LiteBox.Lib.ClassicBpf
import LiteBox.Errno
import LiteBox.Seccomp.Bpf
import LiteBox.Seccomp.BpfSafety
import LiteBox.Seccomp.BpfReference
import LiteBox.Lib.Run
import LiteBox.Lib.Sparse
import LiteBox.Lib.Chunks
import LiteBox.Seccomp.State
import LiteBox.Seccomp.Calls
import LiteBox.Lib.Sweep
import LiteBox.Rewriter.Decode
import LiteBox.Rewriter.Chunking
import LiteBox.Rewriter.Subset
import LiteBox.Rewriter.Scan
import LiteBox.Rewriter.Hook
import LiteBox.Lib.Outcome
import LiteBox.Rewriter.Plan
import LiteBox.Rewriter.Layout
import LiteBox.Rewriter.Patch
import LiteBox.Lib.Edits
import LiteBox.Rewriter.Escape
import LiteBox.Rewriter.Rebase
import LiteBox.Rewriter.RebaseRun
import LiteBox.Rewriter.ScanOnce
import LiteBox.Lib.BitFields
import LiteBox.Rewriter.Arm64.Insn
import LiteBox.Rewriter.Arm64.Gates
import LiteBox.Rewriter.Arm64.GateSpec
import LiteBox.Rewriter.Arm64.Hook
import LiteBox.Rewriter.Arm64.Exact
import LiteBox.Rewriter.Footer
import LiteBox.Rewriter.ElfImage
import LiteBox.Rewriter.Elf
import LiteBox.Loader.ParseTrampoline
import LiteBox.Loader.Agreement
import LiteBox.Lib.Memory
import LiteBox.Loader.UserStack
import LiteBox.Loader.Contained
import LiteBox.Loader.Load
import LiteBox.Loader.LoadSpec
import LiteBox.Loader.Parse
import LiteBox.Loader.Overflow
import LiteBox.Loader.Relocations
import LiteBox.Spill.Refresh
import LiteBox.Fd.Descriptors
import LiteBox.Fd.QueuedClose
import LiteBox.Lib.Loop
import LiteBox.Signals.Basic
import LiteBox.Signals.Pending
import LiteBox.Signals.Frame
import LiteBox.Signals.Task
import LiteBox.Signals.Forced
import LiteBox.Signals.Calls
import LiteBox.Signals.Unblockable
import LiteBox.Vsm.TextPatch
import LiteBox.Vsm.ModuleValidation
import LiteBox.Lib.SlotTable
import LiteBox.PidNs.Table
import LiteBox.PidNs.World
import LiteBox.PidNs.TableInvariant
import LiteBox.PidNs.Isolation
import LiteBox.Lib.Threads
import LiteBox.Xproc.ProcessTable
import LiteBox.Xproc.Delivery
import LiteBox.Xproc.Runs
import LiteBox.Lib.RangeMap
import LiteBox.Lib.Prog
import LiteBox.Mm.Basic
import LiteBox.Mm.Vmem
import LiteBox.Mm.Unmap
import LiteBox.Mm.Insert
import LiteBox.Mm.Views
import LiteBox.Mm.ViewRuns
import LiteBox.Mm.Brk
import LiteBox.Mm.BrkRuns
import LiteBox.Lib.Clusters
import LiteBox.Mm.Duplicate
import LiteBox.Mm.Fork
import LiteBox.Mm.ForkShared
import LiteBox.Mm.ForkPrivate
import LiteBox.Mm.ForkBrk
import LiteBox.Spill.Publish
import LiteBox.Spill.Renames
import LiteBox.Fs.Basic
import LiteBox.Fs.InMem
import LiteBox.Fs.InMemWalk
import LiteBox.Fs.InMemTree
import LiteBox.Fs.InMemRename
import LiteBox.Fs.InMemRuns
import LiteBox.Fs.InMemIo
import LiteBox.Fs.InMemLinks
import LiteBox.Fs.Normalize
import LiteBox.Fs.Merge
import LiteBox.Fs.MergePieces
import LiteBox.Fs.MergeCorrect
import LiteBox.Fs.MergeSiblings
import LiteBox.NineP.InStep
import LiteBox.Fs.FileSystem
import LiteBox.Fs.Import
import LiteBox.Fs.ImportInMem
import LiteBox.Fs.Backend
import LiteBox.Fs.Composer
import LiteBox.Fs.Namespace
import LiteBox.Fs.ComposerWalk
import LiteBox.Fs.ComposerTree
import LiteBox.Fs.Resolver
import LiteBox.Fs.ResolverReference
import LiteBox.NineP.Client
import LiteBox.Mm.Search
import LiteBox.Mm.Relocations
import LiteBox.Mm.Diagnostic
import LiteBox.Pipes
import LiteBox.Net.StreamChannel
import LiteBox.Loader.Reserve
import LiteBox.Fs.ResolverOpen
import LiteBox.Pty.LineDiscipline
