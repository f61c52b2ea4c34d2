import Xv6.Lib.Reach
import Xv6.Lib.Writes
import Xv6.Lib.Count
import Xv6.Lib.Ring
import Xv6.Lib.StateExcept
import Xv6.Lib.Dll
import Xv6.Lib.Mem
import Xv6.Lib.Radix
import Xv6.Lib.Bits
import Xv6.Lib.Move
import Xv6.Lib.Runs
import Xv6.Lib.BlockMap
import Xv6.Lib.Splice
import Xv6.Lib.SlotMap
import Xv6.Param
import Xv6.Model.Log
import Xv6.Model.LogSystem
import Xv6.Model.Pipe
import Xv6.Model.Console
import Xv6.Model.Umalloc
import Xv6.Model.Proc
import Xv6.Model.Bio
import Xv6.Model.Vm
import Xv6.Model.Fs.State
import Xv6.Model.Fs.Inode
import Xv6.Model.Fs.Dir
import Xv6.Model.Fs.Syscall
import Xv6.Model.Fs.System
import Xv6.Model.Fs.Mkfs
import Xv6.Model.Fs.Bitmap
import Xv6.Model.User.Printf
import Xv6.Model.User.Grep
import Xv6.Model.User.Xargs
import Xv6.Model.String
import Xv6.Model.User.Ulib
import Xv6.Model.User.Wc
import Xv6.Model.Spinlock
import Xv6.Model.Uart
import Xv6.Model.User.Sh
import Xv6.Model.Fork
import Xv6.Analysis.GroupCommit
import Xv6.Analysis.CrashAtomicity
import Xv6.Analysis.LogAdmission
import Xv6.Analysis.PipeFifo
import Xv6.Analysis.ConsoleLine
import Xv6.Analysis.UmallocRequest
import Xv6.Analysis.ProcLifecycle
import Xv6.Analysis.Pids
import Xv6.Analysis.BcacheList
import Xv6.Analysis.Footprint
import Xv6.Analysis.Namespace
import Xv6.Analysis.MkfsImage
import Xv6.Analysis.MkfsBlocks
import Xv6.Analysis.MkfsEmpty
import Xv6.Analysis.BitmapAlloc
import Xv6.Analysis.Contents.Bmap
import Xv6.Analysis.Contents.Read
import Xv6.Analysis.Contents.Write
import Xv6.Analysis.Contents.ByteArray
import Xv6.Analysis.Contents.Dir
import Xv6.Analysis.InodeRefs.Syscall
import Xv6.Analysis.FsFrame
import Xv6.Analysis.FileRefs.Inv
import Xv6.Analysis.FileRefs.Files
import Xv6.Analysis.FileRefs.Syscall
import Xv6.Analysis.InodeRefs.System
import Xv6.Analysis.Vm.Sv39
import Xv6.Analysis.Vm.Tree
import Xv6.Analysis.Vm.Walk
import Xv6.Analysis.Vm.Map
import Xv6.Analysis.Vm.Copy
import Xv6.Analysis.Vm.Grow
import Xv6.Analysis.Vm.Free
import Xv6.Analysis.Vm.UvmCopy
import Xv6.Analysis.Fork.PageTable
import Xv6.Analysis.Fork.Alloc
import Xv6.Analysis.Fork.Files
import Xv6.Analysis.Fork.Child
import Xv6.Analysis.Fork.Tables
import Xv6.Analysis.Fork.Refines
import Xv6.Analysis.User.PrintfRender
import Xv6.Analysis.User.GrepMatch
import Xv6.Analysis.User.XargsArgs
import Xv6.Analysis.Memmove
import Xv6.Analysis.User.WcChunks
import Xv6.Analysis.IntrNesting
import Xv6.Analysis.UartFifo
import Xv6.Analysis.OpenFailure
import Xv6.Analysis.User.ShTokens
import Xv6.Analysis.User.ShGrammar
import Xv6.Analysis.User.ShLex
import Xv6.Analysis.User.ShWords
