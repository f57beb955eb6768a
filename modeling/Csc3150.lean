import Csc3150.Library.Outcome
import Csc3150.Library.Program
import Csc3150.Library.Script
import Csc3150.Library.Transition
import Csc3150.Library.Refinement
import Csc3150.Library.ByteBuffer
import Csc3150.Library.Ownership
import Csc3150.Library.Search
import Csc3150.FileSystem.Disk
import Csc3150.FileSystem.Blocks
import Csc3150.FileSystem.Bitmap
import Csc3150.FileSystem.Inode
import Csc3150.FileSystem.BlockTree
import Csc3150.FileSystem.BlockMap
import Csc3150.FileSystem.Truncate
import Csc3150.FileSystem.Contents
import Csc3150.FileSystem.Image
import Csc3150.FileSystem.InodeTable
import Csc3150.FileSystem.InodeCalls
import Csc3150.FileSystem.Logging
import Csc3150.FileSystem.WriteLog
import Csc3150.FileSystem.LogSpace
import Csc3150.FileSystem.WriteRuns
import Csc3150.FileSystem.PartialWrite
import Csc3150.FileSystem.MapExtension
import Csc3150.FileSystem.Reading
import Csc3150.Mmap.Vma
import Csc3150.Mmap.PageTable
import Csc3150.Mmap.Kernel
import Csc3150.Mmap.Effects
import Csc3150.Mmap.Regions
import Csc3150.Mmap.Munmap
import Csc3150.Mmap.Faults
import Csc3150.Mmap.Placement
import Csc3150.Library.Tally
import Csc3150.Library.Rearrange
import Csc3150.Mmap.Requests
import Csc3150.Mmap.Files
import Csc3150.Mmap.Teardown
import Csc3150.Mmap.Fork
import Csc3150.Library.SlotMap
import Csc3150.Namespace.Name
import Csc3150.Namespace.Entries
import Csc3150.Namespace.Functions
import Csc3150.Namespace.System
import Csc3150.Namespace.Holding
import Csc3150.Namespace.Directory
import Csc3150.Namespace.DirectoryMap
import Csc3150.Library.Monitor
import Csc3150.Adventure.Model
import Csc3150.Adventure.Sections
import Csc3150.Adventure.Start
import Csc3150.Adventure.Shards
import Csc3150.Adventure.Screen
import Csc3150.Adventure.Ending
import Csc3150.Adventure.Collision
import Csc3150.Mmap.Paging
import Csc3150.Mmap.SharedWrites
import Csc3150.Mmap.Transaction
import Csc3150.Mmap.WriteBack
import Csc3150.Namespace.Walking
import Csc3150.Namespace.Space
import Csc3150.Namespace.Creating
import Csc3150.Namespace.Symlink
import Csc3150.Namespace.Lookup
import Csc3150.Namespace.Composing
import Csc3150.Namespace.Following
import Csc3150.Namespace.Targets
import Csc3150.Namespace.DirectoryRun
import Csc3150.Namespace.Ledger
import Csc3150.Namespace.Books
import Csc3150.Namespace.Filled
import Csc3150.Namespace.Balance
import Csc3150.Namespace.Serving
import Csc3150.Namespace.TargetBound
import Csc3150.Namespace.Opening
import Csc3150.Namespace.Failing
import Csc3150.Pstree.Model
import Csc3150.Pstree.Building
import Csc3150.Pstree.Accounting
import Csc3150.Pstree.Forest
import Csc3150.Pstree.Stat
import Csc3150.Pstree.Entries
import Csc3150.Pstree.Bars
import Csc3150.Pstree.Bounds
import Csc3150.Pstree.Touched
import Csc3150.Pstree.Memory
import Csc3150.Lifecycle.Model
import Csc3150.Lifecycle.Outline
import Csc3150.Lifecycle.Family
import Csc3150.Lifecycle.Reaping
import Csc3150.Lifecycle.Locks
import Csc3150.Lifecycle.Signals
import Csc3150.Lifecycle.Tree
import Csc3150.Mmap.Frames
import Csc3150.Mmap.Conservation
import Csc3150.Library.Keeping
import Csc3150.Mmap.Guarding
import Csc3150.Mmap.Isolation
import Csc3150.Launcher.Report
import Csc3150.Library.Stopping
import Csc3150.Adventure.Stopping
import Csc3150.Namespace.Naming
import Csc3150.Namespace.RoundTrip
