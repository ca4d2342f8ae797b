import OsProjects.Foundation.Bytes
import OsProjects.Foundation.Iterate
import OsProjects.Foundation.Run
import OsProjects.Foundation.Chain
import OsProjects.Foundation.Loop
import OsProjects.Fsck.Blocks
import OsProjects.Fsck.Entries
import OsProjects.Alloc.Conservation
import OsProjects.Alloc.Rand
import OsProjects.Alloc.Streams
import OsProjects.Alloc.Pool
import OsProjects.Alloc.Dump
import OsProjects.Alloc.Frames
import OsProjects.Sched.Descent
import OsProjects.Sched.Strict
import OsProjects.Fsck.Tree
import OsProjects.Vm.Fork
import OsProjects.Vm.Protection
import OsProjects.Vm.Copy
import OsProjects.Fsck.Dots
import OsProjects.Fsck.Files
import OsProjects.MapReduce.Steps
import OsProjects.Shell.Agreement
import OsProjects.Shell.Search
import OsProjects.Shell.Buffers
import OsProjects.Shell.Input
import OsProjects.Kernel.Hosted
import OsProjects.Fsck.Unused
import OsProjects.Mkfs.Accepted
import OsProjects.Tar.Extraction
import OsProjects.Tar.Names
import OsProjects.Grep.Matching
import OsProjects.Vm.Calls
import OsProjects.Vm.Laws
import OsProjects.MapReduce.Traversal
import OsProjects.Shell.Trim
import OsProjects.Shell.PathList
