import Pintos.Filesys.Contents
import Pintos.Filesys.OpenInodes
import Pintos.Filesys.Creation
import Pintos.Filesys.DirMap
import Pintos.Userprog.Descriptors
import Pintos.Userprog.Wait
import Pintos.Filesys.WriteBehind
import Pintos.Filesys.EntryLock
import Pintos.Vm.Locks
import Pintos.Vm.PageContents
import Pintos.Userprog.ExitLocks
import Pintos.Userprog.Tables
import Pintos.Userprog.ExitStatus
import Pintos.Filesys.FreeMap
import Pintos.Filesys.DenyWrite
import Pintos.Userprog.Munmap
import Pintos.Userprog.Paths
import Pintos.Lib.HashSet
import Pintos.Threads.Counting
import Pintos.Devices.Intq
import Pintos.Userprog.AddressSpaces
import Pintos.Threads.MallocRuns
import Pintos.Filesys.Exhaustion
import Pintos.Vm.Eviction
import Pintos.Userprog.Listing
import Pintos.Lib.Arithmetic
import Pintos.Lib.Conversions
import Pintos.Threads.MallocSizes
import Pintos.Lib.ListSort
import Pintos.Lib.HashIterator
import Pintos.Userprog.Segments
import Pintos.Userprog.Stack
import Pintos.Vm.Faults
import Pintos.Devices.IntqFifo
import Pintos.Lib.Strtok
import Pintos.Lib.Atoi
import Pintos.Lib.HeapSort
import Pintos.Lib.ListFamily
import Pintos.Vm.SwapDisk
import Pintos.Lib.BitmapWords
import Pintos.Userprog.PathReads
import Pintos.Userprog.PathStops
