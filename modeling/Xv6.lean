import Xv6.Device.ReadFailure
import Xv6.Device.VirtioSpec
import Xv6.User.MallocLimits
import Xv6.User.Grep
import Xv6.User.ShellSpec
import Xv6.Log.Admission
import Xv6.Sched.Pids
import Xv6.Sched.InterruptSpec
import Xv6.Vm.ElfImage
import Xv6.Vm.Tables
import Xv6.Vm.ExecUndo
import Xv6.Fs.Inode
import Xv6.Fs.Names
import Xv6.Fs.Calls
import Xv6.Fs.InodeSpec
import Xv6.Fs.Directory
import Xv6.Fs.Paths
import Xv6.Fs.DirMap
import Xv6.Fs.Links
import Xv6.Fs.CallSpec
import Xv6.Fs.LinkCounts
import Xv6.Fs.DirRuns
import Xv6.Disk.Coherence
import Xv6.Disk.Durable
import Xv6.Disk.FileWrite
