import Onyx.Fat.DirOrder
import Onyx.Memory.Lossless
import Onyx.Virtio.Present
import Onyx.Scheduler.Lifecycle
import Onyx.Scheduler.Smp
import Onyx.Sec.Window
import Onyx.Userspace.Failed
import Onyx.Virtio.Matching
import Onyx.Fat.Unlink
import Onyx.Fat.Unique
import Onyx.Fat.Media
import Onyx.Ext2.Media
import Onyx.Fat.Alias
import Onyx.Fat.Orphan
import Onyx.Signin
import Onyx.Block.Boot
import Onyx.Syscall.Posix
import Onyx.Framebuffer.Damage
import Onyx.Ext2.Remount
import Onyx.Syscall.Writev
import Onyx.Fat.Capacity
import Onyx.Scheduler.Fairness
import Onyx.Scheduler.Sleep
import Onyx.Userspace.StartStack
import Onyx.Keyboard.Reader
import Onyx.Font.Cmap
import Onyx.Ksl
import Onyx.Acpi
import Onyx.Perf
import Onyx.Syscall.Tables
import Onyx.Click
import Onyx.Framebuffer.Pixel
import Onyx.Histogram
import Onyx.Ext2.Allocation
import Onyx.Vfs.Mounts
import Onyx.Framebuffer.Pointer
import Onyx.Userspace.Histories
