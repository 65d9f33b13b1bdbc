import OsLab.Fs.Paths
import OsLab.Fs.Changes
import OsLab.Fs.Inside
import OsLab.Fs.Listing
import OsLab.Fs.Nest
import OsLab.Fs.Pristine
import OsLab.Fs.Guards
import OsLab.Cache.Order
import OsLab.Fs.Vmflush
import OsLab.Fs.PathBuffers
import OsLab.Fs.Pwd
import OsLab.Fs.Cat
import OsLab.Image.Table
import OsLab.Sched.Wakeups
import OsLab.Sched.Harts
import OsLab.Sched.Mailbox
import OsLab.Sched.Arguments
import OsLab.Sched.Barrier
import OsLab.Sched.Waiters
import OsLab.Sched.Kill
import OsLab.Sched.Stays
import OsLab.Sched.Joins
import OsLab.Sched.Closing
import OsLab.Sched.Condition
import OsLab.Sched.Dispatch
import OsLab.Sched.Sleeping
import OsLab.Mm.Bitmaps
import OsLab.Mm.Break
import OsLab.Mm.Resident
import OsLab.Mm.Stacks
import OsLab.Mm.Mapping
import OsLab.Mm.Satp
import OsLab.Mm.Heap
import OsLab.Mm.Protect
import OsLab.Mm.Clock
import OsLab.Mm.Ioremap
import OsLab.Mm.PageMap
import OsLab.FullTables
import OsLab.Net.Burst
import OsLab.Net.Poll
import OsLab.Drivers.Screen
import OsLab.Libc.Printk
import OsLab.Libc.Runs
