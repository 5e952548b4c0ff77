import KernelImx.Logger.Integrity
import KernelImx.Logger.Race
import KernelImx.Ashmem.Memory
import KernelImx.Binder.Buffers
import KernelImx.Binder.Undo
import KernelImx.Locks.Deadlock
import KernelImx.Locks.Ranges
import KernelImx.Sem.Quiescent
import KernelImx.Ids.FiniteMap
import KernelImx.Power.ExpireTimer
import KernelImx.Power.EarlySuspend
import KernelImx.Power.UserWakeLock
import KernelImx.Filter.Attributes
import KernelImx.Filter.Scratch
import KernelImx.Xfrm.Input
import KernelImx.Xfrm.Window
import KernelImx.Netfilter.Confined
import KernelImx.Fragments.Cover
import KernelImx.Fragments.Rejected
import KernelImx.Sctp.Ledger
import KernelImx.Raid.Inverse
import KernelImx.Drbd.Stream
import KernelImx.Resource.Calls
import KernelImx.Radix.Histories
import KernelImx.Btrfs.BitRanges
import KernelImx.Btrfs.Queries
import KernelImx.PageAlloc.Conservation
import KernelImx.Kfifo.Fifo
import KernelImx.Mmap.Unmap
import KernelImx.Mmap.Refused
import KernelImx.Mmap.FreeArea
import KernelImx.Timers.Wheel
import KernelImx.Gsl.Ringbuffer
import KernelImx.Pxp.Descriptors
import KernelImx.Epdc.Geometry
import KernelImx.Epdc.DeferredIo
import KernelImx.Bitmap.Shift
import KernelImx.Ipu.Stripes
import KernelImx.Hid.Codec
import KernelImx.Rational.Best
