import RtThread.Kernel.Timeout
import RtThread.Ipc.Semaphore
import RtThread.Ipc.Inherit
import RtThread.Ipc.Order
import RtThread.Ipc.Event
import RtThread.Ipc.Mqueue
import RtThread.Mempool
import RtThread.Timer.Order
import RtThread.Timer.Soft
import RtThread.Drivers.Dataqueue
import RtThread.Drivers.SerialRead
import RtThread.Drivers.Workqueue
import RtThread.Kservice.Vsnprintf
import RtThread.Signal.Masking
import RtThread.Device
import RtThread.Finsh.Complete
import RtThread.Finsh.Stack
import RtThread.Finsh.Correct
import RtThread.Bsp.PositionLoop
import RtThread.Bsp.ModbusReply
import RtThread.Finsh.Auth
import RtThread.Finsh.Split
import RtThread.Dfs.Descriptors
import RtThread.Finsh.Collect
import RtThread.Libc.Clock
import RtThread.Mem.Complete
import RtThread.Utilities.Ymodem
import RtThread.Libc.Rwlock
import RtThread.Dfs.Ramfs
import RtThread.Vbus
import RtThread.Libc.Calendar
import RtThread.Vbus.Watermark
import RtThread.Dfs.Select
import RtThread.Drivers.Completion
import RtThread.Kernel.Idle
