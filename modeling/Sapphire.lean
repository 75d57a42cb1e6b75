import Sapphire.Descriptors
import Sapphire.FrameAlloc.Exact
import Sapphire.FrameAlloc.Marks
import Sapphire.Framebuffer.Line
import Sapphire.Framebuffer.Pixels
import Sapphire.Heap.Aligned
import Sapphire.Interrupt.Frame
import Sapphire.Keyboard.Interrupts
import Sapphire.Keyboard.Overflow
import Sapphire.Keyboard.Shift
import Sapphire.Kmain
import Sapphire.Kmain.Output
import Sapphire.Lib.Descriptor
import Sapphire.Lib.Trace
import Sapphire.Pic
import Sapphire.Pic.Remap
import Sapphire.Pic.Service
import Sapphire.Platform.BootInfo
import Sapphire.Platform.Client
import Sapphire.Platform.Kmalloc
import Sapphire.Platform.Locals
import Sapphire.Platform.Mappings
import Sapphire.Platform.Owned
import Sapphire.Platform.Reuse
import Sapphire.Print.Cursor
import Sapphire.Print.Report
import Sapphire.Screen.Text
import Sapphire.Stage1.DiskRead
import Sapphire.Stage2.E820
import Sapphire.Syscall.Read
import Sapphire.Syscall.Tty
import Sapphire.Syscall.Unknown
import Sapphire.Vmm.Pointers
