import AuroraOS.Ring
import AuroraOS.Machine
import AuroraOS.Kernel
import AuroraOS.Terminal
import AuroraOS.KeyQueue
import AuroraOS.Rtc
import AuroraOS.FileSystem
import AuroraOS.FileRead
import AuroraOS.Paging
import AuroraOS.Sched
import AuroraOS.Gui
import AuroraOS.Task
import AuroraOS.Interrupts
import AuroraOS.System
import AuroraOS.Windows
import AuroraOS.Execute
import AuroraOS.FailedExecute
import AuroraOS.Frames
import AuroraOS.Outcome
import AuroraOS.Effects
import AuroraOS.Isolation
import AuroraOS.PageIds
import AuroraOS.VideoMap
import AuroraOS.Accounting
import AuroraOS.Stacks
import AuroraOS.TaskLists
import AuroraOS.Descriptors
import AuroraOS.Directory
import AuroraOS.Memory
import AuroraOS.SignalFrame
import AuroraOS.TextScreen
import AuroraOS.Console
import AuroraOS.Loader
import AuroraOS.UserBuffers
import AuroraOS.CheckedArray
import AuroraOS.QuickSort
import AuroraOS.Blit
import AuroraOS.Render
import AuroraOS.RenderGrid
import AuroraOS.Painting
import AuroraOS.ReadData
import AuroraOS.BlockTable
import AuroraOS.RtcWakeUp
import AuroraOS.RtcAdmission
import AuroraOS.WindowCalls
import AuroraOS.CString
import AuroraOS.KernelStrings
import AuroraOS.Arguments
import AuroraOS.RoundRobin
import AuroraOS.TimeSlices
import AuroraOS.TerminalResources
import AuroraOS.Pointer
import AuroraOS.OnScreen
import AuroraOS.ButtonEdges
import AuroraOS.Drag
import AuroraOS.Lanes
import AuroraOS.Blend
import AuroraOS.RenderAccesses
import AuroraOS.Buffers
import AuroraOS.Numerals
import AuroraOS.Printf
import AuroraOS.NullPointers
import AuroraOS.WaitingFlags
import AuroraOS.Ownership
import AuroraOS.ActiveWindow
import AuroraOS.Sorting
import AuroraOS.LineWaits
import AuroraOS.ReturnValues
import AuroraOS.BitStream
import AuroraOS.PrefixCode
import AuroraOS.Deflate
import AuroraOS.Ensures
import AuroraOS.InflateBlocks
import AuroraOS.InflateSafe
import AuroraOS.InflateStream
import AuroraOS.MemoryOps
import AuroraOS.WindowObjects
import AuroraOS.ScreenCopy
import AuroraOS.SystemTime
import AuroraOS.InterruptMasks
