import Atrace.Lib.Run
import Atrace.Signal.BpIndexMap
import Atrace.Signal.SlotMemory
import Atrace.Lib.Memory
import Atrace.Signal.MapsFormat
import Atrace.Signal.SlotThreads
import Atrace.Signal.MapsParser
import Atrace.Signal.Breakpoint
import Atrace.Signal.BreakpointAdd
import Atrace.Signal.SlotLayout
import Atrace.Signal.TextPatch
import Atrace.Signal.BreakpointEnable
import Atrace.Signal.Slotted
import Atrace.Signal.ThreadMap
import Atrace.Signal.Handler
import Atrace.Signal.Stepping
import Atrace.Signal.StartUp
import Atrace.Signal.PatchThreads
import Atrace.Signal.TextInv
import Atrace.Signal.ControlInv
import Atrace.Signal.System
import Atrace.Signal.Sections
import Atrace.Signal.Transparency
import Atrace.Ptrace.Breakpoint
import Atrace.Ptrace.Patches
import Atrace.Ptrace.LifeCycle
import Atrace.Signal.ThreadTable
import Atrace.Signal.AddressLookup
import Atrace.Signal.LoadThreads
import Atrace.Ptrace.Thread
import Atrace.Signal.Unload
import Atrace.Ptrace.StopAll
import Atrace.Signal.Reentry
import Atrace.Signal.Adders
import Atrace.Signal.AddersInv
import Atrace.Signal.AddersProgress
import Atrace.Signal.AddersOutcome
import Atrace.Signal.AddersAlone
import Atrace.Signal.SlotCalls
import Atrace.Ptrace.PatchFailures
import Atrace.Ptrace.Resume
import Atrace.Ptrace.BreakpointFind
import Atrace.Signal.MapsInode
import Atrace.Ptrace.MapsInode
import Atrace.Signal.MapsMalformed
import Atrace.Signal.HexToInt
import Atrace.Signal.RangeField
import Atrace.Signal.MapsRead
import Atrace.Lib.LittleEndian
import Atrace.Lib.Ring
import Atrace.Lib.BitField
import Atrace.Ptrace.ErrorCode
import Atrace.Ptrace.ThreadList
import Atrace.Signal.EntryPoint
import Atrace.Signal.PatchReport
import Atrace.Signal.Operable
import Atrace.Ptrace.RunAll
import Atrace.Lib.LinkedTree
import Atrace.Lib.RedBlack
import Atrace.Lib.TreeEdits
import Atrace.Signal.RbErase
import Atrace.Signal.RbOperations
import Atrace.Signal.RbIndexMap
import Atrace.Signal.RbAugment
import Atrace.Signal.ThreadLinks
import Atrace.Signal.MapsReload
import Atrace.Ptrace.MapsReload
import Atrace.Ptrace.ThreadRuns
import Atrace.Ptrace.Planted
import Atrace.Ptrace.Transparency
import Atrace.Ptrace.EntryBreakpoint
import Atrace.Ptrace.MapsAgree
