import SpinEmu.Lib.Program
import SpinEmu.Lib.LinkRouting
import SpinEmu.Lib.Machine
import SpinEmu.Topology
import SpinEmu.ReadyPath
import SpinEmu.ReadyGo
import SpinEmu.AppRoutes
import SpinEmu.Requesters
import SpinEmu.ReadyLoss
import SpinEmu.ReadyScans
import SpinEmu.Lib.Tally
import SpinEmu.AppStart
import SpinEmu.QueueAddress
import SpinEmu.RunningCount
import SpinEmu.BoardSetup
import SpinEmu.SdpDelivery
import SpinEmu.Wakeup
import SpinEmu.KeyOrder
import SpinEmu.FloodFill
import SpinEmu.IpTags
import SpinEmu.Launch
import SpinEmu.RemoteMemory
import SpinEmu.RequestReplies
import SpinEmu.RingBuffer
import SpinEmu.LinkMesh
import SpinEmu.ChipNumbers
import SpinEmu.CoreCounts
import SpinEmu.DmaTransfers
import SpinEmu.Malloc
import SpinEmu.SavedApp
import SpinEmu.TagEntries
import SpinEmu.NullCallbacks
import SpinEmu.SignalMask
import SpinEmu.ScheduledCallback
import SpinEmu.LcfgErrors
import SpinEmu.EmuMain
import SpinEmu.EmulatorParts
import SpinEmu.MemoryTurns
import SpinEmu.Timer
import SpinEmu.Printing
