import XosKernel.ConsoleLayout
import XosKernel.BootmemReserve
import XosKernel.SetupMemory
import XosKernel.E820Region
import XosKernel.E820WellFormed
import XosKernel.E820Copy
import XosKernel.E820Walk
import XosKernel.EfiHandover
import XosKernel.PagetableWalk
import XosKernel.EarlyTables
import XosKernel.EfiNovamap
import XosKernel.EfiRelease
import XosKernel.VsnprintfBuffer
import XosKernel.VsnprintfDirective
import XosKernel.BootmemGoal
import XosKernel.BootmemBehind
import XosKernel.BootmemBounds
import XosKernel.BootmemRanges
import XosKernel.EfiMemoryMap
import XosKernel.EfiExitBoot
import XosKernel.RegionLayout
import XosKernel.EfiVirtmapPlace
import XosKernel.EfiRuntimeMap
import XosKernel.Utf8
import XosKernel.PrintkUtf8
import XosKernel.ZoneModel
import XosKernel.ZonePages
import XosKernel.ZoneInit
import XosKernel.ZoneLayout
import XosKernel.E820Order
import XosKernel.ConsoleScroll
import XosKernel.PutDecimal
import XosKernel.StringLength
import XosKernel.Utf16
import XosKernel.WideText
import XosKernel.KallsymsModel
import XosKernel.KallsymsSearch
import XosKernel.KallsymsNames
import XosKernel.SprintSymbol
import XosKernel.LinkedRing
import XosKernel.NodeLists
import XosKernel.ListHead
import XosKernel.ListStep
import XosKernel.ListRun
import XosKernel.EfiPuts
import XosKernel.PairCode
import XosKernel.KallsymsScript
import XosKernel.KallsymsCompress
import XosKernel.KallsymsTokens
import XosKernel.KallsymsOrder
import XosKernel.KallsymsWritten
import XosKernel.SlotChain
import XosKernel.HashList
import XosKernel.HashListRun
import XosKernel.ListLoops
import XosKernel.DeviceDriver
import XosKernel.SerialModel
import XosKernel.SerialCalls
import XosKernel.PrintkModel
import XosKernel.PrintkRun
import XosKernel.EarlyPaging
import XosKernel.ZoneBoot
import XosKernel.E820Maximal
import XosKernel.SetupArch
import XosKernel.KallsymsQueries
