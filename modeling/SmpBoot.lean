import SmpBoot.Lib.Run
import SmpBoot.Lib.Prog
import SmpBoot.Lib.Radix
import SmpBoot.Lib.Serial
import SmpBoot.Config
import SmpBoot.Mm
import SmpBoot.MmSpec
import SmpBoot.MmTables
import SmpBoot.MmMap
import SmpBoot.MmHeap
import SmpBoot.MmInit
import SmpBoot.MmRuns
import SmpBoot.MmShared
import SmpBoot.MmWindow
import SmpBoot.Halt
import SmpBoot.BenchMem
import SmpBoot.Sync
import SmpBoot.ApicInit
import SmpBoot.HwInfo
import SmpBoot.Lib.CLayout
import SmpBoot.Boot32
import SmpBoot.Boot32Bounds
import SmpBoot.Lib.Walk
import SmpBoot.Rounds
import SmpBoot.Menu
import SmpBoot.GlobalBarrier
import SmpBoot.Collective
import SmpBoot.BringUp
import SmpBoot.HwLists
import SmpBoot.Tables
import SmpBoot.StartIpis
import SmpBoot.Cmdline
import SmpBoot.Screen
import SmpBoot.Worker
import SmpBoot.WorkerRuns
import SmpBoot.Freemap
import SmpBoot.FreeFrames
import SmpBoot.MemoryMap
import SmpBoot.Registered
import SmpBoot.MmWalk
import SmpBoot.Space32
import SmpBoot.Reconf
import SmpBoot.Sources
import SmpBoot.Lib.ByteMem
import SmpBoot.Lib.Terminal
import SmpBoot.Video
import SmpBoot.VideoTerminal
import SmpBoot.Flags
import SmpBoot.Stop
import SmpBoot.TableReads
import SmpBoot.RootSearch
import SmpBoot.MpsSums
import SmpBoot.CpuFeatures
import SmpBoot.Printf
import SmpBoot.Lib.Narrow
import SmpBoot.Udivdi3
import SmpBoot.Itoa
import SmpBoot.PrintfLibc
import SmpBoot.FormatReads
import SmpBoot.Keyboard
import SmpBoot.Scrollback
import SmpBoot.Tsc
import SmpBoot.Pci
import SmpBoot.Atoi
import SmpBoot.Foreach
import SmpBoot.Lib.CLoop
import SmpBoot.BenchMenu
import SmpBoot.Interrupt
import SmpBoot.Lib.StackCode
import SmpBoot.Interrupt32
import SmpBoot.Idt
import SmpBoot.RangeStride
import SmpBoot.Duels
import SmpBoot.Start64
import SmpBoot.Lib.Tlb
import SmpBoot.Shootdown
import SmpBoot.BenchAccess
import SmpBoot.BenchModes
import SmpBoot.Phased
import SmpBoot.Lib.RaceFree
import SmpBoot.TestsMm
import SmpBoot.Capacity
