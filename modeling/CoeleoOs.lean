import CoeleoOs.Boot.Acpi
import CoeleoOs.Boot.Rtc
import CoeleoOs.Bus.XhciEnumerate
import CoeleoOs.Bus.XhciEvents
import CoeleoOs.Bus.XhciRing
import CoeleoOs.Edit.File
import CoeleoOs.Edit.Keys
import CoeleoOs.Edit.Program
import CoeleoOs.Fs.Blk
import CoeleoOs.Fs.FatDisk
import CoeleoOs.Fs.FatErrors
import CoeleoOs.Fs.FatFlat
import CoeleoOs.Fs.FatLoop
import CoeleoOs.Fs.FileIo
import CoeleoOs.Fs.Gpt
import CoeleoOs.Fs.Install
import CoeleoOs.Fs.LiveRoot
import CoeleoOs.Fs.Mount
import CoeleoOs.Fs.Part
import CoeleoOs.Fs.Resolve
import CoeleoOs.Fs.UsbRead
import CoeleoOs.Fs.Wizard
import CoeleoOs.Fs.Works
import CoeleoOs.Input.Kbd
import CoeleoOs.Input.KeyStream
import CoeleoOs.Input.Mouse
import CoeleoOs.Input.Ps2
import CoeleoOs.Input.Uhci
import CoeleoOs.Input.UsbConfig
import CoeleoOs.Input.UsbHid
import CoeleoOs.Lib.BoundedStack
import CoeleoOs.Lib.Budget
import CoeleoOs.Lib.Calendar
import CoeleoOs.Lib.Calls
import CoeleoOs.Lib.Cell
import CoeleoOs.Lib.Checked
import CoeleoOs.Lib.Client
import CoeleoOs.Lib.CommonPrefix
import CoeleoOs.Lib.Crc
import CoeleoOs.Lib.EarlyExit
import CoeleoOs.Lib.EditDistance
import CoeleoOs.Lib.Effect
import CoeleoOs.Lib.Fallible
import CoeleoOs.Lib.FileStore
import CoeleoOs.Lib.FirstRun
import CoeleoOs.Lib.InPlace
import CoeleoOs.Lib.Lines
import CoeleoOs.Lib.Machine
import CoeleoOs.Lib.Mailbox
import CoeleoOs.Lib.Memo
import CoeleoOs.Lib.Outline
import CoeleoOs.Lib.PhaseRing
import CoeleoOs.Lib.Pixel
import CoeleoOs.Lib.RecordChain
import CoeleoOs.Lib.Ring
import CoeleoOs.Lib.RoundRobin
import CoeleoOs.Lib.Script
import CoeleoOs.Lib.Signal
import CoeleoOs.Lib.Slot
import CoeleoOs.Lib.Table
import CoeleoOs.Lib.TermRow
import CoeleoOs.Lib.Text
import CoeleoOs.Lib.Visits
import CoeleoOs.Lib.ZOrder
import CoeleoOs.Mem.CHeap
import CoeleoOs.Mem.Frames
import CoeleoOs.Mem.Pmm
import CoeleoOs.Mem.UserSlice
import CoeleoOs.Mem.Vmm
import CoeleoOs.Net.Config
import CoeleoOs.Net.E1000e
import CoeleoOs.Net.E1000eRx
import CoeleoOs.Net.Http
import CoeleoOs.Net.HttpGet
import CoeleoOs.Net.Request
import CoeleoOs.Net.TlsGet
import CoeleoOs.Net.Url
import CoeleoOs.Package.Format
import CoeleoOs.Sh.AliasSlots
import CoeleoOs.Sh.Browse
import CoeleoOs.Sh.Cat
import CoeleoOs.Sh.Cells
import CoeleoOs.Sh.CellsLine
import CoeleoOs.Sh.Complete
import CoeleoOs.Sh.CopyMove
import CoeleoOs.Sh.CtrlD
import CoeleoOs.Sh.Cwd
import CoeleoOs.Sh.Dispatch
import CoeleoOs.Sh.Files
import CoeleoOs.Sh.Grammar
import CoeleoOs.Sh.Grep
import CoeleoOs.Sh.HeadTail
import CoeleoOs.Sh.HistoryRing
import CoeleoOs.Sh.Line
import CoeleoOs.Sh.Pipeline
import CoeleoOs.Sh.PkgInstall
import CoeleoOs.Sh.PkgWorks
import CoeleoOs.Sh.ReadLine
import CoeleoOs.Sh.ReadLineRefines
import CoeleoOs.Sh.Readdir
import CoeleoOs.Sh.Screen
import CoeleoOs.Sh.ScreenRun
import CoeleoOs.Sh.SourceEnds
import CoeleoOs.Sh.Suggest
import CoeleoOs.Sh.TextOut
import CoeleoOs.Sh.Tree
import CoeleoOs.Sh.VisibleLine
import CoeleoOs.Sh.Wc
import CoeleoOs.Sh.WordKeys
import CoeleoOs.Sh.Words
import CoeleoOs.Task.Argv
import CoeleoOs.Task.ArgvLayout
import CoeleoOs.Task.Blocked
import CoeleoOs.Task.Caller
import CoeleoOs.Task.Confined
import CoeleoOs.Task.Confinement
import CoeleoOs.Task.ElfFaults
import CoeleoOs.Task.ElfFrames
import CoeleoOs.Task.ElfImage
import CoeleoOs.Task.ElfSegment
import CoeleoOs.Task.Elfload
import CoeleoOs.Task.Fd
import CoeleoOs.Task.Idle
import CoeleoOs.Task.Isolation
import CoeleoOs.Task.NetLock
import CoeleoOs.Task.Open
import CoeleoOs.Task.Orphans
import CoeleoOs.Task.Owners
import CoeleoOs.Task.PageTables
import CoeleoOs.Task.Pids
import CoeleoOs.Task.Pipe
import CoeleoOs.Task.PipeData
import CoeleoOs.Task.PipeRefs
import CoeleoOs.Task.PipeStream
import CoeleoOs.Task.PipeWakeup
import CoeleoOs.Task.ResumeStack
import CoeleoOs.Task.RoundRobin
import CoeleoOs.Task.Running
import CoeleoOs.Task.Sched.Pcb
import CoeleoOs.Task.Sched.Spawn
import CoeleoOs.Task.Sched.Switch
import CoeleoOs.Task.Slots
import CoeleoOs.Task.Steady
import CoeleoOs.Task.Stretch
import CoeleoOs.Task.Switching
import CoeleoOs.Task.Syscall
import CoeleoOs.Task.System
import CoeleoOs.Task.Transition
import CoeleoOs.Task.UserAccess
import CoeleoOs.Task.Wait
import CoeleoOs.Task.ZombieAbsorbing
import CoeleoOs.Ui.Apps
import CoeleoOs.Ui.Buttons
import CoeleoOs.Ui.Chrome
import CoeleoOs.Ui.Clients
import CoeleoOs.Ui.Comp
import CoeleoOs.Ui.Cursor
import CoeleoOs.Ui.Damage
import CoeleoOs.Ui.Deco
import CoeleoOs.Ui.Desk
import CoeleoOs.Ui.Deskset
import CoeleoOs.Ui.Draw
import CoeleoOs.Ui.Events
import CoeleoOs.Ui.Fbterm
import CoeleoOs.Ui.Flags
import CoeleoOs.Ui.Fm
import CoeleoOs.Ui.FmHistory
import CoeleoOs.Ui.FmNav
import CoeleoOs.Ui.FmPaths
import CoeleoOs.Ui.FmSelection
import CoeleoOs.Ui.FmSteps
import CoeleoOs.Ui.Focus
import CoeleoOs.Ui.FocusTop
import CoeleoOs.Ui.Frames
import CoeleoOs.Ui.Glyphs
import CoeleoOs.Ui.Keys
import CoeleoOs.Ui.Layers
import CoeleoOs.Ui.Maximized
import CoeleoOs.Ui.OneOverlay
import CoeleoOs.Ui.Ops
import CoeleoOs.Ui.Overlay
import CoeleoOs.Ui.PanelBar
import CoeleoOs.Ui.Parts
import CoeleoOs.Ui.Pointer
import CoeleoOs.Ui.Present
import CoeleoOs.Ui.Rect
import CoeleoOs.Ui.Reports
import CoeleoOs.Ui.Resize
import CoeleoOs.Ui.Scale
import CoeleoOs.Ui.Sink
import CoeleoOs.Ui.TabCycle
import CoeleoOs.Ui.TaskBar
import CoeleoOs.Ui.TitleElide
import CoeleoOs.Ui.View
import CoeleoOs.Ui.VtPath
import CoeleoOs.Ui.Widgets
import CoeleoOs.Ui.Win
