import Mp3Os.Lib.Lts
import Mp3Os.Lib.Bytes
import Mp3Os.Lib.Chains
import Mp3Os.Types
import Mp3Os.FileSys
import Mp3Os.Paging
import Mp3Os.Console
import Mp3Os.Process
import Mp3Os.Schedule
import Mp3Os.Keyboard
import Mp3Os.Terminal
import Mp3Os.Syscall
import Mp3Os.System
import Mp3Os.Dispatch
import Mp3Os.Directory
import Mp3Os.Execute
import Mp3Os.Procs
import Mp3Os.Forest
import Mp3Os.Shells
import Mp3Os.Context
import Mp3Os.Io
import Mp3Os.Video
import Mp3Os.Isolation
import Mp3Os.Line
import Mp3Os.Args
import Mp3Os.Lib.Screen
import Mp3Os.Drawing
import Mp3Os.Keys
import Mp3Os.Screens
import Mp3Os.Keyboards
import Mp3Os.Lib.Search
import Mp3Os.Status
import Mp3Os.Files
import Mp3Os.Descriptors
import Mp3Os.Globals
import Mp3Os.Allocation
import Mp3Os.Positions
import Mp3Os.Indices
import Mp3Os.FailedOpen
import Mp3Os.Bare
import Mp3Os.Terminators
import Mp3Os.Content
import Mp3Os.Interleaving
import Mp3Os.Lib.Text
import Mp3Os.Scrolling
import Mp3Os.ReadData
import Mp3Os.Requests
import Mp3Os.Lib.Cursor
import Mp3Os.Sequential
import Mp3Os.Programs
import Mp3Os.Lookup
import Mp3Os.DirRead
import Mp3Os.Editor
import Mp3Os.Modifiers
import Mp3Os.Rate
import Mp3Os.Printf
import Mp3Os.Arguments
import Mp3Os.Traps
import Mp3Os.Calls
import Mp3Os.Undo
import Mp3Os.Erase
import Mp3Os.KeyCalls
import Mp3Os.HardwareCursor
import Mp3Os.Recall
import Mp3Os.Lib.Numerals
import Mp3Os.Interrupts
import Mp3Os.Itoa
import Mp3Os.Lib.StringOps
import Mp3Os.Memory
import Mp3Os.Format
import Mp3Os.Conversions
import Mp3Os.Cat
import Mp3Os.DirCursor
import Mp3Os.Grep
import Mp3Os.Ls
import Mp3Os.Shell
import Mp3Os.Acknowledge
import Mp3Os.Flushes
import Mp3Os.Gates
import Mp3Os.RtcWait
import Mp3Os.Terminals
import Mp3Os.Writes
