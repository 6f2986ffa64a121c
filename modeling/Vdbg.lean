import Vdbg.Lib.FaultRun
import Vdbg.Lib.Faults
import Vdbg.Lib.Generators
import Vdbg.Lib.Words
import Vdbg.Lib.Chains
import Vdbg.Lib.FiniteMap
import Vdbg.Lib.Numerals
import Vdbg.Lib.Fields
import Vdbg.Lib.Columns
import Vdbg.Lib.Rings
import Vdbg.Lib.Screen
import Vdbg.Lib.Subroutines
import Vdbg.Lib.Buffers
import Vdbg.Lib.Memo
import Vdbg.Hashmap
import Vdbg.Symbols
import Vdbg.Kernel
import Vdbg.World
import Vdbg.Breakpoint
import Vdbg.BreakpointSpec
import Vdbg.Debugger
import Vdbg.Stepping
import Vdbg.Commands
import Vdbg.Table
import Vdbg.Attach
import Vdbg.Signals
import Vdbg.Running
import Vdbg.Memory
import Vdbg.Prompt
import Vdbg.Session
import Vdbg.Sharing
import Vdbg.Resolution
import Vdbg.Removal
import Vdbg.Continue
import Vdbg.Lifecycle
import Vdbg.Forwarding
import Vdbg.Presence
import Vdbg.InternalStep
import Vdbg.Temporary
import Vdbg.Planting
import Vdbg.Compound
import Vdbg.Registries
import Vdbg.Progress
import Vdbg.Landing
import Vdbg.Ownership
import Vdbg.Residue
import Vdbg.Arrival
import Vdbg.Frames
import Vdbg.NextLine
import Vdbg.Selection
import Vdbg.Arguments
import Vdbg.Backtrace
import Vdbg.CallChain
import Vdbg.Patching
import Vdbg.UserWrites
import Vdbg.Reporting
import Vdbg.Text
import Vdbg.Listing
import Vdbg.Completion
import Vdbg.Tokens
import Vdbg.Options
import Vdbg.Paths
import Vdbg.Enclosing
import Vdbg.Operands
import Vdbg.Annotations
import Vdbg.Image
import Vdbg.ElfTables
import Vdbg.Scripts
import Vdbg.Handlers
import Vdbg.Directory
import Vdbg.Links
import Vdbg.NextBuffer
import Vdbg.CommandCompletion
import Vdbg.SourceWindow
import Vdbg.Unnoticed
import Vdbg.Safety
import Vdbg.BreakpointList
import Vdbg.Program
import Vdbg.Endings
import Vdbg.Keyboard
import Vdbg.Generators
import Vdbg.CompletionSessions
import Vdbg.ElfListing
import Vdbg.MemoryMap
import Vdbg.Registers
import Vdbg.Messages
import Vdbg.Disassembly
