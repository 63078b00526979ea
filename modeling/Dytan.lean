import Dytan.Bitset
import Dytan.Taint.State
import Dytan.Taint.Range
import Dytan.Taint.Marks
import Dytan.Taint.PopControl
import Dytan.Instrument.Handlers
import Dytan.Instrument.Run
import Dytan.Instrument.Scratch
import Dytan.Instrument.Renaming
import Dytan.Instrument.Monotone
import Dytan.Instrument.Flow
import Dytan.Instrument.Equations
import Dytan.Instrument.Exactness
import Dytan.Instrument.Cmov
import Dytan.Instrument.Cmpxchg
import Dytan.Instrument.MultiOperand
import Dytan.Instrument.Loads
import Dytan.Instrument.Strings
import Dytan.Instrument.AddressTaint
import Dytan.Instrument.BitScan
import Dytan.Instrument.Profile
import Dytan.Instrument.ProfileKeys
import Dytan.Instrument.Report
import Dytan.Lib.Footprint
import Dytan.Instrument.Footprint
import Dytan.Instrument.SavedFlags
import Dytan.Instrument.PreservedFlags
import Dytan.Taint.SubRegister
import Dytan.Taint.Clear
import Dytan.Tool.Config
import Dytan.Tool.Sources
import Dytan.Tool.Draws
import Dytan.Tool.Coverage
import Dytan.Tool.MarkGenerator
import Dytan.Tool.ReadCallbacks
import Dytan.Tool.Tags
import Dytan.Tool.TagIds
import Dytan.Lib.Run
import Dytan.Lib.Simulation
import Dytan.Lib.Heap
import Dytan.Taint.Pointers
import Dytan.Taint.PutGet
import Dytan.Taint.RegisterWrites
import Dytan.Monitor.Dispatch
import Dytan.Monitor.Path
import Dytan.Lib.OrderedMap
import Dytan.Monitor.Network
import Dytan.Monitor.AddressOrder
import Dytan.Monitor.Handlers
import Dytan.Monitor.System
import Dytan.Monitor.SocketFaults
import Dytan.Monitor.Provenance
import Dytan.Monitor.Coarse
import Dytan.Monitor.Granularity
import Dytan.Monitor.Failed
import Dytan.Monitor.Frame
import Dytan.Monitor.Reads
import Dytan.Machine.Step
import Dytan.Machine.Soundness
import Dytan.Tool.MainArguments
import Dytan.Tool.ConfigParser
import Dytan.Tool.ConfigFile
import Dytan.Tool.InstalledSources
import Dytan.Tool.Graph.BasicBlock
import Dytan.Lib.PostDom
import Dytan.Tool.Graph.PostDominance
import Dytan.Tool.Graph.TreeBuilder
import Dytan.Tool.Graph.RoutineGraph
import Dytan.Tool.Graph.Routine
import Dytan.Tool.Graph.Edges
import Dytan.Tool.Graph.Scan
import Dytan.Tool.Graph.EdgesExact
import Dytan.Tool.Graph.Ipdom
import Dytan.Tool.Graph.Controlflow
import Dytan.Tool.Graph.Activations
import Dytan.Tool.Graph.Regions
import Dytan.Tool.Graph.Listing
import Dytan.Tool.Graph.Partition
import Dytan.Tool.Graph.Mirrored
import Dytan.Tool.Graph.Pass
import Dytan.Tool.Graph.PassRun
import Dytan.Tool.Graph.TreeAgrees
import Dytan.Tool.Graph.Followed
import Dytan.Lib.Ticket
import Dytan.IMA.InstrumentIMA
import Dytan.IMA.Grouped
import Dytan.IMA.Attached
import Dytan.IMA.Execution
import Dytan.IMA.AllocationIds
import Dytan.IMA.FailedAllocations
import Dytan.IMA.Memory
import Dytan.IMA.Trace
import Dytan.IMA.Erasure
import Dytan.IMA.PointerCells
import Dytan.IMA.Progress
import Dytan.IMA.Preserved
import Dytan.IMA.Marks
import Dytan.IMA.Loop
import Dytan.IMA.OnlyInserts
import Dytan.Lib.Accumulator
import Dytan.Lib.FixedWidth
import Dytan.Lib.Dominance
import Dytan.Lib.BitWords
import Dytan.BitsetWords
import Dytan.Monitor.Threads
import Dytan.Lib.Accounts
import Dytan.Taint.Leaks
import Dytan.Monitor.Realized
