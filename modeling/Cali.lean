import Cali.Lib.Run
import Cali.Lib.Gap
import Cali.Lib.EState
import Cali.Lib.Ownership
import Cali.Shm.ByteBitset
import Cali.Shm.PageSearch
import Cali.Shm.Manager
import Cali.Shm.Allocation
import Cali.Lib.Merge
import Cali.Lib.Loop
import Cali.Graph.BaseGraph
import Cali.Passes.PDG
import Cali.Passes.Unite
import Cali.Passes.UnitePairs
import Cali.Passes.UniteQuotient
import Cali.Passes.UniteMarks
import Cali.Passes.Subnodes
import Cali.Passes.Sharedness
import Cali.Graph.Slots
import Cali.Passes.Creation
import Cali.Lib.Index
import Cali.Passes.Index
import Cali.Graph.Bfs
import Cali.Lib.Sweep
import Cali.Passes.Reachability
import Cali.Graph.Dfs
import Cali.Lib.Lowlink
import Cali.Graph.Tarjan
import Cali.Graph.BottomUp
import Cali.Graph.Condensation
import Cali.Passes.DataDrivenScc
import Cali.Ipc.Token
import Cali.Ipc.Concurrent
import Cali.Ipc.Services
import Cali.Lib.Bpf
import Cali.Seccomp.Filter
import Cali.Linker.Config
import Cali.Linker.Modules
import Cali.Linker.Arguments
import Cali.Linker.Loading
import Cali.Linker.Order
import Cali.Linker.Inputs
import Cali.Linker.Redirect
import Cali.Lib.Pairing
import Cali.Ipc.Descriptors
import Cali.Ipc.SendingLock
import Cali.Lib.Arena
import Cali.Ipc.Callbacks
import Cali.Lib.LabelledGraph
import Cali.Shm.Mapping
import Cali.Graph.Adjacency
import Cali.Graph.Reach
import Cali.Passes.Marking
import Cali.Passes.Summary
import Cali.Lib.Record
import Cali.Passes.CloneEdges
import Cali.Passes.CloneFunction
import Cali.Shm.Requests
import Cali.Ipc.StatusLock
import Cali.Linker.Wrappers
import Cali.Shm.SearchReads
import Cali.Shm.Contents
import Cali.Lib.KeyedSearch
import Cali.Passes.SharingSearch
import Cali.Passes.TypeTree
import Cali.Passes.Extension
import Cali.Passes.CallTaint
import Cali.Passes.Frames
import Cali.Passes.UnitedNodes
import Cali.Lib.Stack
import Cali.Passes.Levels
import Cali.Passes.Ends
import Cali.Lib.Propagation
import Cali.Passes.SharedPointees
import Cali.Ipc.CallbackTable
import Cali.Ipc.TableIndices
import Cali.Shm.Lengths
import Cali.Lib.Language
import Cali.Linker.Glob
import Cali.Linker.Libtool
import Cali.Linker.Substitution
import Cali.Ipc.StackCopies
import Cali.Passes.StructClusters
import Cali.Graph.Counters
import Cali.Instrument.Marker
import Cali.Instrument.IntervalMap
import Cali.Instrument.Allocations
import Cali.Lib.AppendNew
import Cali.Nsjail.Mounts
import Cali.Nsjail.ArgumentMounts
import Cali.Linker.Generator
import Cali.Ipc.RemoteCalls
import Cali.Ipc.Transparency
import Cali.Passes.Specialization
