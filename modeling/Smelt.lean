import Smelt.Lib.Run
import Smelt.Lib.Fifo
import Smelt.Lib.Ring
import Smelt.Lib.Tree
import Smelt.Lib.Rounds
import Smelt.Lib.Slots
import Smelt.Lib.Loop
import Smelt.Lib.Network
import Smelt.Message
import Smelt.Queuepair
import Smelt.Ump.Queue
import Smelt.Ump.Inv
import Smelt.Ump.Refine
import Smelt.Ump.Backend
import Smelt.Ump.Window
import Smelt.Ump.Flow
import Smelt.Ffq.Queue
import Smelt.Ffq.Refine
import Smelt.Ffq.Backend
import Smelt.Ffq.Values
import Smelt.Shm.Swmr
import Smelt.Shm.Ring
import Smelt.Shm.Delivery
import Smelt.Shm.Calls
import Smelt.Shm.Progress
import Smelt.Shm.Queue
import Smelt.Shm.Pair
import Smelt.Shm.Poll
import Smelt.Shm.Layout
import Smelt.Shm.Announce
import Smelt.Collective.Machine
import Smelt.Collective.Net
import Smelt.Collective.Count
import Smelt.Collective.Match
import Smelt.Collective.Barrier
import Smelt.Collective.Progress
import Smelt.Collective.Reduce
import Smelt.Dissem.Barrier
import Smelt.Dissem.Overflow
import Smelt.Dissem.Safe
import Smelt.Topology.Model
import Smelt.Topology.Parse
import Smelt.Topology.Encode
import Smelt.Topology.Accept
import Smelt.Topology.Binary
import Smelt.Topology.Leafs
import Smelt.Lib.Prog
import Smelt.Lib.Buffer
import Smelt.Buffers
import Smelt.Channel
import Smelt.Channel.Calls
import Smelt.Channel.Bounds
import Smelt.Channel.Recv
import Smelt.Dissem.Progress
import Smelt.Node
import Smelt.Context
import Smelt.Send.Path
import Smelt.Send.Pair
import Smelt.Send.Law
import Smelt.Node.Routing
import Smelt.Session
import Smelt.Ump.Line
import Smelt.Ffq.Line
import Smelt.Shm.Line
import Smelt.Backends
import Smelt.Lib.Exchange
import Smelt.Lib.Bytes
import Smelt.Topology.Iterate
import Smelt.Bench.Sort
import Smelt.Bench.Analysis
import Smelt.Platform.Alloc
import Smelt.Platform.Cluster
import Smelt.Generator.Document
import Smelt.Generator.Decode
import Smelt.Generator.Fetch
import Smelt.Generator.Attempts
import Smelt.Lib.Fair
import Smelt.Collective.Finish
import Smelt.Dissem.Finish
import Smelt.Collective.Access
import Smelt.Topology.Trees
import Smelt.Collective.Context
import Smelt.Collective.Startup
import Smelt.Collective.Poll
import Smelt.Generator.Served
import Smelt.Lib.Spread
import Smelt.Bench.McsBarrier
import Smelt.Bench.FlagBarrier
import Smelt.Bench.McsLockFinish
import Smelt.Collective.AccessFinish
