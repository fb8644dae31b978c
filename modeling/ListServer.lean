import ListServer.Agreement
import ListServer.CarLifetime
import ListServer.ChainControl
import ListServer.ChainHealing
import ListServer.ChainPairs
import ListServer.ChainProgress
import ListServer.ChainServer
import ListServer.ClientCommands
import ListServer.ClientSlots
import ListServer.ClientStub
import ListServer.ClientWatch
import ListServer.Clocks
import ListServer.DeadSuccessor
import ListServer.Divergence
import ListServer.EndOfFile
import ListServer.Framing
import ListServer.JoinCopy
import ListServer.JoinProgress
import ListServer.Joining
import ListServer.Journal
import ListServer.LastServer
import ListServer.Lib.Bubble
import ListServer.Lib.CTypes
import ListServer.Lib.Decimal
import ListServer.Lib.Difference
import ListServer.Lib.Fields
import ListServer.Lib.Footprint
import ListServer.Lib.History
import ListServer.Lib.Memory
import ListServer.Lib.Neighbour
import ListServer.Lib.Pieces
import ListServer.Lib.Pointer
import ListServer.Lib.Queue
import ListServer.Lib.Refinement
import ListServer.Lib.Replication
import ListServer.Lib.Transducer
import ListServer.Lib.Transition
import ListServer.Lib.TwoRuns
import ListServer.Lib.Wire
import ListServer.Linearizability
import ListServer.Link
import ListServer.ListSafety
import ListServer.LogQueue
import ListServer.Membership
import ListServer.MemoryList
import ListServer.OrderIndependence
import ListServer.PackedSize
import ListServer.ReadsAnywhere
import ListServer.RemoteCalls
import ListServer.ReplyDiscipline
import ListServer.RequestSafety
import ListServer.ServerAddress
import ListServer.ServerLog
import ListServer.Session
import ListServer.Shutdown
import ListServer.Startup
import ListServer.StateTransfer
import ListServer.StoredCars
import ListServer.StubSafety
import ListServer.Terminal
import ListServer.Topology
import ListServer.WriteOrder
import ListServer.YearQuery
import ListServer.Connections
