import EmmaNode.Wakeup
import EmmaNode.StrayBlocks
import EmmaNode.Responses
import EmmaNode.RoundTrip
import EmmaNode.SharedIndex
import EmmaNode.BlockCuts
import EmmaNode.Acceptance
import EmmaNode.Dispatch
import EmmaNode.TornAgents
import EmmaNode.Renewal
import EmmaNode.Isolation
import EmmaNode.AgentFiles
import EmmaNode.Footprint
import EmmaNode.Delivery
import EmmaNode.RootList
import EmmaNode.ReaderContract
import EmmaNode.Sections
import EmmaNode.AddressMemory
import EmmaNode.GetFrame
import EmmaNode.OperatorCore
import EmmaNode.ArithmeticSteps
import EmmaNode.Watchdog
import EmmaNode.JsonEnds
import EmmaNode.Targets
import EmmaNode.PatternBounds
import EmmaNode.RootTable
import EmmaNode.PathBlock
import EmmaNode.PathSearch
import EmmaNode.WindowUses
import EmmaNode.CoapInPlace
import EmmaNode.PacketSizes
import EmmaNode.Exchange
import EmmaNode.RemoteDelete
import EmmaNode.BlockwiseGet
import EmmaNode.RemotePut
