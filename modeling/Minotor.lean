import Minotor.Network.System
import Minotor.Peer.TlcOrder
import Minotor.Peer.Responses
import Minotor.Peer.Acceptor
import Minotor.Peer.TlcBroadcast
import Minotor.Peer.FinalValue
import Minotor.Peer.BestValue
import Minotor.Peer.Restart
import Minotor.Peer.BlockHash
import Minotor.Transport.Packet
import Minotor.Transport.Udp
import Minotor.Transport.Network
import Minotor.Messaging.Listening
import Minotor.Support.RWMutex
import Minotor.Messaging.RegistryCalls
import Minotor.Messaging.RegistryLock
import Minotor.Gossip.OwnRumors
import Minotor.DataSharing.SearchChannel
import Minotor.Peer.Steps
import Minotor.Network.Steps
import Minotor.Network.Guards
import Minotor.Network.PromiseChannel
import Minotor.Network.Delivery
import Minotor.Network.Learner
import Minotor.Network.Validity
import Minotor.Network.Provenance
import Minotor.Support.SingleUse
import Minotor.Network.ExactlyOnce
import Minotor.Network.Proposer
import Minotor.Network.ProposalNumber
import Minotor.Support.Voting
import Minotor.Network.Reports
import Minotor.Network.Choices
import Minotor.Network.Agreement
import Minotor.Network.Names
import Minotor.Network.TagResult
import Minotor.Network.LastDecision
import Minotor.Network.Retry
import Minotor.Gossip.Network
import Minotor.Support.NextHop
import Minotor.Gossip.Steps
import Minotor.Gossip.Routes
import Minotor.Gossip.Exchange
import Minotor.Gossip.StatusAnswer
import Minotor.Gossip.RoutingNode
import Minotor.Gossip.Neighbours
import Minotor.Gossip.Acknowledged
import Minotor.Gossip.Resending
import Minotor.DataSharing.Files
import Minotor.DataSharing.Blobs
import Minotor.DataSharing.RoundTrip
import Minotor.DataSharing.KeyClash
import Minotor.DataSharing.Segmentation
import Minotor.DataSharing.Network
import Minotor.DataSharing.Contents
import Minotor.DataSharing.Steps
import Minotor.DataSharing.Honest
import Minotor.DataSharing.Integrity
import Minotor.DataSharing.Distribution
import Minotor.DataSharing.Search
import Minotor.DataSharing.Catalog
import Minotor.DataSharing.SearchBudget
import Minotor.DataSharing.LocalSearch
import Minotor.DataSharing.OneHop
import Minotor.DataSharing.NameBindings
import Minotor.DataSharing.OwnCatalog
import Minotor.Storage.Refinement
import Minotor.Transport.Delivery
import Minotor.Transport.Order
import Minotor.Transport.Traffic
import Minotor.Transport.Addresses
import Minotor.Structures.Slice
import Minotor.Structures.Map
import Minotor.Gossip.RoutingTableLock
import Minotor.Wire.RoundTrip
import Minotor.Wire.ChainPage
import Minotor.Gossip.Broadcasts
import Minotor.Gossip.AntiEntropy
import Minotor.Topology.Generate
import Minotor.Topology.Repair
import Minotor.Social.Publications
import Minotor.Social.Attacks
import Minotor.Stack.System
import Minotor.Stack.Refinement
import Minotor.Stack.Replication
