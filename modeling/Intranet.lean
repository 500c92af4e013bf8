import Intranet.Lib.BTree
import Intranet.Lib.SubMap
import Intranet.Lib.Walk
import Intranet.Lib.Run
import Intranet.Lib.Reach
import Intranet.Lib.Branch
import Intranet.Lib.Codec
import Intranet.Lib.Ending
import Intranet.Lib.Register
import Intranet.Lib.Retry
import Intranet.Lib.Cut
import Intranet.Lib.Trace
import Intranet.Lib.Machine
import Intranet.Lib.Aging
import Intranet.Lib.Earlier
import Intranet.Lib.Worklist
import Intranet.Lib.Inverted
import Intranet.Lib.Checked
import Intranet.Lib.Merkle
import Intranet.Lib.Fair
import Intranet.Lib.Gossip
import Intranet.Lib.Network
import Intranet.Lib.Turns
import Intranet.Lib.Delivery
import Intranet.Ref.Bytes
import Intranet.Ref.Dec
import Intranet.Ref.Policy
import Intranet.Ref.Entry
import Intranet.Ref.Wire
import Intranet.Ref.State
import Intranet.Ref.Log
import Intranet.Ref.Checked
import Intranet.Ref.Sync
import Intranet.Ref.LogNetwork
import Intranet.Ref.Ballots
import Intranet.Ref.Ledger
import Intranet.Ref.LedgerWire
import Intranet.Ref.Pointer
import Intranet.Ref.BallotNetwork
import Intranet.Ref.Join
import Intranet.Ref.InviteWire
import Intranet.Ref.Object
import Intranet.Ref.Fetch
import Intranet.Ref.Replication
import Intranet.Ref.StorageWire
import Intranet.Ref.LedgerNetwork
import Intranet.Ref.PointerSync
import Intranet.Ref.Serve
import Intranet.Ref.ObjectWire
import Intranet.Ref.AppDirectory
import Intranet.Ref.Search
import Intranet.Ref.SearchWire
import Intranet.Ref.Review
import Intranet.Ref.RelayLimits
import Intranet.Ref.Keying
import Intranet.Ref.Keyring
import Intranet.Ref.Group
import Intranet.Ref.EpochWire
import Intranet.Ref.EpochNode
import Intranet.Ref.DirectOnly
import Intranet.Ref.ChunkNode
import Intranet.Ref.Circuits
import Intranet.Ref.MediaLimits
import Intranet.Ref.Media
import Intranet.Ref.MediaWire
import Intranet.Ref.Direct
import Intranet.Ref.DirectNode
import Intranet.Ref.Linking
import Intranet.Ref.Call
import Intranet.Ref.Sample
import Intranet.Proofs.Time
import Intranet.Proofs.Replay
import Intranet.Proofs.Tier
import Intranet.Proofs.Escalation
import Intranet.Proofs.Gate
import Intranet.Proofs.Votes
import Intranet.Proofs.Ballots
import Intranet.Proofs.LogTree
import Intranet.Proofs.ForkChoice
import Intranet.Proofs.Padding
import Intranet.Proofs.Unauthorized
import Intranet.Proofs.Finality
import Intranet.Proofs.Sync
import Intranet.Proofs.Removal
import Intranet.Proofs.Devices
import Intranet.Proofs.Dec
import Intranet.Proofs.Encoding
import Intranet.Proofs.Wire
import Intranet.Proofs.RoundTrip
import Intranet.Proofs.StateHash
import Intranet.Proofs.Pointer
import Intranet.Proofs.Join
import Intranet.Proofs.Invites
import Intranet.Proofs.WaitingRoom
import Intranet.Proofs.InviteWire
import Intranet.Proofs.StorageWire
import Intranet.Proofs.PointerSync
import Intranet.Proofs.Serve
import Intranet.Proofs.Fetch
import Intranet.Proofs.Object
import Intranet.Proofs.Wrapping
import Intranet.Proofs.FetchBudget
import Intranet.Proofs.Replication
import Intranet.Proofs.Ledger
import Intranet.Proofs.LedgerSync
import Intranet.Proofs.LedgerWire
import Intranet.Proofs.Departure
import Intranet.Proofs.RelayLimits
import Intranet.Proofs.MediaLimits
import Intranet.Proofs.Media
import Intranet.Proofs.Call
import Intranet.Proofs.Keying
import Intranet.Proofs.Keyring
import Intranet.Proofs.Retention
import Intranet.Proofs.KeyringExact
import Intranet.Proofs.EpochNode
import Intranet.Proofs.EpochWire
import Intranet.Proofs.KeyDelivery
import Intranet.Proofs.Leaves
import Intranet.Proofs.FullHistory
import Intranet.Proofs.DirectOnly
import Intranet.Proofs.Dials
import Intranet.Proofs.Circuits
import Intranet.Proofs.Search
import Intranet.Proofs.SearchWire
import Intranet.Proofs.BestBranch
import Intranet.Proofs.Cascade
import Intranet.Proofs.Certificate
import Intranet.Proofs.Overflow
import Intranet.Proofs.BudgetBound
import Intranet.Proofs.ManifestWire
import Intranet.Proofs.ChunkWire
import Intranet.Proofs.AppDirectory
import Intranet.Proofs.Review
import Intranet.Proofs.Repair
import Intranet.Proofs.Reentry
import Intranet.Proofs.Placement
import Intranet.Proofs.Signal
import Intranet.Proofs.Relay
import Intranet.Proofs.Refill
import Intranet.Proofs.Windows
import Intranet.Proofs.Stream
import Intranet.Proofs.Vod
import Intranet.Proofs.StreamTier
import Intranet.Proofs.Merkle
import Intranet.Proofs.Rotation
import Intranet.Proofs.Reindex
import Intranet.Proofs.Reannounce
import Intranet.Proofs.Stemming
import Intranet.Proofs.Listing
import Intranet.Proofs.Messages
import Intranet.Proofs.FetchOpen
import Intranet.Proofs.ChunkNode
import Intranet.Proofs.FetchEnds
import Intranet.Proofs.ChunkReports
import Intranet.Proofs.ObjectFetch
import Intranet.Proofs.LogNetwork
import Intranet.Proofs.BallotNetwork
import Intranet.Proofs.LedgerNetwork
import Intranet.Proofs.DirectNode
