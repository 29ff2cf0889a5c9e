import P2Pearl.Data.Bytes
import P2Pearl.Data.Struct
import P2Pearl.Data.Sha256
import P2Pearl.Data.Tally
import P2Pearl.Data.Cutoff
import P2Pearl.Data.Trail
import P2Pearl.Data.FirstMax
import P2Pearl.Data.Interleave
import P2Pearl.Data.Machine
import P2Pearl.Data.Coalesce
import P2Pearl.Data.Flood
import P2Pearl.Data.Hex
import P2Pearl.Data.OrderedMap
import P2Pearl.Data.Floating
import P2Pearl.Data.FixedWindow
import P2Pearl.Consensus.Config
import P2Pearl.Consensus.Difficulty
import P2Pearl.Consensus.Share
import P2Pearl.Consensus.ShareCodec
import P2Pearl.Consensus.ShareReader
import P2Pearl.Consensus.CompactTarget
import P2Pearl.Consensus.Emission
import P2Pearl.Consensus.Pplns
import P2Pearl.Consensus.Split
import P2Pearl.Consensus.Incentives
import P2Pearl.Consensus.Sharechain
import P2Pearl.Consensus.Validity
import P2Pearl.Consensus.History
import P2Pearl.Consensus.Selection
import P2Pearl.Consensus.Retention
import P2Pearl.Consensus.Work
import P2Pearl.Consensus.DeliveryOrder
import P2Pearl.Consensus.TargetLimit
import P2Pearl.Consensus.Retarget
import P2Pearl.Consensus.Agreement
import P2Pearl.Consensus.Readmission
import P2Pearl.Consensus.Reorg
import P2Pearl.Consensus.Archive
import P2Pearl.Consensus.Persistence
import P2Pearl.Pow.Verify
import P2Pearl.Chain.Coinbase
import P2Pearl.Chain.NodeRpc
import P2Pearl.Daemon.PayoutSet
import P2Pearl.Daemon.Job
import P2Pearl.Daemon.Payable
import P2Pearl.Daemon.Acceptable
import P2Pearl.Daemon.Uncles
import P2Pearl.Daemon.Assembler
import P2Pearl.Daemon.Rejected
import P2Pearl.Daemon.Attempts
import P2Pearl.Daemon.Reconstruct
import P2Pearl.Daemon.Rebuild
import P2Pearl.Daemon.Collaborative
import P2Pearl.Daemon.Submit
import P2Pearl.Daemon.FoundBlock
import P2Pearl.Daemon.Accounting
import P2Pearl.Daemon.ProvedOnce
import P2Pearl.Daemon.MinerShare
import P2Pearl.Daemon.FullReward
import P2Pearl.Daemon.Verdict
import P2Pearl.Stratum.Registry
import P2Pearl.Stratum.Server
import P2Pearl.Stratum.CurrentJob
import P2Pearl.Stratum.Dispatch
import P2Pearl.Stratum.Service
import P2Pearl.Stratum.Replies
import P2Pearl.Stratum.Credit
import P2Pearl.Daemon.Vardiff
import P2Pearl.Daemon.Settling
import P2Pearl.P2P.Message
import P2Pearl.P2P.RateGate
import P2Pearl.P2P.Node
import P2Pearl.P2P.Handlers
import P2Pearl.P2P.Overtake
import P2Pearl.P2P.Gossip
import P2Pearl.P2P.Relay
import P2Pearl.P2P.Bounded
import P2Pearl.P2P.Suppressed
import P2Pearl.P2P.Window
import P2Pearl.P2P.Sync
import P2Pearl.P2P.CatchUp
import P2Pearl.P2P.Network
import P2Pearl.P2P.Broadcast
import P2Pearl.P2P.Spread
import P2Pearl.P2P.Delivery
import P2Pearl.P2P.Join
import P2Pearl.P2P.Lines
import P2Pearl.Daemon.Production
import P2Pearl.Daemon.Refresh
import P2Pearl.Daemon.Reissue
import P2Pearl.Data.JsonReader
import P2Pearl.Data.JsonRoundTrip
import P2Pearl.P2P.Connection
import P2Pearl.P2P.Wire
import P2Pearl.P2P.ByteNet
import P2Pearl.P2P.AtRest
import P2Pearl.Stratum.Frames
