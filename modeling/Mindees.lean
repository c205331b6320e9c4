import Mindees.Library.Decimal
import Mindees.Library.Dict
import Mindees.Library.Flood
import Mindees.Library.Raise
import Mindees.Library.Casper
import Mindees.Library.Best
import Mindees.Library.Positional
import Mindees.Library.Queues
import Mindees.Library.Market
import Mindees.Library.Shares
import Mindees.Library.Retention
import Mindees.Library.Runs
import Mindees.Library.Interleaving
import Mindees.Library.LineLog
import Mindees.Core.Text
import Mindees.Core.Json
import Mindees.Core.Primitives
import Mindees.Core.Transaction
import Mindees.Core.Block
import Mindees.Core.Codec
import Mindees.Core.Base58
import Mindees.Core.Malleability
import Mindees.Vesting
import Mindees.Consensus.State
import Mindees.Consensus.Election
import Mindees.Consensus.Evidence
import Mindees.Consensus.Apply
import Mindees.Consensus.Genesis
import Mindees.Consensus.Exceptions
import Mindees.Core.Symbolic
import Mindees.Core.Reader
import Mindees.Core.Balance
import Mindees.Consensus.GenesisIdentity
import Mindees.Consensus.Produce
import Mindees.Consensus.Effects
import Mindees.Consensus.Money
import Mindees.Consensus.Supply
import Mindees.Consensus.VestingLock
import Mindees.Consensus.Electable
import Mindees.Consensus.Proportional
import Mindees.Consensus.Votes
import Mindees.Consensus.Finality
import Mindees.Consensus.Quorums
import Mindees.Consensus.Confluence
import Mindees.Core.Untyped
import Mindees.Consensus.Untyped
import Mindees.Consensus.Keyed
import Mindees.Consensus.Readable
import Mindees.Consensus.Bookkeeping
import Mindees.Consensus.Standing
import Mindees.Consensus.Walks
import Mindees.Consensus.Escapes
import Mindees.Consensus.Embedding
import Mindees.Consensus.VoteHistory
import Mindees.Consensus.Confiscation
import Mindees.Consensus.Faults
import Mindees.Consensus.AccountableSafety
import Mindees.Consensus.OpenLinks
import Mindees.ForkChoice.BlockTree
import Mindees.ForkChoice.Untyped
import Mindees.ForkChoice.Lineage
import Mindees.ForkChoice.Branch
import Mindees.ForkChoice.Store
import Mindees.ForkChoice.Invariant
import Mindees.ForkChoice.Growth
import Mindees.ForkChoice.Irreversible
import Mindees.ForkChoice.Linear
import Mindees.ForkChoice.HeadChoice
import Mindees.ForkChoice.Seals
import Mindees.ForkChoice.Spread
import Mindees.ForkChoice.Convergence
import Mindees.ForkChoice.Delivery
import Mindees.ForkChoice.Conflicts
import Mindees.ForkChoice.Following
import Mindees.ForkChoice.Adoption
import Mindees.ForkChoice.Trusted
import Mindees.Node.Mempool
import Mindees.Node.BestBids
import Mindees.Node.Network
import Mindees.Node.OutOfOrder
import Mindees.Node.Selection
import Mindees.Node.FeeMarket
import Mindees.Node.Acceptance
import Mindees.Node.Agreement
import Mindees.Node.BalanceModel
import Mindees.Node.Spendable
import Mindees.Node.Service
import Mindees.Node.Outgoing
import Mindees.Node.PeerMesh
import Mindees.Node.Production
import Mindees.Node.Gossip
import Mindees.Node.BlockMessages
import Mindees.Node.Untyped
import Mindees.Node.Proposals
import Mindees.Node.Poisoning
import Mindees.Node.OrphanBuffer
import Mindees.Node.Sync
import Mindees.Node.SyncPages
import Mindees.Node.Transport
import Mindees.Node.Wallet
import Mindees.Node.Voting
import Mindees.Node.SoleValidator
import Mindees.Node.Censorship
import Mindees.Node.BlockSize
import Mindees.Node.Calls
import Mindees.Node.Storage
import Mindees.Node.GenesisFile
import Mindees.Node.Relay
import Mindees.Node.Restart
import Mindees.Node.Loading
import Mindees.Node.Discovery
import Mindees.Node.Driver
import Mindees.Node.Rpc
import Mindees.Node.CatchUp
import Mindees.Node.CrashSafety
import Mindees.Node.Equivocation
import Mindees.Consensus.NoTheft
import Mindees.Consensus.History
import Mindees.Consensus.Blockchain
import Mindees.Consensus.Nonces
import Mindees.Consensus.SlashWindow
import Mindees.Consensus.SlashHistory
import Mindees.Consensus.VoteSlash
import Mindees.Consensus.BlockSlash
import Mindees.Consensus.HeadCommitment
import Mindees.Consensus.TransactionRoot
import Mindees.Consensus.LockedFees
import Mindees.Library.Base64
import Mindees.Node.Keystore
import Mindees.Node.Tokenomics
