import Ciphera.Lib.Merkle
import Ciphera.Lib.Run
import Ciphera.Lib.Check
import Ciphera.Lib.Schedule
import Ciphera.Lib.Index
import Ciphera.Smirk.HashCache
import Ciphera.Smirk.RoundTrip
import Ciphera.Element
import Ciphera.Noir.Common
import Ciphera.Noir.Utxo
import Ciphera.Noir.Balance
import Ciphera.Noir.AggAgg
import Ciphera.Noir.Ledger
import Ciphera.Settlement.Backing
import Ciphera.Settlement.Supply
import Ciphera.Settlement.Aggregable
import Ciphera.Settlement.Admission
import Ciphera.Settlement.Approvals
import Ciphera.Settlement.Landing
import Ciphera.Settlement.ValidatorSets
import Ciphera.Contracts.Mirror
import Ciphera.Rollup.Deposits
import Ciphera.Rollup.Threshold
import Ciphera.Rollup.Tvl
import Ciphera.Rollup.Substitution
import Ciphera.Prover.Packing
import Ciphera.Node.Chain
import Ciphera.Node.Mints
import Ciphera.Node.Canonical
import Ciphera.Node.History
import Ciphera.Node.Eviction
import Ciphera.Node.FastSync
import Ciphera.Node.Recovery
import Ciphera.Node.BlockHash
import Ciphera.Node.SyncPaths
import Ciphera.Node.Height
import Ciphera.Node.Linked
import Ciphera.Prover.Follow
import Ciphera.Prover.Inclusion
import Ciphera.Node.Leases
import Ciphera.BlockStore.Migration
import Ciphera.Lib.Delivery
import Ciphera.Node.CommitStream
import Ciphera.Node.Rejection
import Ciphera.Lib.Returns
import Ciphera.Lib.Bags
import Ciphera.Node.Peers
import Ciphera.Node.Survival
import Ciphera.Node.Harmless
import Ciphera.Cli.Note
import Ciphera.Cli.Wallet
import Ciphera.Cli.Effects
import Ciphera.Cli.Conservation
import Ciphera.Cli.Pending
import Ciphera.Smirk.Updates
import Ciphera.Node.Chunk
import Ciphera.Settlement.SignedBytes
import Ciphera.Node.Deliveries
import Ciphera.Cli.Commitments
import Ciphera.Cli.Proving
import Ciphera.Lib.Pages
import Ciphera.Pagination
import Ciphera.BlockStore.Keys
import Ciphera.BlockStore.Listing
import Ciphera.BlockStore.Pages
import Ciphera.Node.Txns
import Ciphera.Node.TxnsBefore
import Ciphera.Lib.Best
import Ciphera.Cli.Selection
import Ciphera.Lib.Numerals
import Ciphera.Lib.Base58
import Ciphera.Cli.Payload
import Ciphera.Cli.Address
import Ciphera.Cli.ActivityUrl
import Ciphera.Rollup.VerifierKeys
import Ciphera.Smirk.Merge
import Ciphera.Lib.Words
import Ciphera.Substitutor.Escrow
import Ciphera.Node.SyncWorker
import Ciphera.Lib.Machine
import Ciphera.Node.Doomslug
import Ciphera.Batching
import Ciphera.Lib.Dialogue
import Ciphera.Substitutor.Service
import Ciphera.Substitutor.World
import Ciphera.Substitutor.Passing
import Ciphera.Substitutor.Commits
import Ciphera.Substitutor.Payments
import Ciphera.Substitutor.PaidOnce
import Ciphera.Substitutor.Deployment
import Ciphera.Hash
import Ciphera.Smirk.EmptyTree
import Ciphera.Zk.MerklePath
import Ciphera.Lib.Entries
import Ciphera.Lib.SkipVoting
import Ciphera.Solid.Proposal
import Ciphera.Solid.Cache
import Ciphera.Solid.Core
import Ciphera.Solid.Current
import Ciphera.Solid.Tracking
import Ciphera.Solid.Calls
import Ciphera.Solid.Network
import Ciphera.Solid.Moves
import Ciphera.Solid.Runs
import Ciphera.Solid.Total
import Ciphera.Solid.Unvalidated
import Ciphera.Solid.Loop
import Ciphera.Lib.Ratchet
import Ciphera.Node.Timer
import Ciphera.Node.Finality
import Ciphera.Lib.Sponge
import Ciphera.MinimalPoseidon.CoreLogic
import Ciphera.MinimalPoseidon.Blocks
import Ciphera.MinimalPoseidon.Bn256
import Ciphera.Noir.PoseidonConstants
import Ciphera.Noir.PoseidonAlt
import Ciphera.Noir.Migrate
