import NogoChain.Chain.AddressHistory
import NogoChain.Chain.Cascade
import NogoChain.Chain.ForkPool
import NogoChain.Chain.LiveIndexes
import NogoChain.Chain.ReorgEvent
import NogoChain.Chain.Seals
import NogoChain.Chain.TipOrder
import NogoChain.Chain.WorkCache
import NogoChain.Checkpoint.Records
import NogoChain.Consensus.ValidateBlock
import NogoChain.Contracts.Governance
import NogoChain.Core.Addresses
import NogoChain.Core.MerkleBinding
import NogoChain.Core.Nonces
import NogoChain.Core.RewardSchedule
import NogoChain.Core.Supply
import NogoChain.Core.Uleb128
import NogoChain.Mempool.Limits
import NogoChain.Mining.Template
import NogoChain.Network.Completion
import NogoChain.Network.Delivery
import NogoChain.Network.Downloads
import NogoChain.Network.HeaderHash
import NogoChain.Network.Keystream
import NogoChain.Network.Oscillation
import NogoChain.Network.Ranges
import NogoChain.Network.RegularSync
import NogoChain.Network.SyncWork
import NogoChain.Nogopow.Engine
import NogoChain.Storage.Canonical
import NogoChain.Storage.EntryCodec
import NogoChain.Storage.Snapshots
import NogoChain.Storage.StateRoot
import NogoChain.Vm.LightClient
import NogoChain.Wallet.DeriveAddresses
import NogoChain.Wallet.KeystoreCache
