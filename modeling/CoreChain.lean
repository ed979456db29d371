import CoreChain.ForkTree.Prune
import CoreChain.Merkle.Proof
import CoreChain.Grandpa.Invariant
import CoreChain.Overlay.Lockstep
import CoreChain.Crypto.Ss58
import CoreChain.Allocator.Bump
import CoreChain.Trie.Root
import CoreChain.Bags.Iter
import CoreChain.MessageQueue.Items
import CoreChain.MessageQueue.Footprint
import CoreChain.StateDb.Window
import CoreChain.StateDb.Sync
import CoreChain.TxPool.Import
import CoreChain.Bridge.Delivery
import CoreChain.Prospective.Lifecycle
import CoreChain.Approval.Safety
import CoreChain.Broker.Regions
import CoreChain.Xcm.Location
import CoreChain.Xcm.Take
import CoreChain.Balances.Fungible
import CoreChain.Arith.Sqrt
import CoreChain.Arith.Curve
import CoreChain.Arith.Normalize
import CoreChain.Npos.Score
import CoreChain.Arith.BigUint
import CoreChain.Staking.Ledger
import CoreChain.NominationPools.Points
import CoreChain.Parachain.Segment
import CoreChain.Parachain.GroupRotation
import CoreChain.Referenda.Curve
import CoreChain.StateDb.PruningLive
import CoreChain.StateDb.PruningCache
import CoreChain.TxPool.ReadyImport
