import GethArb.CodeRevert
import GethArb.Zombie
import GethArb.ReadOnlyCalls
import GethArb.BalanceLedger
import GethArb.CommitUndo
import GethArb.StorageLayers
import GethArb.RlpItems
import GethArb.TrieFailure
import GethArb.TrieProof
import GethArb.StackSpec
import GethArb.LayerRuns
import GethArb.Retention
import GethArb.ArbTypes
import GethArb.ArchiveFallback
import GethArb.TxOptions
import GethArb.BlockReceipts
import GethArb.LiveChain
import GethArb.PushBlockChange
import GethArb.SparseArchive
import GethArb.RecreateState
import GethArb.RewindHead
import GethArb.FilterMapsRange
