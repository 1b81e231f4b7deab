import OrderedStore.Damage.Store
import OrderedStore.Main
import OrderedStore.Pattern.Parser
import OrderedStore.Proofs.Faultless
import OrderedStore.Proofs.OrderedMap.Compression
import OrderedStore.Proofs.OrderedMap.Counting
import OrderedStore.Proofs.OrderedMap.ScanEnds
import OrderedStore.Proofs.Pool.Counting
import OrderedStore.Proofs.Pool.Sweep
import OrderedStore.Proofs.ScoredSet.ReadsByScore
import OrderedStore.Proofs.Store.Batch
import OrderedStore.Proofs.Store.KeyGrammar
import OrderedStore.Proofs.Store.Rollback
import OrderedStore.Proofs.Trie.Tenants
import OrderedStore.Proofs.Walks
