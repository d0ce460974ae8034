import Rustock.Execution.Branches
import Rustock.Storage.Pruner
import Rustock.FlatDb.Concurrent
import Rustock.Execution.RawStorage
import Rustock.Execution.RemascConservation
import Rustock.Bridge.PegOut
import Rustock.Bridge.BtcBest
import Rustock.Bridge.Election
import Rustock.Bridge.MerkleProof
import Rustock.Execution.Threads
import Rustock.Bridge.Collect
import Rustock.Bridge.ReleaseTx
import Rustock.Bridge.Migration
import Rustock.Core.UnclesOnce
import Rustock.Sync.UncleCount
import Rustock.Sync.SamplingGate
import Rustock.Sync.Forward
import Rustock.Trie.Deletion
import Rustock.Sync.TxPoolFunds
import Rustock.Storage.CachedTrie
import Rustock.Bridge.WitnessRoot
import Rustock.Sync.ConnectionPoint
import Rustock.Bridge.HeaderQuery
import Rustock.Core.Difficulty
import Rustock.Core.Coinbase
import Rustock.Sync.Rollback
import Rustock.Sync.UncleWindow
import Rustock.Sync.StateDownload
import Rustock.Trie.VerifyComplete
import Rustock.Networking.Frame
import Rustock.Sync.ChunkTracker
