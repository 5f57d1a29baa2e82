import GoEthereum.Trie.Verify
import GoEthereum.Trie.Hostile
import GoEthereum.Trie.Writer
import GoEthereum.Trie.SyncFaults
import GoEthereum.Light.Trie
import GoEthereum.State.Marks
import GoEthereum.State.Logs
import GoEthereum.State.Storage
import GoEthereum.State.Persist
import GoEthereum.State.Faults
import GoEthereum.State.Sync
import GoEthereum.Rlp.Parse
import GoEthereum.Rlp.Output
import GoEthereum.Rlp.RawValue
import GoEthereum.Core.TxLookup
import GoEthereum.Core.Uncles
import GoEthereum.Eth.FilterFind
import GoEthereum.Core.PoolNonces
import GoEthereum.Compression.Rle
import GoEthereum.Core.HeaderRules
import GoEthereum.Core.TxByPrice
import GoEthereum.Hexutil
import GoEthereum.Abi.Layout
import GoEthereum.Abi.Overflow
import GoEthereum.Eth.FetcherRun
import GoEthereum.P2p.Frame
import GoEthereum.P2p.Table
import GoEthereum.Les.FlowControl
import GoEthereum.Swarm.Swap
import GoEthereum.Swarm.GcList
import GoEthereum.Trie.DeriveSha
