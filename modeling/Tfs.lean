import Tfs.Basic
import Tfs.Evm.Transfer
import Tfs.Ca.Dispatch
import Tfs.Ca.Utxo
import Tfs.Ca.Contract
import Tfs.Ca.TxHelper
import Tfs.Lib.Rlp
import Tfs.Mpt.Node
import Tfs.Mpt.Trie
import Tfs.Mpt.Meaning
import Tfs.Mpt.Walk
import Tfs.Mpt.Persist
import Tfs.Evm.Host
import Tfs.Evm.Run
import Tfs.Evm.Ledger
import Tfs.Evm.Atomicity
import Tfs.Evm.Storage
import Tfs.Ca.SyncBlock
import Tfs.Ca.BlockHelper
import Tfs.Ca.BroadcastPool
import Tfs.Db.ReadWriter
import Tfs.Db.Schema
import Tfs.Mpt.Addressing
import Tfs.Mpt.Canonical
import Tfs.Evm.Deploy
import Tfs.Evm.Create
import Tfs.Ca.Dispatcher
import Tfs.Common.GlobalData
import Tfs.Ca.BlockStroage
import Tfs.Ca.DoubleSpendCache
import Tfs.Ca.SumHash
import Tfs.Ca.SyncAnswers
import Tfs.Ca.HelperProcess
import Tfs.Lib.Runs
import Tfs.Ca.TransactionCache
import Tfs.Ca.ContractTasks
import Tfs.Lib.Framing
import Tfs.Net.Pack
import Tfs.Net.SocketBuf
import Tfs.Net.Resync
import Tfs.Net.Compress
import Tfs.Net.Dispatcher
import Tfs.Net.WorkThread
import Tfs.Lib.Cyclic
import Tfs.Lib.Ring
import Tfs.Utils.Cycliclist
import Tfs.Net.Broadcast
import Tfs.Net.PeerNode
import Tfs.Ca.CheckBlocks
import Tfs.Api.RpcCreateTransaction
import Tfs.Api.BuildersAgree
import Tfs.Ca.AgentType
import Tfs.Api.Competing
import Tfs.Ca.GroupData
import Tfs.Mpt.NodeCodec
import Tfs.Evm.Selfdestruct
import Tfs.Evm.SaveDelete
import Tfs.Evm.PrevRandao
import Tfs.Utils.AccountManager
import Tfs.Lib.Json
import Tfs.Api.RpcTx
import Tfs.Evm.Named
import Tfs.Ca.AddContractInfo
import Tfs.Ca.DeployAddress
import Tfs.Ca.PreHashChain
import Tfs.Mpt.Expands
import Tfs.Mpt.Reads
import Tfs.Mpt.Accesses
import Tfs.Lib.Sorted
import Tfs.Ca.Checker
import Tfs.Ca.Eviction
import Tfs.Ca.ContractRollback
import Tfs.Ca.PostSave
import Tfs.Ca.ChainHeight
import Tfs.Ca.FastSync
import Tfs.Ca.SyncRanges
import Tfs.Ca.SumHashNode
import Tfs.Ca.BlockHashNode
import Tfs.Lib.Tally
import Tfs.Ca.FromZeroSumHash
import Tfs.Ca.BySumHashNode
import Tfs.Ca.ByzantineAdjustment
import Tfs.Ca.CheckSums
import Tfs.Ca.SeekBlocks
import Tfs.Ca.SyncNodes
import Tfs.Lib.Double
import Tfs.Ca.SeekPreHash
import Tfs.Ca.NewBlock
import Tfs.Ca.SeekTasks
import Tfs.Ca.PendingRemoval
import Tfs.Utils.Crypto
import Tfs.Utils.AddressText
import Tfs.Utils.ValidAddress
import Tfs.Utils.Version
import Tfs.Lib.DecimalOrder
import Tfs.Ca.ProcessFlag
import Tfs.Ca.UtxoSelection
import Tfs.Ca.ConfirmUtxo
import Tfs.Ca.ContractPreHash
import Tfs.Ca.BuildHeight
import Tfs.Ca.BlockFlow
import Tfs.Lib.Unique
import Tfs.Net.SyncVotes
import Tfs.Ca.RedeemAmounts
import Tfs.Ca.FailedTransactionCache
import Tfs.Db.BonusAddrCache
import Tfs.Ca.ConfirmTransaction
import Tfs.Api.DelegateInfo
import Tfs.Ca.MissingBlocks
import Tfs.Api.MissingMembers
import Tfs.Ca.SumHashAck
import Tfs.Lib.TwoPhase
import Tfs.Db.Transactions
import Tfs.Lib.Blocks
import Tfs.Lib.Sha256
import Tfs.Utils.Sha2
