import Fabric.Lib.GoMap
import Fabric.Lib.Choice
import Fabric.Ledger.Version
import Fabric.Ledger.MerkleTree
import Fabric.Ledger.MerkleGrowth
import Fabric.Ledger.StateDB
import Fabric.Ledger.CombinedIterator
import Fabric.Ledger.RangeQueryValidator
import Fabric.Ledger.HashValidation
import Fabric.Ledger.QueryExecutor
import Fabric.Ledger.RangeQueryAgreement
import Fabric.Ledger.RwSet
import Fabric.Ledger.PrivacyState
import Fabric.Ledger.TxOps
import Fabric.Ledger.Validator
import Fabric.Ledger.Serializability
import Fabric.Lib.Protowire
import Fabric.Lib.Protoimpl
import Fabric.Protoutil.Messages
import Fabric.Protoutil.BlockUtils
import Fabric.Orderer.BlockCreator
import Fabric.Orderer.BlockCutter
import Fabric.Orderer.Membership
import Fabric.Orderer.Chain
import Fabric.BlkStorage.Cache
import Fabric.Gossip.MsgStore
import Fabric.Deliver.Deliver
import Fabric.Discovery.Endorsement
import Fabric.BlkStorage.BlockFile
import Fabric.BlkStorage.BlockStream
import Fabric.BlkStorage.BlockfileHelper
import Fabric.Gossip.Discovery
import Fabric.Ledger.OrderPreserving
import Fabric.Ledger.LevelDBHelper
import Fabric.BlkStorage.BlockIndex
import Fabric.Ledger.History
import Fabric.Ledger.ConfigHistory
import Fabric.PvtDataStorage.KvEncoding
import Fabric.Configtx.ConfigMap
import Fabric.Cauthdsl.Cauthdsl
import Fabric.Graph.Choose
import Fabric.Gossip.PayloadsBuffer
import Fabric.Ledger.MerkleReference
import Fabric.Ledger.QueryCombiner
import Fabric.Inquire.Merge
import Fabric.BlkStorage.BlockStore
import Fabric.BlkStorage.StoreRun
import Fabric.Gateway.Endorsement
import Fabric.Gateway.Endorse
import Fabric.Lib.Runs
import Fabric.Statebased.VpManager
