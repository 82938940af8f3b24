import Namecoin.Lib.MerkleTree
import Namecoin.Consensus.Merkle
import Namecoin.Consensus.MerklePath
import Namecoin.Consensus.MerkleBranch
import Namecoin.Script.Script
import Namecoin.Script.ScriptNum
import Namecoin.Script.NameBuild
import Namecoin.Lib.OrdSet
import Namecoin.Names.Data
import Namecoin.Names.View
import Namecoin.Names.Main
import Namecoin.Lib.ExceptM
import Namecoin.Names.CheckSpec
import Namecoin.Names.ApplySpec
import Namecoin.Names.Consistency
import Namecoin.Names.Connect
import Namecoin.Names.NameDB
import Namecoin.Names.Expiry
import Namecoin.Lib.Search
import Namecoin.Consensus.AuxPow
import Namecoin.Lib.KeyList
import Namecoin.Names.NameCache
import Namecoin.Names.NameIterator
import Namecoin.Names.CacheView
import Namecoin.Lib.Chain
import Namecoin.Lib.RoundDown
import Namecoin.Names.NameMempool
import Namecoin.Util.Hex
import Namecoin.Lib.PiecewiseLinear
import Namecoin.Util.FeeFrac
import Namecoin.Util.CompareChunks
import Namecoin.Consensus.Pow
import Namecoin.Consensus.Retarget
import Namecoin.Rpc.AuxpowMiner
import Namecoin.Lib.Flags
import Namecoin.Wallet.CoinSelection
import Namecoin.Wallet.RandomSelection
import Namecoin.Lib.LittleEndian
import Namecoin.Serialize.CompactSize
import Namecoin.Serialize.VarInt
import Namecoin.Serialize.Compressor
import Namecoin.Lib.Bits
import Namecoin.Util.BitStream
import Namecoin.Util.GolombRice
import Namecoin.Lib.SortedMerge
import Namecoin.BlockFilter.GCSFilter
import Namecoin.Lib.AncestorSets
import Namecoin.Cluster.DepGraph
import Namecoin.Cluster.DepGraphInv
import Namecoin.Lib.Median
import Namecoin.Consensus.VersionBits
import Namecoin.Consensus.VersionBitsSpec
import Namecoin.Lib.Bytewise
import Namecoin.Names.DBKeys
import Namecoin.Util.FeeFracDiv
import Namecoin.Lib.Limbs
import Namecoin.Arith.BaseUint
import Namecoin.Arith.BaseUintArith
import Namecoin.Arith.BaseUintBits
import Namecoin.Arith.BaseUintDiv
import Namecoin.Consensus.BlockProof
import Namecoin.Lib.ConcaveHull
import Namecoin.Cluster.Chunking
import Namecoin.Cluster.ChunkHull
import Namecoin.Lib.Closure
import Namecoin.Names.MempoolIndex
import Namecoin.Names.MempoolIndexInv
import Namecoin.Names.Disconnect
import Namecoin.Names.DisconnectSpec
import Namecoin.Names.Undo
import Namecoin.Lib.AssocMap
import Namecoin.Names.CoinsCache
import Namecoin.Names.CoinsCacheSpec
import Namecoin.Names.CacheNamesSpec
import Namecoin.Names.CacheStackSpec
import Namecoin.Consensus.PartialMerkle
import Namecoin.Consensus.PartialMerkleSpec
import Namecoin.Rpc.TxOutProof
