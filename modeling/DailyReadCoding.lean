import DailyReadCoding.OceanBase.Memtable.Compaction
import DailyReadCoding.OceanBase.Number.Closure
import DailyReadCoding.OceanBase.Sequence.Distinct
import DailyReadCoding.Bitcoin.Merkle.ExtractRoundTrip
import DailyReadCoding.Bitcoin.Pow.Retarget
import DailyReadCoding.Bitcoin.TxRequest.Refinement
import DailyReadCoding.Memcached.AssocCorrect
import DailyReadCoding.Srs.Amf0RoundTrip
import DailyReadCoding.OceanBase.Number.ProductV2
import DailyReadCoding.OceanBase.Number.DifferenceV2
import DailyReadCoding.OceanBase.Memtable.InsertBranches
import DailyReadCoding.Memcached.SlabPages
import DailyReadCoding.OceanBase.Expr.IntArithmetic
import DailyReadCoding.OceanBase.Serialization.IntegerDecode
import DailyReadCoding.OceanBase.Serialization.VarString
import DailyReadCoding.OceanBase.Container.BinaryHeap
import DailyReadCoding.OceanBase.Number.IntegerCast
import DailyReadCoding.OceanBase.Container.LoserTreeRuns
import DailyReadCoding.OceanBase.Container.RbTreeRuns
import DailyReadCoding.Bitcoin.Arith.BlockProof
import DailyReadCoding.Bitcoin.Chain.ActiveChain
import DailyReadCoding.Bitcoin.Consensus.LockTime
import DailyReadCoding.Bitcoin.Script.SignatureHash
import DailyReadCoding.Bitcoin.Coins.CacheUsage
import DailyReadCoding.Bitcoin.Coins.Compressor
import DailyReadCoding.Bitcoin.Filter.RollingBloom
import DailyReadCoding.Bitcoin.Script.Multisig
import DailyReadCoding.Bitcoin.Script.ConditionStack
import DailyReadCoding.Bitcoin.Mempool.TxHashes
import DailyReadCoding.OceanBase.Time.DateConvert
import DailyReadCoding.Srs.ChunkRoundTrip
import DailyReadCoding.Bitcoin.Script.Safety
import DailyReadCoding.Bitcoin.Script.SignatureEncoding
import DailyReadCoding.Srs.RtpRingBuffer
import DailyReadCoding.Srs.RtmpJitter
