import NvrecYcsb.Runs
import NvrecYcsb.FairRuns
import NvrecYcsb.AtomicCalls
import NvrecYcsb.CriticalSections
import NvrecYcsb.UndoLog
import NvrecYcsb.LinkedLists
import NvrecYcsb.KeyedLog
import NvrecYcsb.RecordReplay
import NvrecYcsb.RecordStore
import NvrecYcsb.Framing
import NvrecYcsb.Rereading
import NvrecYcsb.PowerFailure
import NvrecYcsb.IncrementalParsing
import NvrecYcsb.PowerLaw
import NvrecYcsb.CumulativeShares
import NvrecYcsb.CppRuntime
import NvrecYcsb.FnvHash
import NvrecYcsb.RecoveryDefs
import NvrecYcsb.TupleCodec
import NvrecYcsb.TupleCanonical
import NvrecYcsb.RecoveryInterface
import NvrecYcsb.NvmBlk
import NvrecYcsb.NvmBlkDurability
import NvrecYcsb.NvmBlkFailures
import NvrecYcsb.NvmLog
import NvrecYcsb.NvmLogCrash
import NvrecYcsb.ListPool
import NvrecYcsb.ListTransactions
import NvrecYcsb.NvRec
import NvrecYcsb.NvRecInvariant
import NvrecYcsb.NvRecClient
import NvrecYcsb.NvRecRefinement
import NvrecYcsb.NvRecRestart
import NvrecYcsb.NvRecExceptions
import NvrecYcsb.NvRecFraming
import NvrecYcsb.NvRecFlushOrder
import NvrecYcsb.NvRecCalls
import NvrecYcsb.NvRecTermination
import NvrecYcsb.NvRecCrash
import NvrecYcsb.EngineEquivalence
import NvrecYcsb.NvmDb
import NvrecYcsb.NvmDbScan
import NvrecYcsb.RepeatedNames
import NvrecYcsb.NvmDbRefinement
import NvrecYcsb.NvmDbThreads
import NvrecYcsb.RecordRecovery
import NvrecYcsb.InPlaceRecovery
import NvrecYcsb.NvmDbCrash
import NvrecYcsb.RecordAddress
import NvrecYcsb.StlHashtable
import NvrecYcsb.HashtableDb
import NvrecYcsb.HashtableInsert
import NvrecYcsb.HashtableClients
import NvrecYcsb.BackendAgreement
import NvrecYcsb.CoreWorkload
import NvrecYcsb.DiscreteGenerator
import NvrecYcsb.PropertiesFile
import NvrecYcsb.Zipfian
import NvrecYcsb.SkewedLatest
import NvrecYcsb.TransactionKeys
import NvrecYcsb.KeyChoosers
import NvrecYcsb.ClientRequests
import NvrecYcsb.BenchmarkRun
import NvrecYcsb.Benchmark
import NvrecYcsb.CommandLine
import NvrecYcsb.Hiredis
import NvrecYcsb.HiredisReader
import NvrecYcsb.RedisReplies
import NvrecYcsb.ReaderRefinement
import NvrecYcsb.ReplyRoundTrip
import NvrecYcsb.HiredisConnection
import NvrecYcsb.RequestPairing
import NvrecYcsb.RedisDb
import NvrecYcsb.RedisOperations
import NvrecYcsb.RedisRecords
