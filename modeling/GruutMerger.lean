import GruutMerger.Lib.Bytes
import GruutMerger.Lib.Base64
import GruutMerger.Lib.KeyValue
import GruutMerger.Lib.Forest
import GruutMerger.Lib.Fallible
import GruutMerger.Lib.Trail
import GruutMerger.Lib.SortedTable
import GruutMerger.Lib.HeapTree
import GruutMerger.Lib.Sha256
import GruutMerger.Json
import GruutMerger.Env
import GruutMerger.MerkleTree
import GruutMerger.Transaction
import GruutMerger.Block
import GruutMerger.Storage
import GruutMerger.Ledger
import GruutMerger.Pool
import GruutMerger.ChainState
import GruutMerger.BlockProcessor
import GruutMerger.PoolInvariant
import GruutMerger.Linked
import GruutMerger.Resolve
import GruutMerger.Connected
import GruutMerger.Layer
import GruutMerger.LedgerView
import GruutMerger.Forwards
import GruutMerger.Support
import GruutMerger.Sample
import GruutMerger.PoolRun
import GruutMerger.Cache
import GruutMerger.SaveBlock
import GruutMerger.StoredChain
import GruutMerger.Footprint
import GruutMerger.MergerRun
import GruutMerger.LedgerPool
import GruutMerger.LedgerRun
import GruutMerger.LedgerAgreement
import GruutMerger.StoredRun
import GruutMerger.Finality
import GruutMerger.BpScheduler
import GruutMerger.BpAgreement
import GruutMerger.BpRotation
import GruutMerger.TxCollector
import GruutMerger.BlockRecords
import GruutMerger.StoredBlocks
import GruutMerger.SaveFailure
import GruutMerger.CommitCrash
import GruutMerger.MakeBlock
import GruutMerger.RoundTrip
import GruutMerger.MerkleProof
import GruutMerger.BodyCommitment
import GruutMerger.MessageValidator
import GruutMerger.TransactionPool
import GruutMerger.TxMessage
import GruutMerger.SignatureRound
import GruutMerger.RoundTransactions
import GruutMerger.RoundSignatures
import GruutMerger.OwnBlocks
import GruutMerger.TxAdmission
import GruutMerger.LongestChain
import GruutMerger.ReportedLink
import GruutMerger.PushLinks
import GruutMerger.PushTotal
import GruutMerger.LedgerCalls
import GruutMerger.LedgerFeed
import GruutMerger.SignerPool
import GruutMerger.SignerPoolManager
import GruutMerger.JoinProtocol
import GruutMerger.BlockSynchronizer
import GruutMerger.BlockRequests
import GruutMerger.ExistenceProof
import GruutMerger.LatestBlock
import GruutMerger.ServedBlocks
import GruutMerger.Rejection
import GruutMerger.MessageHandler
import GruutMerger.BackupStore
import GruutMerger.Backup
import GruutMerger.Restore
import GruutMerger.Restart
import GruutMerger.CrashRecovery
import GruutMerger.DeliveryOrder
import GruutMerger.LayeredReads
import GruutMerger.TxBinding
import GruutMerger.BlockReading
import GruutMerger.MessageFraming
import GruutMerger.Compressor
import GruutMerger.CertificateKeys
import GruutMerger.CertificateLookup
import GruutMerger.ConfirmLevels
import GruutMerger.BytesBuilder
import GruutMerger.TxOrder
import GruutMerger.BpRoles
import GruutMerger.ValidatedFields
import GruutMerger.JoinFaults
import GruutMerger.HonestSigners
import GruutMerger.HighestMergers
import GruutMerger.MissingBlocks
import GruutMerger.LookupReturns
import GruutMerger.HandlingReturns
import GruutMerger.ChainService
import GruutMerger.ChainGap
import GruutMerger.CatchUp
import GruutMerger.HealthCheck
import GruutMerger.SignerIsolation
import GruutMerger.MergerDirectory
import GruutMerger.DirectoryGrowth
import GruutMerger.DirectoryTruth
import GruutMerger.DirectoryRecords
import GruutMerger.MergerGossip
