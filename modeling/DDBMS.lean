import DDBMS.FaultTolerance.Coordinator
import DDBMS.FaultTolerance.CoordinatorBackup
import DDBMS.Lib.Run
import DDBMS.Lib.Scan
import DDBMS.Lib.Lru
import DDBMS.Lib.Slots
import DDBMS.Lib.SortedAssoc
import DDBMS.Lib.Bytes
import DDBMS.Lib.Chain
import DDBMS.Lib.BackLinks
import DDBMS.Lib.KeyRequests
import DDBMS.Lib.Serial
import DDBMS.Lib.DurableLog
import DDBMS.Lib.WaitFor
import DDBMS.MetaServer.Oracle
import DDBMS.MetaServer.OracleOrder
import DDBMS.MetaServer.OracleRestart
import DDBMS.MetaServer.OracleBound
import DDBMS.MetaServer.OracleSync
import DDBMS.MetaServer.OracleDecompose
import DDBMS.MetaServer.Catalog
import DDBMS.MetaServer.CatalogRead
import DDBMS.MetaServer.MetaService
import DDBMS.MetaServer.CatalogRoundTrip
import DDBMS.MetaServer.NewCoordinator
import DDBMS.MetaServer.CoordinatorUsable
import DDBMS.MetaServer.Placement
import DDBMS.MetaServer.LeaderBalance
import DDBMS.MetaServer.ReplicaLocation
import DDBMS.MetaServer.RangeCover
import DDBMS.MetaServer.CatalogLookup
import DDBMS.MetaServer.FailedLookup
import DDBMS.MetaServer.LeaderChange
import DDBMS.MetaServer.Routing
import DDBMS.MetaServer.TableIds
import DDBMS.Transaction.LockManager
import DDBMS.Transaction.LockCompat
import DDBMS.Transaction.LockEffective
import DDBMS.Transaction.LockFrame
import DDBMS.Transaction.LockNoWait
import DDBMS.Transaction.LockForms
import DDBMS.Transaction.LockView
import DDBMS.Transaction.LockSound
import DDBMS.Transaction.LockUpgrading
import DDBMS.Transaction.TwoPhase
import DDBMS.Transaction.Serializable
import DDBMS.Transaction.LockNotify
import DDBMS.Transaction.LockSets
import DDBMS.Transaction.UnlockSplit
import DDBMS.Transaction.ReleaseLocks
import DDBMS.Execution.RemotePlan
import DDBMS.Execution.RemotePlanNode
import DDBMS.Execution.Operators
import DDBMS.Execution.JoinProduct
import DDBMS.Execution.SelectionRows
import DDBMS.Execution.ProjectionColumns
import DDBMS.Execution.PlanConversion
import DDBMS.Transaction.LogChains
import DDBMS.Transaction.WriteSetLog
import DDBMS.Transaction.LocalBegin
import DDBMS.Storage.SkipList
import DDBMS.Storage.SkipListSearch
import DDBMS.Storage.SkipListRepr
import DDBMS.Storage.SkipListOps
import DDBMS.Lib.SortedFinmap
import DDBMS.Storage.SkipListLevels
import DDBMS.Storage.SkipListIter
import DDBMS.Storage.SkipListMap
import DDBMS.Storage.Block
import DDBMS.Storage.Table
import DDBMS.Storage.BlockCodec
import DDBMS.Storage.BlockRestarts
import DDBMS.Storage.BlockSeek
import DDBMS.Storage.BlockScan
import DDBMS.Storage.LevelZeroReopen
import DDBMS.Storage.MemtableBound
import DDBMS.Storage.TableCodec
import DDBMS.Storage.TableBuild
import DDBMS.Storage.TableStack
import DDBMS.Storage.TableCache
import DDBMS.Storage.TableFormat
import DDBMS.Storage.KVStoreBeta
import DDBMS.Storage.KVStoreRefine
import DDBMS.Storage.KVStoreMap
import DDBMS.Storage.KVStoreStack
import DDBMS.Storage.KVStoreReopen
import DDBMS.Storage.KVStoreFlush
import DDBMS.Storage.DiskCrash
import DDBMS.Storage.NewestTable
import DDBMS.Recovery.LogRecord
import DDBMS.Recovery.LogManager
import DDBMS.Recovery.LogManagerOrder
import DDBMS.Recovery.RoundTrip
import DDBMS.Recovery.LogManagerDurable
import DDBMS.Recovery.LogManagerStop
import DDBMS.Storage.KVStoreNew
import DDBMS.Storage.KVStoreLogged
import DDBMS.Storage.KVStoreWriteAhead
import DDBMS.Storage.KVStoreRoom
import DDBMS.Storage.KVStoreDel
import DDBMS.Storage.KVStoreWait
import DDBMS.Lib.Schedule
import DDBMS.Lib.TokenStream
import DDBMS.Lib.UnorderedMap
import DDBMS.Recovery.RecoveryManager
import DDBMS.Recovery.RecoveryRead
import DDBMS.Recovery.RedoExact
import DDBMS.Recovery.RecoveryTrace
import DDBMS.Recovery.ReadLogEnd
import DDBMS.Recovery.AssertValid
import DDBMS.Recovery.RecoveryLog
import DDBMS.Recovery.RecoveryRedo
import DDBMS.Recovery.RecoveryUndo
import DDBMS.Recovery.RecoveryAtomic
import DDBMS.Recovery.RecoveryRepeat
import DDBMS.Recovery.RecoveryInDoubt
import DDBMS.Recovery.UndoInverse
import DDBMS.Recovery.UndoVisits
import DDBMS.Recovery.TornTail
import DDBMS.Recovery.CrashRestart
import DDBMS.Recovery.CrashStore
import DDBMS.Recovery.RedoEnds
import DDBMS.Recovery.WriteFailure
import DDBMS.Recovery.RedoStore
import DDBMS.Recovery.StoreReplay
import DDBMS.Storage.KVStoreReaders
import DDBMS.Storage.KVStoreSearch
import DDBMS.Storage.KVStoreHeights
import DDBMS.MetaServer.CreateStatements
import DDBMS.MetaServer.SaveMeta
import DDBMS.MetaServer.SaveConsistent
import DDBMS.Lib.BitFields
import DDBMS.Transaction.LockDataId
import DDBMS.Storage.BlockSize
import DDBMS.Transaction.OperatorService
import DDBMS.Transaction.OperatorStore
import DDBMS.Transaction.OperatorSearch
import DDBMS.Transaction.OperatorRuns
import DDBMS.Execution.QueryPlan
import DDBMS.MetaServer.OracleUnique
import DDBMS.Transaction.ClusterBegin
import DDBMS.Transaction.ClusterOperators
import DDBMS.Transaction.ClusterOrder
