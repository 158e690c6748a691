import VaultDB.Wal.CommitSync
import VaultDB.Wal.Pitr
import VaultDB.Sql.RowPool
import VaultDB.Sql.Masking
import VaultDB.Sql.SessionRuns
import VaultDB.Sql.SetOperations
import VaultDB.Sql.OrderBy
import VaultDB.Sql.Routing
import VaultDB.Tx.Deadlock
import VaultDB.Storage.RowCodec
import VaultDB.Storage.CommitCrash
import VaultDB.Storage.Lives
import VaultDB.Storage.Horizon
import VaultDB.Storage.Encryption
import VaultDB.Storage.UpdateVisibility
import VaultDB.Storage.TimeTravel
import VaultDB.Dml.UniqueRuns
import VaultDB.Dml.ColumnTypes
import VaultDB.Dml.AutoIncrement
import VaultDB.Server.AuditLog
import VaultDB.Server.Tokens
import VaultDB.Sql.CheckExpr
import VaultDB.Sql.Parallel
import VaultDB.Sql.Window
import VaultDB.Tx.Savepoints
import VaultDB.Storage.Header
import VaultDB.Sql.CompositeKey
import VaultDB.Storage.DeadlockDetector
import VaultDB.Storage.Latches
