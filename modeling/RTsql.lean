import RTsql.Executor.StatementView
import RTsql.Wal.FlushOffsets
import RTsql.Wal.Checkpoint.Safety
import RTsql.Wal.TransactionIds
import RTsql.Executor.VersionChains
import RTsql.Executor.FullTable
import RTsql.Storage.PageLayout
import RTsql.Storage.BTree.Readers
import RTsql.Storage.BTree.CatalogRoot
import RTsql.Storage.BTree.FirstSeparator
import RTsql.Storage.BTree.LeafChain
import RTsql.Storage.PageReuse
import RTsql.Storage.PoolSafety
import RTsql.Storage.ColumnDrops
import RTsql.Executor.LayoutSafety
import RTsql.Executor.ColumnProjection
import RTsql.Parser.RouteRows
import RTsql.Parser.EquiJoin
import RTsql.Parser.Arithmetic
import RTsql.Wal.Positions
import RTsql.Wal.PageChain
import RTsql.Storage.FileGrowth
import RTsql.Storage.FileHeader
import RTsql.Storage.AddColumn
import RTsql.Executor.GcTable
import RTsql.Executor.OuterJoins
import RTsql.Executor.SetOperations
import RTsql.Executor.Like
import RTsql.Executor.Substr
import RTsql.PlanCache
