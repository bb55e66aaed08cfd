import Glean.Library.SortedMap
import Glean.Library.Cursor
import Glean.Library.BlockTree
import Glean.Library.Sweep
import Glean.RTS.Fact
import Glean.RTS.FactIterator
import Glean.RTS.IteratorYields
import Glean.RTS.Binary
import Glean.RTS.Lookup
import Glean.RTS.FactSet
import Glean.RTS.Enumerate
import Glean.RTS.StackedSeek
import Glean.Ownership.Uset
import Glean.Ownership.Computed
import Glean.Ownership.Derived
import Glean.Ownership.Slice
import Glean.Ownership.TrieArray
import Glean.Ownership.Compute
import Glean.Ownership.TrieLinking
import Glean.Ownership.FillOwnership
import Glean.Ownership.CollectUsets
import Glean.Ownership.Flatten
import Glean.Ownership.Owned
import Glean.Ownership.CompleteOwnership
import Glean.Ownership.ReachingUnits
import Glean.RocksDB.Database
import Glean.RocksDB.KeyBytes
import Glean.RocksDB.Commit
import Glean.RocksDB.Answers
import Glean.RocksDB.CommitRun
import Glean.RocksDB.Enumerate
import Glean.RocksDB.Layers
import Glean.RocksDB.AddOwnership
import Glean.RocksDB.UnitRun
import Glean.RocksDB.StoreOwnership
import Glean.RocksDB.OwnerIntervals
import Glean.RocksDB.DefineOwnership
import Glean.RocksDB.OwnershipSets
import Glean.RocksDB.DefineBatch
import Glean.RocksDB.DefineRun
import Glean.Library.Machine
import Glean.Library.Threads
import Glean.Database.Types
import Glean.Query.Derive
import Glean.Query.DeriveRun
import Glean.Database.WriteBatch
import Glean.Database.Writes
import Glean.Database.WritesRun
import Glean.Database.Lifecycle
import Glean.Database.LifecycleRun
import Glean.Database.LifecycleSteps
import Glean.Library.Halting
import Glean.RTS.Input
import Glean.RTS.Varint
import Glean.Bytecode.Instruction
import Glean.Bytecode.Code
import Glean.Bytecode.Assembly
import Glean.Bytecode.Layout
import Glean.Bytecode.ControlFlow
import Glean.Bytecode.Emission
import Glean.Bytecode.Performs
import Glean.RTS.Typecheck
import Glean.RTS.Encoding
import Glean.RTS.TypecheckCode
import Glean.RTS.TypecheckRun
import Glean.RTS.CheckSignature
import Glean.RTS.TypecheckValues
import Glean.RTS.Define
import Glean.RTS.TypedValue
import Glean.RTS.DefineHolds
import Glean.RTS.UntrustedBatch
import Glean.Database.WriteQueues
import Glean.Database.WriteQueuesRun
import Glean.Write.SendQueue
import Glean.Write.SendQueueRun
import Glean.Database.Catalog
import Glean.Database.CatalogStatus
import Glean.Database.CatalogTermination
import Glean.Database.CatalogRun
import Glean.Database.CatalogCommit
import Glean.Database.CatalogCommitRun
import Glean.Database.WorkQueue
import Glean.Database.Work
import Glean.Database.WorkTasks
import Glean.Database.WorkRun
import Glean.Database.WorkSteps
import Glean.Database.WorkSafety
import Glean.RTS.Rebase
import Glean.RTS.RebaseBatch
import Glean.Write.SendAndRebaseQueue
import Glean.Write.SendAndRebaseQueueRun
import Glean.Write.SendAndRebaseQueueSteps
import Glean.Write.SendAndRebaseQueueDelivery
import Glean.RTS.LookupCache
import Glean.RTS.LookupCacheRun
import Glean.Library.IntervalSet
import Glean.Library.KeyedMerge
import Glean.RTS.SubstIntervals
import Glean.Library.AscendingReader
import Glean.Ownership.SliceSets
import Glean.Ownership.SliceMeaning
import Glean.Library.Utf8
import Glean.RTS.MangledString
import Glean.RTS.ValueCodec
import Glean.Library.AssocMap
import Glean.Library.FallibleFold
import Glean.Library.TopologicalMarks
import Glean.Schema.Types
import Glean.Schema.Query
import Glean.Schema.TypecheckSchema
import Glean.Schema.SchemaStep
import Glean.Schema.StoredTypes
import Glean.Schema.StoredPredicates
import Glean.Schema.Negation
import Glean.Schema.BackCompatible
import Glean.Query.Evolve
import Glean.Query.EvolveValues
import Glean.Query.EvolveFacts
import Glean.Query.EvolvePattern
import Glean.Query.EvolvedPattern
import Glean.Library.CompactProtocol
import Glean.RTS.TrustedString
import Glean.Query.FactEncoding
import Glean.Query.CompactFacts
import Glean.Library.Endian
import Glean.Library.PrefixCode
import Glean.RTS.NatCodec
import Glean.RTS.UntrustedString
import Glean.RTS.FactCodec
import Glean.RTS.FactSetFields
import Glean.RTS.FactSetRun
import Glean.RTS.References
import Glean.RTS.FactSetRebase
import Glean.RTS.Validate
import Glean.RTS.ValidateClauses
import Glean.RTS.ValidateFacts
import Glean.RTS.ValidateTyped
import Glean.RTS.Traverse
import Glean.RTS.TraverseCode
import Glean.RTS.TraverseRun
import Glean.RTS.TraverseVisits
import Glean.RTS.TraverseClause
import Glean.Library.Byte
import Glean.Library.Closure
import Glean.Library.Worklist
import Glean.RTS.NestedResults
import Glean.Database.JanitorKeeps
import Glean.Query.NumericLiterals
import Glean.Library.Postorder
import Glean.Query.Flat
import Glean.Query.ReorderGroup
import Glean.Schema.QueryParts
import Glean.Query.CheckConstraints
import Glean.Query.CompileStatements
import Glean.Schema.TypeEquality
import Glean.Util.LineOffsets
import Glean.Util.SourceRange
import Glean.Util.TopLevelRanges
import Glean.RTS.DenseMap
import Glean.Library.JsonString
import Glean.RTS.JsonEscape
import Glean.Database.ParcelRun
import Glean.Ownership.TrieUnlinking
import Glean.Ownership.TrieRun
import Glean.Ownership.SetU32
import Glean.Ownership.SetU32Blocks
import Glean.Ownership.SetU32Merge
import Glean.Ownership.SetU32Union
import Glean.Ownership.SetU32Run
import Glean.Ownership.SetU32EliasFano
