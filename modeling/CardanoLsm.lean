import CardanoLsm.Lib.Layered
import CardanoLsm.Lib.Trace
import CardanoLsm.Lib.Counted
import CardanoLsm.Lib.Script
import CardanoLsm.MemTable
import CardanoLsm.BloomFilter
import CardanoLsm.Storage
import CardanoLsm.Ownership
import CardanoLsm.Ledger
import CardanoLsm.Lib.BinarySearch
import CardanoLsm.Format.Lookup
import CardanoLsm.Format.Damaged
import CardanoLsm.Format.Grammar
import CardanoLsm.Format.WrittenReads
import CardanoLsm.SessionLock
import CardanoLsm.Failures
import CardanoLsm.MemorySnapshots
import CardanoLsm.Iteration
import CardanoLsm.Leaks
import CardanoLsm.Order
import CardanoLsm.PointLookups
import CardanoLsm.SavedSnapshots
import CardanoLsm.Recovery
import CardanoLsm.BackPressure
import CardanoLsm.MerkleProofs
import CardanoLsm.MerkleDiff
import CardanoLsm.MerkleCapacity
import CardanoLsm.MonoidalLaws
import CardanoLsm.DegradedReads
import CardanoLsm.OpenFailures
import CardanoLsm.Merging
import CardanoLsm.SnapshotNames
import CardanoLsm.Leftovers
import CardanoLsm.Handover
import CardanoLsm.SessionShape
import CardanoLsm.Format.BitErrors
import CardanoLsm.Format.FilterHash
import CardanoLsm.Format.TreeBytes
import CardanoLsm.SnapshotCuts
import CardanoLsm.TypedTree
import CardanoLsm.Settling
import CardanoLsm.Bounds
import CardanoLsm.MerkleRuns
import CardanoLsm.Validation
import CardanoLsm.Discovery
import CardanoLsm.Schedules
import CardanoLsm.Shutdown
