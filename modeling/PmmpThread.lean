import PmmpThread.Zend.Hash
import PmmpThread.Zend.Upsert
import PmmpThread.Zend.Foreach
import PmmpThread.Zend.Parts
import PmmpThread.Zend.Heap
import PmmpThread.Zend.Dlist
import PmmpThread.Zend.Bailout
import PmmpThread.Zend.Tiles
import PmmpThread.Pthread.Mutex
import PmmpThread.Pthread.Knot
import PmmpThread.Model.Store
import PmmpThread.Model.Keys
import PmmpThread.Model.Value
import PmmpThread.Model.World
import PmmpThread.Model.Ops
import PmmpThread.Model.Step
import PmmpThread.Model.Property
import PmmpThread.Model.Locks
import PmmpThread.Model.Monitors
import PmmpThread.Model.Copy
import PmmpThread.Model.Calls
import PmmpThread.Model.Worker
import PmmpThread.Model.Collector
import PmmpThread.Model.Routine
import PmmpThread.Model.Pool
import PmmpThread.Model.Constants
import PmmpThread.Model.Functions
import PmmpThread.Model.Classes
import PmmpThread.Model.Interceptors
import PmmpThread.Model.Closures
import PmmpThread.Model.QueueRuns
import PmmpThread.Model.Ast
import PmmpThread.Model.Opcodes
import PmmpThread.Model.Sockets
import PmmpThread.Proofs.Bounds
import PmmpThread.Proofs.Keys
import PmmpThread.Proofs.Iterator
import PmmpThread.Proofs.Moves
import PmmpThread.Proofs.Connections
import PmmpThread.Proofs.Tables
import PmmpThread.Proofs.Property
import PmmpThread.Proofs.Views
import PmmpThread.Proofs.Addresses
import PmmpThread.Proofs.Ownership
import PmmpThread.Proofs.Strings
import PmmpThread.Proofs.Steps
import PmmpThread.Proofs.Append
import PmmpThread.Proofs.Modcounts
import PmmpThread.Proofs.Coherence
import PmmpThread.Proofs.CachedReads
import PmmpThread.Proofs.Isset
import PmmpThread.Proofs.ReadYourWrites
import PmmpThread.Proofs.FullSync
import PmmpThread.Proofs.FullSyncEnds
import PmmpThread.Proofs.FullSyncComplete
import PmmpThread.Proofs.Births
import PmmpThread.Model.Merge
import PmmpThread.Proofs.Merge
import PmmpThread.Proofs.Numerals
import PmmpThread.Proofs.MergeOverwrite
import PmmpThread.Proofs.MergePaths
import PmmpThread.Proofs.MergeStrings
import PmmpThread.Model.ReadBack
import PmmpThread.Proofs.MergeRuns
import PmmpThread.Proofs.FromArray
import PmmpThread.Proofs.Rescue
import PmmpThread.Proofs.Reentrancy
import PmmpThread.Proofs.Deadlock
import PmmpThread.Proofs.Monitors
import PmmpThread.Proofs.Bailout
import PmmpThread.Proofs.Queue
import PmmpThread.Proofs.Join
import PmmpThread.Proofs.Worker
import PmmpThread.Proofs.Collector
import PmmpThread.Proofs.Stop
import PmmpThread.Proofs.Pool
import PmmpThread.Proofs.Resize
import PmmpThread.Proofs.Constants
import PmmpThread.Proofs.Functions
import PmmpThread.Proofs.ClassNames
import PmmpThread.Proofs.ClassCopies
import PmmpThread.Proofs.ClassCreate
import PmmpThread.Proofs.ClassLinking
import PmmpThread.Proofs.ClassSame
import PmmpThread.Proofs.ClassCompletion
import PmmpThread.Proofs.Interceptors
import PmmpThread.Proofs.Closures
import PmmpThread.Proofs.Deadline
import PmmpThread.Proofs.QueueRuns
import PmmpThread.Proofs.Ast
import PmmpThread.Proofs.Opcodes
import PmmpThread.Proofs.Sockets
import PmmpThread.Proofs.CopyEnds
import PmmpThread.Model.Faults
import PmmpThread.Model.PropertyRead
import PmmpThread.Proofs.Faults
import PmmpThread.Proofs.PropertyCells
import PmmpThread.Pthread.Cond
import PmmpThread.Model.Garbage
import PmmpThread.Model.Conditions
import PmmpThread.Proofs.Garbage
import PmmpThread.Proofs.Conditions
import PmmpThread.Proofs.PoolRuns
import PmmpThread.Zend.OrderedArray
import PmmpThread.Model.Arrays
import PmmpThread.Proofs.Arrays
import PmmpThread.Proofs.Deliveries
import PmmpThread.Model.Requests
import PmmpThread.Proofs.Requests
import PmmpThread.Model.Handlers
import PmmpThread.Proofs.Handlers
import PmmpThread.Model.Ini
import PmmpThread.Proofs.Ini
import PmmpThread.Zend.Owned
import PmmpThread.Model.SharedStrings
import PmmpThread.Proofs.SharedStrings
import PmmpThread.Proofs.StringRuns
