import InodeFs.Lib.Layout
import InodeFs.Lib.DeviceProgram
import InodeFs.Lib.NameGraph
import InodeFs.Disk.Directory
import InodeFs.State.Capacity
import InodeFs.Properties.Allocation
import InodeFs.Ops.Remove
import InodeFs.Properties.Reading
import InodeFs.Properties.AllocationOrder
import InodeFs.Properties.Paths
import InodeFs.Properties.Ranks
import InodeFs.Properties.Frame
import InodeFs.Properties.Lookup
import InodeFs.Properties.Entries
import InodeFs.Properties.Runs
import InodeFs.Properties.Truncation
import InodeFs.Properties.Writing
import InodeFs.Properties.Renaming
import InodeFs.Properties.Fsck
import InodeFs.Lib.Interleaving
import InodeFs.State.Joint
import InodeFs.Properties.Statistics
import InodeFs.Properties.Formatting
import InodeFs.Properties.ReadLength
import InodeFs.Properties.LargeOffsets
import InodeFs.Properties.WriteLeaks
import InodeFs.Properties.DirectoryRemoval
import InodeFs.Properties.ReleasedBlocks
import InodeFs.Properties.Appending
import InodeFs.Properties.MissingPaths
import InodeFs.Properties.LongNames
import InodeFs.Properties.Views
import InodeFs.Properties.Freeing
import InodeFs.Properties.RecordArrays
import InodeFs.Properties.Concurrency
import InodeFs.Lib.PathTree
import InodeFs.Code.Main
import InodeFs.Ops.Handles
import InodeFs.Spec.FileTree
import InodeFs.State.Spared
import InodeFs.Spec.Service
import InodeFs.Lib.Traces
import InodeFs.Properties.Start
import InodeFs.State.TreeSteps
import InodeFs.Properties.Service
import InodeFs.Properties.Durability
import InodeFs.Properties.Undo
import InodeFs.Properties.Numbers
import InodeFs.Lib.Stages
import InodeFs.State.Passage
import InodeFs.Ops.Observed
import InodeFs.Ops.ObservedContents
import InodeFs.State.Staging
import InodeFs.Ops.Writes
import InodeFs.Ops.Passing
import InodeFs.Ops.PassageOfNames
import InodeFs.Ops.PassingNames
import InodeFs.Properties.Observers
