import Agendafs.ForStd.Calls
import Agendafs.ForStd.Cursor
import Agendafs.ForStd.Descent
import Agendafs.ForStd.Forest
import Agendafs.ForStd.Keeps
import Agendafs.ForStd.Layout
import Agendafs.ForStd.Linked
import Agendafs.ForStd.Locks
import Agendafs.ForStd.Naming
import Agendafs.ForStd.PostOrder
import Agendafs.ForStd.Prog
import Agendafs.ForStd.Rounding
import Agendafs.ForStd.Sessions
import Agendafs.ForStd.Simulation
import Agendafs.ForStd.Tasks
import Agendafs.ForStd.Trail
import Agendafs.ForStd.TreeFs
import Agendafs.ForStd.WorkQueue
import Agendafs.Native.Buckets
import Agendafs.Native.Crash
import Agendafs.Native.FuseNode
import Agendafs.Native.FuseNodeStore
import Agendafs.Native.Hashmap
import Agendafs.Native.Ical
import Agendafs.Native.IcalExtra
import Agendafs.Native.Main
import Agendafs.Native.Path
import Agendafs.Native.StoreMemory
import Agendafs.Native.Watch
import Agendafs.Spec.BucketChains
import Agendafs.Spec.BucketRuns
import Agendafs.Spec.BucketsCorrect
import Agendafs.Spec.Categories
import Agendafs.Spec.ChildArrays
import Agendafs.Spec.Concurrency
import Agendafs.Spec.Confinement
import Agendafs.Spec.CreatedNotes
import Agendafs.Spec.CustomXattrs
import Agendafs.Spec.Deletion
import Agendafs.Spec.DirectoryCalls
import Agendafs.Spec.DirectoryMarks
import Agendafs.Spec.DirectorySizes
import Agendafs.Spec.EditedNames
import Agendafs.Spec.EditsCorrect
import Agendafs.Spec.EventCorrect
import Agendafs.Spec.EventOrder
import Agendafs.Spec.EventQueue
import Agendafs.Spec.Failures
import Agendafs.Spec.FileReads
import Agendafs.Spec.FileSystem
import Agendafs.Spec.FreedTrees
import Agendafs.Spec.FuseNodeCorrect
import Agendafs.Spec.HeldNotes
import Agendafs.Spec.HiddenNames
import Agendafs.Spec.IcalCorrect
import Agendafs.Spec.JournalAccessors
import Agendafs.Spec.KeptIdentity
import Agendafs.Spec.ListedXattrs
import Agendafs.Spec.Listing
import Agendafs.Spec.LoadCorrect
import Agendafs.Spec.LoadRelation
import Agendafs.Spec.LoadedNames
import Agendafs.Spec.LoadedTree
import Agendafs.Spec.LookupStops
import Agendafs.Spec.LostChunks
import Agendafs.Spec.MarkedDirectories
import Agendafs.Spec.MemoryRuns
import Agendafs.Spec.Mounted
import Agendafs.Spec.Mounting
import Agendafs.Spec.MovePersistence
import Agendafs.Spec.MovesCorrect
import Agendafs.Spec.NamesCorrect
import Agendafs.Spec.Namespace
import Agendafs.Spec.NamespaceMove
import Agendafs.Spec.NoteEdits
import Agendafs.Spec.OperationsCorrect
import Agendafs.Spec.ParentRelations
import Agendafs.Spec.PathCorrect
import Agendafs.Spec.PathLookup
import Agendafs.Spec.Readers
import Agendafs.Spec.ReadsAndWrites
import Agendafs.Spec.RelationsCorrect
import Agendafs.Spec.Remount
import Agendafs.Spec.RenameCorrect
import Agendafs.Spec.RenameFlags
import Agendafs.Spec.RenamedNotes
import Agendafs.Spec.Renumbering
import Agendafs.Spec.Runs
import Agendafs.Spec.SegmentBounds
import Agendafs.Spec.Siblings
import Agendafs.Spec.Splitters
import Agendafs.Spec.StartUp
import Agendafs.Spec.StatPaths
import Agendafs.Spec.StatusValues
import Agendafs.Spec.StoreCorrect
import Agendafs.Spec.StoreInMemory
import Agendafs.Spec.StoreInvariant
import Agendafs.Spec.StorePlacement
import Agendafs.Spec.StructuralIcal
import Agendafs.Spec.TreeSteps
import Agendafs.Spec.UpsertCorrect
import Agendafs.Spec.Visibility
import Agendafs.Spec.WatchLoop
import Agendafs.Spec.WritesCorrect
import Agendafs.Spec.XProperties
import Agendafs.Spec.XattrBytes
import Agendafs.Spec.XattrCalls
import Agendafs.Spec.XattrCells
import Agendafs.Spec.XattrRuns
import Agendafs.Spec.XattrSafety
