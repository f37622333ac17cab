import MaiFaSp.Allocator.BoundaryTags
import MaiFaSp.Allocator.BoundaryTagsAllocate
import MaiFaSp.Allocator.BoundaryTagsBlocks
import MaiFaSp.Allocator.BoundaryTagsFit
import MaiFaSp.Allocator.BoundaryTagsInvariant
import MaiFaSp.Allocator.BoundaryTagsIterator
import MaiFaSp.Allocator.BoundaryTagsRequests
import MaiFaSp.Allocator.BoundaryTagsWalk
import MaiFaSp.Allocator.Buddies
import MaiFaSp.Allocator.BuddiesBlocks
import MaiFaSp.Allocator.BuddiesFit
import MaiFaSp.Allocator.BuddiesInvariant
import MaiFaSp.Allocator.BuddiesLoops
import MaiFaSp.Allocator.BuddiesPayload
import MaiFaSp.Allocator.BuddiesRegion
import MaiFaSp.Allocator.Contents
import MaiFaSp.Allocator.FitMode
import MaiFaSp.Allocator.RedBlackTree
import MaiFaSp.Allocator.RedBlackTreeBadFrees
import MaiFaSp.Allocator.RedBlackTreeBlocks
import MaiFaSp.Allocator.RedBlackTreeColors
import MaiFaSp.Allocator.RedBlackTreeConstruction
import MaiFaSp.Allocator.RedBlackTreeFit
import MaiFaSp.Allocator.RedBlackTreeInsert
import MaiFaSp.Allocator.RedBlackTreeInvariant
import MaiFaSp.Allocator.RedBlackTreeList
import MaiFaSp.Allocator.RedBlackTreeMemories
import MaiFaSp.Allocator.RedBlackTreeNodes
import MaiFaSp.Allocator.RedBlackTreeRuns
import MaiFaSp.Allocator.SortedList
import MaiFaSp.Allocator.SortedListAllocate
import MaiFaSp.Allocator.SortedListBadFrees
import MaiFaSp.Allocator.SortedListBlocks
import MaiFaSp.Allocator.SortedListFit
import MaiFaSp.Allocator.SortedListFree
import MaiFaSp.Allocator.SortedListInvariant
import MaiFaSp.Allocator.SortedListLoops
import MaiFaSp.Allocator.SortedListRequests
import MaiFaSp.BPlusTree.Bounds
import MaiFaSp.BPlusTree.ChainRun
import MaiFaSp.BPlusTree.Erase
import MaiFaSp.BPlusTree.EraseStep
import MaiFaSp.BPlusTree.InsertRun
import MaiFaSp.BPlusTree.InsertStep
import MaiFaSp.BPlusTree.Levels
import MaiFaSp.BPlusTree.Nodes
import MaiFaSp.BPlusTree.RepeatedKeys
import MaiFaSp.BPlusTree.Shape
import MaiFaSp.BTree.Bounds
import MaiFaSp.BTree.Erase
import MaiFaSp.BTree.Iteration
import MaiFaSp.BTree.Nodes
import MaiFaSp.BTree.RepeatedKeys
import MaiFaSp.BTree.SoleNode
import MaiFaSp.BTreeDisk.Capacity
import MaiFaSp.BTreeDisk.EraseLeaf
import MaiFaSp.BTreeDisk.EraseTree
import MaiFaSp.BTreeDisk.EraseWalk
import MaiFaSp.BTreeDisk.InUse
import MaiFaSp.BTreeDisk.InsertRun
import MaiFaSp.BTreeDisk.InsertShape
import MaiFaSp.BTreeDisk.Isolation
import MaiFaSp.BTreeDisk.Iteration
import MaiFaSp.BTreeDisk.Leaves
import MaiFaSp.BTreeDisk.Objects
import MaiFaSp.BTreeDisk.Operations
import MaiFaSp.BTreeDisk.Presence
import MaiFaSp.BTreeDisk.Records
import MaiFaSp.BTreeDisk.Sessions
import MaiFaSp.BTreeDisk.Spans
import MaiFaSp.BTreeDisk.Splits
import MaiFaSp.BTreeDisk.Storage
import MaiFaSp.BTreeDisk.Trees
import MaiFaSp.BTreeDisk.TwinErase
import MaiFaSp.BTreeDisk.TwinInsert
import MaiFaSp.BTreeDisk.TwinSplit
import MaiFaSp.BTreeDisk.TwinWalks
import MaiFaSp.BTreeDisk.Twins
import MaiFaSp.BigInt.AddSub
import MaiFaSp.BigInt.Bitwise
import MaiFaSp.BigInt.Compare
import MaiFaSp.BigInt.Conversion
import MaiFaSp.BigInt.DecimalRoundTrip
import MaiFaSp.BigInt.Digits
import MaiFaSp.BigInt.Divide
import MaiFaSp.BigInt.Karatsuba
import MaiFaSp.BigInt.Modulo
import MaiFaSp.BigInt.Multiply
import MaiFaSp.BigInt.MultiplyChecked
import MaiFaSp.BigInt.Ntt
import MaiFaSp.BigInt.NttExact
import MaiFaSp.BigInt.Numerals
import MaiFaSp.BigInt.Order
import MaiFaSp.BigInt.QuotientExact
import MaiFaSp.BigInt.RadixText
import MaiFaSp.BigInt.RulesAgree
import MaiFaSp.BigInt.SchonhageStrassen
import MaiFaSp.BigInt.SchonhageStrassenExact
import MaiFaSp.BigInt.Seen
import MaiFaSp.BigInt.ShiftedSum
import MaiFaSp.BigInt.Shifts
import MaiFaSp.BigInt.ShiftsExact
import MaiFaSp.BigInt.Strings
import MaiFaSp.BigInt.SumExact
import MaiFaSp.DirectoryListing.Conversation
import MaiFaSp.DirectoryListing.Server
import MaiFaSp.FileFlags.CopyFile
import MaiFaSp.FileFlags.FindString
import MaiFaSp.FileFlags.MaskedNumbers
import MaiFaSp.FileFlags.XorBlocks
import MaiFaSp.Fraction.ArcSineLogarithm
import MaiFaSp.Fraction.ArcTangent
import MaiFaSp.Fraction.Components
import MaiFaSp.Fraction.Derived
import MaiFaSp.Fraction.InPlace
import MaiFaSp.Fraction.Operators
import MaiFaSp.Fraction.Order
import MaiFaSp.Fraction.Rationals
import MaiFaSp.Fraction.Root
import MaiFaSp.Fraction.Series
import MaiFaSp.Fraction.Text
import MaiFaSp.Fraction.Tokens
import MaiFaSp.Lib.AVLShape
import MaiFaSp.Lib.AllocatorRun
import MaiFaSp.Lib.AlternatingSum
import MaiFaSp.Lib.ArcsineSeries
import MaiFaSp.Lib.Borders
import MaiFaSp.Lib.BoundedVector
import MaiFaSp.Lib.BuddyTree
import MaiFaSp.Lib.ByteMemory
import MaiFaSp.Lib.ByteStream
import MaiFaSp.Lib.CopiedSeparators
import MaiFaSp.Lib.DecimalText
import MaiFaSp.Lib.DoublyLinked
import MaiFaSp.Lib.Enumeration
import MaiFaSp.Lib.FirstLeast
import MaiFaSp.Lib.Interleave
import MaiFaSp.Lib.Limbs
import MaiFaSp.Lib.LinkedChain
import MaiFaSp.Lib.LinkedTree
import MaiFaSp.Lib.Lockstep
import MaiFaSp.Lib.NewtonRoot
import MaiFaSp.Lib.Outcomes
import MaiFaSp.Lib.Pipes
import MaiFaSp.Lib.RandomDescent
import MaiFaSp.Lib.RedBlackShape
import MaiFaSp.Lib.RequestReply
import MaiFaSp.Lib.Scanning
import MaiFaSp.Lib.Semaphores
import MaiFaSp.Lib.SkippedKeys
import MaiFaSp.Lib.Tiling
import MaiFaSp.Lib.Transform
import MaiFaSp.Lib.TreeSurgery
import MaiFaSp.Lib.TreeTraversal
import MaiFaSp.Lib.Truncation
import MaiFaSp.Lib.Unwinding
import MaiFaSp.Logger.ClientLogger
import MaiFaSp.Logger.Configuration
import MaiFaSp.Logger.ServerDelivery
import MaiFaSp.Logger.ServerLogger
import MaiFaSp.Logger.Streams
import MaiFaSp.Philosophers
import MaiFaSp.RedBlack.InOrder
import MaiFaSp.RedBlack.Insert
import MaiFaSp.RedBlack.Links
import MaiFaSp.RedBlack.Remove
import MaiFaSp.RiverCrossing.Clients
import MaiFaSp.RiverCrossing.Isolation
import MaiFaSp.RiverCrossing.Lifecycle
import MaiFaSp.RiverCrossing.Puzzle
import MaiFaSp.RiverCrossing.Scripts
import MaiFaSp.RiverCrossing.Server
import MaiFaSp.SearchTree.AVL
import MaiFaSp.SearchTree.AVLErase
import MaiFaSp.SearchTree.AVLInsert
import MaiFaSp.SearchTree.AVLLeftChild
import MaiFaSp.SearchTree.AVLRebalance
import MaiFaSp.SearchTree.AVLTree
import MaiFaSp.SearchTree.Bounds
import MaiFaSp.SearchTree.Container
import MaiFaSp.SearchTree.Erase
import MaiFaSp.SearchTree.Insertions
import MaiFaSp.SearchTree.Lookup
import MaiFaSp.SearchTree.PostfixTraversal
import MaiFaSp.SearchTree.RedBlackTree
import MaiFaSp.SearchTree.RotationReferences
import MaiFaSp.SearchTree.Rotations
import MaiFaSp.SearchTree.Search
import MaiFaSp.SearchTree.Size
import MaiFaSp.SearchTree.Splay
import MaiFaSp.SearchTree.SplayRoot
import MaiFaSp.SearchTree.StaleParent
import MaiFaSp.SearchTree.Traversals
import MaiFaSp.SharedRoom
import MaiFaSp.SharedRoom.StringToInt
import MaiFaSp.Shell.Accounts
import MaiFaSp.Shell.Commands
import MaiFaSp.Shell.Limit
import MaiFaSp.Shell.ValidateTime
