import UC.Lib.Memory
import UC.Lib.Ring
import UC.Lib.Runs
import UC.UnlockQueue.Fifo
import UC.Coroutine.Model
import UC.Coroutine.Slots
import UC.UnlockQueue.Interleaving
import UC.Coroutine.Stacks
import UC.HashShm.FiniteMap
import UC.Huffman.Model
import UC.Huffman.Optimal
import UC.Lib.NodeRing
import UC.Lib.Words
import UC.ShmQueue.Layout
import UC.ShmQueue.Operations
import UC.ShmQueue.Interleaving
import UC.ShmQueue.Fifo
import UC.BPlusTree.Model
import UC.BPlusTree.Node
import UC.BPlusTree.Tree
import UC.BPlusTree.Split
import UC.BPlusTree.Insert
import UC.BPlusTree.Shape
import UC.BPlusTree.SingleLeaf
import UC.BPlusTree.TwoLeaves
import UC.Lib.Bindings
import UC.BPlusTree.Lookups
import UC.BPlusTree.Select
import UC.Lib.Cuts
import UC.BPlusTree.Range
import UC.BPlusTree.Siblings
import UC.BPlusTree.Rebalance
import UC.BPlusTree.Window
import UC.BPlusTree.Removal
import UC.BPlusTree.Update
import UC.Heap.Overflow
import UC.ThreadPool.Safety
import UC.ShmQueue.Gap
import UC.ShmQueue.Corruption
import UC.ShmQueue.ReaderSlots
import UC.Lib.Histories
import UC.ThreadPool.Shutdown
import UC.HashShm.Strings
import UC.HashShm.Counter
import UC.Avl.Imbalance
import UC.LeftHeap.Forest
import UC.Scheduler.Yields
import UC.StringTable.FiniteMap
import UC.MemPool.Model
import UC.MemPool.Lists
import UC.MemPool.Partition
import UC.MemPool.Areas
import UC.UnlockQueue.Records
import UC.ShmQueue.Room
import UC.ShmQueue.Usage
import UC.BPlusTree.Sequence
import UC.BPlusTree.InnerBalance
import UC.BPlusTree.LeafBalance
import UC.RedisPool.Accounting
import UC.RedisPool.Leaks
import UC.BoundedStore.Model
import UC.BoundedStore.Safety
import UC.Lib.Tails
import UC.Trie.Model
import UC.Trie.Insert
import UC.Trie.Travel
import UC.Lib.Cells
import UC.Digraph.Model
import UC.Lib.Levels
import UC.Digraph.ShortestPath
import UC.Digraph.DepthFirst
import UC.Graph.Model
import UC.Graph.Connected
import UC.Digraph.Reading
import UC.SearchTree.Deletion
import UC.BinaryTree.Travel
import UC.Lib.Ints
import UC.Lib.Sorting
import UC.Sort.Quick
import UC.Sort.Heap
import UC.Sort.Merge
import UC.Sort.Shell
import UC.Sort.Bucket
import UC.Morse.Model
import UC.Morse.RoundTrip
import UC.Huffman.Coding
import UC.Huffman.Levels
import UC.Trie.Indices
import UC.ShmModes.Model
import UC.HashShm.RowSizes
import UC.ShmModes.Largest
import UC.StringTable.Size
import UC.BinarySearch.Midpoints
import UC.UnlockQueue.Rounding
import UC.HashChains.Model
import UC.HashChains.Buckets
import UC.HashChains.Insertion
import UC.LinearProbing.Model
import UC.LinearProbing.Probing
import UC.MemPool.FreeCount
import UC.Lib.Candidates
import UC.ShmModes.Table
import UC.ShmModes.FiniteMap
import UC.Lib.Threads
import UC.OptTime.Model
import UC.OptTime.Reports
import UC.OptTime.Clock
import UC.OptTime.Readings
import UC.Sync.Model
import UC.Sync.Totals
import UC.Lib.Heaps
import UC.Trie.Nodes
import UC.Trie.Release
import UC.Digraph.RoundTrip
import UC.BinaryTree.Creation
import UC.BPlusTree.Clearing
import UC.BPlusTree.FoundKeys
import UC.BPlusTree.Way
import UC.BPlusTree.Refits
import UC.BPlusTree.Rebalanced
import UC.BPlusTree.Descent
import UC.HashShm.Snapshots
import UC.ShmQueue.Segments
import UC.Coroutine.Blocks
import UC.Coroutine.Refinement
import UC.ThreadPool.Accounts
import UC.StringTable.Blocks
import UC.Lib.SearchTrees
import UC.SearchTree.Nodes
import UC.SearchTree.Unlinking
