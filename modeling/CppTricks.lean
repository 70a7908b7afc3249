import CppTricks.Cache.Lru
import CppTricks.Cache.LruCache
import CppTricks.Cache.LruCacheV2
import CppTricks.Connectivity.QuickUnion
import CppTricks.Graph.Contraction
import CppTricks.Graph.Dijkstra
import CppTricks.Graph.SccIterative
import CppTricks.MemInDeep.Acceptance
import CppTricks.MemInDeep.Lexing
import CppTricks.MemInDeep.MainLoop
import CppTricks.MemInDeep.RoundTrip
import CppTricks.Sort.QuickSort
import CppTricks.ZigZag.InPlace
import CppTricks.Queue.BoundedTryQueue
import CppTricks.Queue.MessageQueue
import CppTricks.Queue.OnQueue
import CppTricks.Queue.RecyclableQueue
import CppTricks.Knapsack.Schedules
import CppTricks.Knapsack.BigKnapsack
import CppTricks.Cache.LruCacheV2Throwing
import CppTricks.Sutter.Lifo
import CppTricks.Sutter.Programs
import CppTricks.WordBreak.WordBreak2
import CppTricks.Graph.SearchInGraph
import CppTricks.Sort.CountingInversions
import CppTricks.Sort.MergeSort
import CppTricks.Wis.Reconstruction
import CppTricks.Amazon.OptBigBin
import CppTricks.Queue.WriteAndRead
import CppTricks.GraphRecords.BuildGraph
import CppTricks.Amazon.Tapes
import CppTricks.Dyn.MaxGrow
import CppTricks.Dyn.MaxCont
import CppTricks.Dyn.Way
import CppTricks.Oj.GasStantion
import CppTricks.Oj.Reverse
import CppTricks.Facebook.ReverseStringInPlace
import CppTricks.Crack.RotateImg
import CppTricks.Crack.MakeBst
import CppTricks.Crack.Trees
import CppTricks.Crack.Duplicates
import CppTricks.W6.RunningMedians
import CppTricks.W6.TwoSum
import CppTricks.IntelCompetition.Fill
import CppTricks.IntelCompetition.Parse
import CppTricks.BitMasking.DataLeafNode
import CppTricks.Sort.SelectionSort
import CppTricks.Foundation.Chains
import CppTricks.Crack.OwnForwardList
import CppTricks.Crack.ListPrograms
import CppTricks.Foundation.ExtendedEuclid
import CppTricks.Foundation.RoundCipher
import CppTricks.Foundation.FileStream
import CppTricks.Crypt.Key
import CppTricks.Crypt.Cipher
import CppTricks.Crypt.Main
import CppTricks.Sync.RwSemaphore
import CppTricks.Records.Pairs
import CppTricks.Foundation.Tallies
import CppTricks.Foundation.Windows
import CppTricks.Tagger.Corpus
import CppTricks.Tagger.CountFreqs
import CppTricks.Tagger.CountsFile
import CppTricks.Foundation.Marks
import CppTricks.Tagger.Evaluator
import CppTricks.MemInDeep.LongestMatch
import CppTricks.MemInDeep.Sessions
import CppTricks.Foundation.CriticalSections
import CppTricks.Sync.BankAccount
import CppTricks.Sync.DataReady
import CppTricks.Crack.Levels
import CppTricks.Graph.DfsExpensive
import CppTricks.Sync.SafeAssign
import CppTricks.Sync.SharedAssign
import CppTricks.Foundation.SortPasses
import CppTricks.Greedy.Schedule
import CppTricks.Foundation.SharedHeap
import CppTricks.SeanParent.History
