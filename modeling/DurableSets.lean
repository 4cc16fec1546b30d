import DurableSets.Core.Chain
import DurableSets.Core.Linearizable
import DurableSets.LinkFree.List
import DurableSets.LinkFree.ListInv
import DurableSets.LinkFree.ListStep
import DurableSets.LinkFree.ListRun
import DurableSets.Core.History
import DurableSets.LinkFree.ListHistory
import DurableSets.LinkFree.ListLinearizable
import DurableSets.LinkFree.ListDurable
import DurableSets.SOFT.PNode
import DurableSets.SOFT.List
import DurableSets.SOFT.ListInv
import DurableSets.SOFT.ListStep
import DurableSets.SOFT.ListRun
import DurableSets.SOFT.ListHelp
import DurableSets.SOFT.ListLinearizable
import DurableSets.Core.Schedule
import DurableSets.SOFT.ListDurable
import DurableSets.Ssmem.Allocator
import DurableSets.Ssmem.Epochs
import DurableSets.SOFT.ListMemory
import DurableSets.SOFT.ListSchedule
import DurableSets.SOFT.ListReclaim
import DurableSets.LinkFree.ListMemory
import DurableSets.LinkFree.ListReuse
import DurableSets.LinkFree.ListSchedule
import DurableSets.LinkFree.ListReclaim
import DurableSets.Core.Tower
import DurableSets.LinkFree.SkipList
import DurableSets.LinkFree.SkipListInv
import DurableSets.Core.Progress
import DurableSets.LinkFree.ListProgress
import DurableSets.SOFT.ListProgress
import DurableSets.SOFT.ListRecover
import DurableSets.SOFT.ListRestart
import DurableSets.LinkFree.ListRecover
import DurableSets.LinkFree.ListCrash
import DurableSets.SOFT.ListRestore
import DurableSets.SOFT.ListCrash
import DurableSets.LinkFree.SkipListRun
import DurableSets.LinkFree.SkipListHistory
import DurableSets.LinkFree.SkipListTrail
import DurableSets.LinkFree.SkipListLinearizable
import DurableSets.LinkFree.SkipListSchedule
import DurableSets.LinkFree.SkipListDurable
import DurableSets.LinkFree.SkipListReclaim
import DurableSets.LinkFree.SkipListMeasure
import DurableSets.LinkFree.SkipListProgress
import DurableSets.LinkFree.SkipListStall
import DurableSets.SOFT.SkipList
import DurableSets.SOFT.SkipListInv
import DurableSets.SOFT.SkipListStep
import DurableSets.SOFT.SkipListCall
import DurableSets.LinkFree.ListSlots
import DurableSets.Core.Sequential
import DurableSets.LinkFree.ListSequential
import DurableSets.Core.Ledger
import DurableSets.SOFT.ListSequential
import DurableSets.SOFT.ListSlots
import DurableSets.Core.Buckets
import DurableSets.HashTables
import DurableSets.Ssmem.Chunks
import DurableSets.Core.Growth
import DurableSets.LinkFree.ListParallel
import DurableSets.SOFT.ListParallel
import DurableSets.SOFT.ListRecovered
import DurableSets.LinkFree.SkipListAlone
import DurableSets.LinkFree.SkipListSearch
import DurableSets.LinkFree.SkipListSequential
import DurableSets.LinkFree.ListBoundary
import DurableSets.SOFT.ListBoundary
import DurableSets.LinkFree.SkipListBoundary
import DurableSets.Boundaries
import DurableSets.SOFT.SkipListRun
import DurableSets.SOFT.SkipListSearch
import DurableSets.SOFT.SkipListLevels
import DurableSets.SOFT.SkipListSequential
import DurableSets.Ssmem.Bench
import DurableSets.Ssmem.BenchReclaim
import DurableSets.Ssmem.ZeroMemory
import DurableSets.UnusedSlots
import DurableSets.SOFT.SkipListHistory
import DurableSets.SOFT.SkipListTrail
import DurableSets.SOFT.SkipListHelp
import DurableSets.SOFT.SkipListLinearizable
import DurableSets.SOFT.SkipListSchedule
import DurableSets.SOFT.SkipListStates
import DurableSets.SOFT.SkipListReclaim
import DurableSets.SOFT.SkipListMeasure
import DurableSets.SOFT.SkipListProgress
import DurableSets.SOFT.SkipListStall
import DurableSets.SOFT.SkipListDurable
import DurableSets.Core.LockFree
import DurableSets.Core.Load
import DurableSets.LinkFree.ListLockFree
import DurableSets.SOFT.ListLockFree
import DurableSets.Core.Durable
import DurableSets.Core.Undo
import DurableSets.Core.Projection
import DurableSets.Core.BucketRuns
import DurableSets.LinkFree.ListDurablyLinearizable
import DurableSets.SOFT.ListDurablyLinearizable
import DurableSets.HashTableRuns
import DurableSets.SOFT.ListSystem
import DurableSets.LinkFree.ListSystem
import DurableSets.Core.Cost
import DurableSets.SOFT.ListFlushes
import DurableSets.SOFT.SkipListFlushes
import DurableSets.SOFT.ListWaitFree
import DurableSets.LinkFree.ListWaitFree
import DurableSets.Core.Slope
import DurableSets.LinkFree.SkipListRemove
import DurableSets.LinkFree.SkipListContains
import DurableSets.SOFT.SkipListRemove
import DurableSets.SOFT.SkipListContains
import DurableSets.SOFT.SkipListDurablyLinearizable
import DurableSets.LinkFree.SkipListImage
import DurableSets.LinkFree.SkipListDurablyLinearizable
