import ArmsTiering.Core.Transition
import ArmsTiering.Core.Circular
import ArmsTiering.Core.Counting
import ArmsTiering.Core.DelayedMap
import ArmsTiering.Core.Simulation
import ArmsTiering.Pebs.Page
import ArmsTiering.Pebs.Sampling
import ArmsTiering.Pebs.PageLife
import ArmsTiering.Pebs.Domination
import ArmsTiering.Kdq.Queue
import ArmsTiering.Core.Probing
import ArmsTiering.Khash.Flags
import ArmsTiering.Khash.Table
import ArmsTiering.Khash.Rehash
import ArmsTiering.Khash.Maps
import ArmsTiering.Core.Interleaving
import ArmsTiering.Kbtree.Node
import ArmsTiering.Kbtree.Search
import ArmsTiering.Kbtree.Insert
import ArmsTiering.Kbtree.Delete
import ArmsTiering.Kbtree.Tree
import ArmsTiering.Pebs.ModPageQueue
import ArmsTiering.Migration.Pipeline
import ArmsTiering.Migration.Pending
import ArmsTiering.Migration.Balance
import ArmsTiering.Migration.Loans
import ArmsTiering.Migration.Wakeups
import ArmsTiering.Machine.Step
import ArmsTiering.Machine.Schedule
import ArmsTiering.Machine.LoopInvariant
import ArmsTiering.Machine.ScheduleSound
import ArmsTiering.Machine.Effect
import ArmsTiering.Machine.Places
import ArmsTiering.Machine.FreeLists
import ArmsTiering.Machine.Presence
import ArmsTiering.Machine.AddressSpace
import ArmsTiering.Machine.Frames
import ArmsTiering.Machine.Agreement
import ArmsTiering.Machine.PolicyMap
import ArmsTiering.Machine.Blocks
import ArmsTiering.Machine.Naming
import ArmsTiering.Machine.Tiered
import ArmsTiering.Machine.Conservation
import ArmsTiering.Machine.Copying
import ArmsTiering.Machine.FlatMemory
import ArmsTiering.Arms.Munmap
import ArmsTiering.Kernel.PageWalk
import ArmsTiering.Kernel.DmaChannels
import ArmsTiering.Kernel.DmaCopy
import ArmsTiering.Kernel.DmaSafety
import ArmsTiering.Kernel.DmaDelivery
import ArmsTiering.Core.Memory
import ArmsTiering.Flexkvs.Item
import ArmsTiering.Flexkvs.Layout
import ArmsTiering.Flexkvs.Log
import ArmsTiering.Flexkvs.Hashtable
import ArmsTiering.Core.LinkedList
import ArmsTiering.Flexkvs.Buckets
import ArmsTiering.Flexkvs.Table
import ArmsTiering.Flexkvs.TableMap
import ArmsTiering.Flexkvs.Segments
import ArmsTiering.Flexkvs.CompareAndSet
import ArmsTiering.Flexkvs.Request
import ArmsTiering.Arms.FailedUnmap
import ArmsTiering.Machine.ScoreArray
import ArmsTiering.Machine.HotAge
import ArmsTiering.Pebs.AccessCounts
import ArmsTiering.Core.GuardFlag
import ArmsTiering.Arms.InternalCall
import ArmsTiering.Flexkvs.Recycling
import ArmsTiering.Flexkvs.Serving
import ArmsTiering.Pebs.RingQueue
import ArmsTiering.Pebs.Smoothing
import ArmsTiering.Kbtree.Calls
import ArmsTiering.Pebs.Neighbours
import ArmsTiering.Pebs.SmoothedMean
import ArmsTiering.Flexkvs.SegmentLock
import ArmsTiering.Flexkvs.Workload
import ArmsTiering.Core.LittleEndian
import ArmsTiering.Flexkvs.JenkinsHash
import ArmsTiering.Flexkvs.JenkinsMix
import ArmsTiering.Kernel.DmaTiling
import ArmsTiering.Flexkvs.Cleaning
import ArmsTiering.Flexkvs.SegmentWalk
import ArmsTiering.Flexkvs.OutOfMemory
import ArmsTiering.Core.DoublyLinked
import ArmsTiering.Lru.Fifo
import ArmsTiering.Lru.Sequences
import ArmsTiering.Lru.Allocate
import ArmsTiering.Flexkvs.EventLoop
import ArmsTiering.Lru.Partition
import ArmsTiering.Flexkvs.SplitBuffer
import ArmsTiering.Flexkvs.Fragmentation
import ArmsTiering.Flexkvs.CleanupQueue
import ArmsTiering.Flexkvs.References
import ArmsTiering.Flexkvs.Updates
import ArmsTiering.Flexkvs.Holders
import ArmsTiering.Kbtree.Tree
import ArmsTiering.Kbtree.Iterate
import ArmsTiering.Core.Barrier
import ArmsTiering.Arms.ParallelCopy
import ArmsTiering.Arms.ParallelProgress
