import Gem5.Machine
import Gem5.Laps
import Gem5.Bytes
import Gem5.Basic
import Gem5.EtherPacket
import Gem5.DescCache
import Gem5.Interrupt
import Gem5.LoadGenerator
import Gem5.DistSync
import Gem5.Proofs.DescCache
import Gem5.Proofs.Engines
import Gem5.Proofs.Ring
import Gem5.Proofs.Writeback
import Gem5.Proofs.Reset
import Gem5.Proofs.Interrupt
import Gem5.Proofs.Latency
import Gem5.Proofs.RateAdaptation
import Gem5.Proofs.DistSync
import Gem5.Inet
import Gem5.PacketFifo
import Gem5.Proofs.PacketFifo
import Gem5.TxPath
import Gem5.Proofs.TxPath
import Gem5.Proofs.TxReserve
import Gem5.Proofs.Inet
import Gem5.Tso
import Gem5.Proofs.Segment
import Gem5.Proofs.TxClock
import Gem5.Proofs.TxTotal
import Gem5.Proofs.TsoStage
import Gem5.Proofs.TsoSteps
import Gem5.Proofs.Tso
import Gem5.Proofs.DistExit
import Gem5.RecvScheduler
import Gem5.Proofs.RecvScheduler
import Gem5.DistNet
import Gem5.Proofs.DistPlan
import Gem5.Proofs.DistChannel
import Gem5.Proofs.DistRepeat
import Gem5.Proofs.DistNet
import Gem5.Pieces
import Gem5.Packet
import Gem5.ChunkGenerator
import Gem5.DmaPort
import Gem5.Proofs.ChunkGenerator
import Gem5.Proofs.DmaPort
import Gem5.DmaAtomic
import Gem5.Proofs.DmaAtomic
import Gem5.Mshr
import Gem5.Proofs.Mshr
import Gem5.SnoopFilter
import Gem5.Proofs.LoadEvents
import Gem5.Proofs.BurstShape
import Gem5.Proofs.LossDetection
import Gem5.Proofs.SnoopFilter
import Gem5.EtherSwitch
import Gem5.Proofs.EtherSwitch
import Gem5.Bins
import Gem5.Linked
import Gem5.EventQueue
import Gem5.Proofs.EventQueue
import Gem5.PacketQueue
import Gem5.Proofs.PacketQueue
import Gem5.Proofs.XBarLayer
import Gem5.Bridge
import Gem5.AddrRange
import Gem5.Interleave
import Gem5.Proofs.AddrRange
import Gem5.Proofs.Bridge
import Gem5.AddrRangeMap
import Gem5.Proofs.AddrRangeMap
import Gem5.CoherentXBar
import Gem5.Proofs.CoherentXBar
import Gem5.Cache
import Gem5.Proofs.FifoOrder
import Gem5.EtherLink
import Gem5.Proofs.EtherLink
import Gem5.Proofs.SwitchQueue
import Gem5.Proofs.Throttle
import Gem5.Proofs.TxEnable
import Gem5.Proofs.TxBuffer
import Gem5.Proofs.SegmentLength
import Gem5.RxPath
import Gem5.Proofs.RxPath
import Gem5.Proofs.HeaderSplit
import Gem5.Proofs.RxClock
import Gem5.Proofs.RxDelivery
import Gem5.Proofs.Cache
import Gem5.Proofs.CacheStep
import Gem5.Proofs.Lru
import Gem5.Proofs.WayPartition
import Gem5.Proofs.HeaderMark
import Gem5.Proofs.IoInvalidated
import Gem5.Proofs.MshrFlags
import Gem5.MissQueue
import Gem5.Proofs.MissQueue
import Gem5.DmaReadFifo
import Gem5.Proofs.DmaReadFifo
import Gem5.Proofs.DmaChunks
import Gem5.Proofs.DmaFinish
import Gem5.Proofs.DistCkpt
import Gem5.Proofs.MissQueueLists
import Gem5.LoadLocks
import Gem5.Proofs.LoadLocks
import Gem5.HeaderWalk
import Gem5.Proofs.HeaderWalk
import Gem5.Proofs.ExtensionChain
import Gem5.Eeprom
import Gem5.Proofs.Eeprom
import Gem5.Prefetcher
import Gem5.Proofs.PrefetchQueue
import Gem5.Proofs.PrefetchOrder
import Gem5.Proofs.PrefetchTranslation
import Gem5.Proofs.IntlvRoundTrip
import Gem5.Proofs.RangeRelations
import Gem5.ClockedObject
import Gem5.Proofs.ClockedObject
import Gem5.Histogram
import Gem5.Proofs.Histogram
import Gem5.Proofs.ChunkSkips
import Gem5.Proofs.Copyout
import Gem5.Proofs.TreePlru
