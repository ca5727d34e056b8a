import Liblor.LinearProbe
import Liblor.MapModel
import Liblor.MapIndex
import Liblor.DenseList
import Liblor.MapInvariant
import Liblor.MapReserve
import Liblor.MapSource
import Liblor.MapUpdate
import Liblor.KeyedList
import Liblor.Transition
import Liblor.MapRemove
import Liblor.MapRun
import Liblor.MapOwnership
import Liblor.SetModel
import Liblor.SetOperation
import Liblor.Handles
import Liblor.SetAlgebra
import Liblor.Ownership
import Liblor.BumpStack
import Liblor.ArenaModel
import Liblor.ArenaAlloc
import Liblor.ArenaSafety
import Liblor.ArenaReplay
import Liblor.ChannelModel
import Liblor.ChannelOrder
import Liblor.ChannelRendezvous
import Liblor.LittleEndian
import Liblor.TraceModel
import Liblor.TraceRecorder
import Liblor.NestedZones
import Liblor.TraceSystem
import Liblor.TraceAppend
import Liblor.TraceNesting
import Liblor.JsonText
import Liblor.TraceText
import Liblor.TraceFile
import Liblor.ArenaRewind
import Liblor.MapFailure
import Liblor.MapProbing
import Liblor.ArrayModel
import Liblor.ArrayInvariant
import Liblor.ArrayOperations
import Liblor.ArrayRun
import Liblor.ArraySource
import Liblor.StringInvariant
import Liblor.StringRun
import Liblor.LinearCongruence
import Liblor.RandomModel
import Liblor.WordBits
import Liblor.RandomPeriod
import Liblor.ChannelWaits
import Liblor.ChannelStrand
import Liblor.CliModel
import Liblor.CliRegistry
import Liblor.CliContents
import Liblor.CliRendered
import Liblor.ArenaAccounting
import Liblor.ArenaCommit
import Liblor.ArenaFailure
import Liblor.RandomBounded
import Liblor.MapAlias
import Liblor.MapCallbacks
import Liblor.SetCallbacks
import Liblor.SetKinds
import Liblor.PruningCauses
import Liblor.TraceFlush
import Liblor.CrowdedArcs
import Liblor.GrowthArithmetic
import Liblor.MapHistory
import Liblor.Occurrences
import Liblor.ViewChain
import Liblor.CliItems
import Liblor.CliAgreement
import Liblor.CliRoundTrip
import Liblor.CliRejected
import Liblor.CliPrefix
import Liblor.CliSpelling
import Liblor.CliCommute
import Liblor.CliMissing
import Liblor.PrefixCode
import Liblor.PrintModel
import Liblor.PrintQuoted
import Liblor.DoublyLinked
import Liblor.LeakAgreement
import Liblor.DepthFirst
import Liblor.HeaderModel
import Liblor.HeaderOrder
import Liblor.HeaderSelection
import Liblor.TraceDecode
import Liblor.TraceEscape
import Liblor.HeapObjects
import Liblor.TaskGroup
import Liblor.TaskGroupProgress
import Liblor.MapPlain
import Liblor.MapRehash
import Liblor.Scratch
import Liblor.ArenaHeaders
import Liblor.ArenaPointerCalls
import Liblor.ArenaPointerRuns
import Liblor.PrintContainers
import Liblor.ArrayGrowth
import Liblor.MapGrowth
import Liblor.StringGrowth
import Liblor.TraceProgram
import Liblor.TraceProgramRuns
import Liblor.TraceProgramProgress
import Liblor.Deadline
