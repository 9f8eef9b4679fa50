import MwNfd.Lib.Bytes
import MwNfd.Lib.Run
import MwNfd.Lib.Prefix
import MwNfd.Lib.Lru
import MwNfd.Lib.Slots
import MwNfd.Lib.Threads
import MwNfd.Lib.Links
import MwNfd.Lib.SortedMap
import MwNfd.Lib.Loop
import MwNfd.Tlv
import MwNfd.CityHash
import MwNfd.Packet
import MwNfd.WireDecode
import MwNfd.Dispatch.WorkerId
import MwNfd.Dispatch.Dissect
import MwNfd.Dispatch.Canonical
import MwNfd.Dispatch.Fragments
import MwNfd.Worker.Fib
import MwNfd.Table.Cs
import MwNfd.Table.FibEntry
import MwNfd.Mgmt.StrategyChoice
import MwNfd.Fw.PitToken
import MwNfd.Fw.FaceRemoval
import MwNfd.Face.LinkService
import MwNfd.Face.Reassembly
import MwNfd.Face.Agreement
import MwNfd.Table.NameTree
import MwNfd.Table.Pit
import MwNfd.Table.NameTreeLookup
import MwNfd.Table.NameTreeIterator
import MwNfd.Table.CsDual
import MwNfd.Face.Fragmenter
import MwNfd.Face.RoundTrip
import MwNfd.Rib.Table
import MwNfd.Rib.FibUpdater
import MwNfd.Rib.ComputeUpdates
import MwNfd.Face.SharedSend
import MwNfd.Face.Reliability
import MwNfd.Face.ReliabilityInvariant
import MwNfd.Lib.Lex
import MwNfd.NameOrder
import MwNfd.Table.CsRange
import MwNfd.Fw.Strategy
import MwNfd.Table.StrategyChoice
import MwNfd.Lib.Walk
import MwNfd.Table.Cleanup
import MwNfd.Worker.FibRun
