import MwNfd.Dispatch.Fragments
import MwNfd.WireDecode

/-!
# Receiving a face's packets: the face's link service and the workers' (`generic-link-service.cpp`)

A face's `GenericLinkService` is created with `Options` that its channel sets: UDP and Ethernet
faces allow reassembly and take `LpReliability` from the face parameters, stream faces allow
local fields when asked. `doReceivePacket` runs the reliability check (Acks, TxSequence and
duplicate Sequences), drops IDLE packets and, without reassembly, fragments, hands the fragment
to `LpReassembler::receiveFragment` and decodes the network packet of a complete message,
turning the LP header fields into tags by the Options.

With forwarding workers the transport first calls `dcnReceivePacket`. Only a packet it declines
goes to the face's own link service; a packet it enqueues is received by the worker, through
the `GenericLinkService` that `MwNfd::processNfdcCommand` created for the face on
`MW_NFDC_VERB_CREATE`, with default `Options` and endpoint 0.

* `doReceivePacket_default_fragment`: a link service with default Options drops every fragment
  and keeps its state.
* `decodeNetPacket_default_nextHopFaceId`: and every Interest that carries a NextHopFaceId.
* `faceReceive_enqueued`: an enqueued packet never reaches the face's own link service.
-/

namespace MwNfd

/-! ## The LP packet and its fields -/

/-- A packet as a link service receives it: a bare network packet, or an `LpPacket` with its
header fields and its Fragment, which an IDLE packet has not. -/
inductive LinkFrame where
  | bare (netPkt : List UInt8)
  | lp (headers : List LpHeader) (fragment : Option (List UInt8))
  deriving DecidableEq

def LinkFrame.wire : LinkFrame → List UInt8
  | .bare netPkt => netPkt
  | .lp headers fragment => lpPacketWire headers fragment

/-- The header fields of `lp::Packet(packet)`: a bare network packet has none. -/
def LinkFrame.headers : LinkFrame → List LpHeader
  | .bare _ => []
  | .lp headers _ => headers

/-- The Fragment of `lp::Packet(packet)`: a bare network packet is all Fragment. -/
def LinkFrame.fragment : LinkFrame → Option (List UInt8)
  | .bare netPkt => some netPkt
  | .lp _ fragment => fragment

/-- The value of a header field kept by its TLV-TYPE. -/
def LpHeader.fieldValue (type : Nat) : LpHeader → Option (List UInt8)
  | .field t value => if t = type then some value else none
  | _ => none

/-- `lp::Packet::get` of such a field: the first one. -/
def lpGet (headers : List LpHeader) (type : Nat) : Option (List UInt8) :=
  headers.findSome? (LpHeader.fieldValue type)

/-- `lp::Packet::list` of such a field: all of them, in order. -/
def lpList (headers : List LpHeader) (type : Nat) : List (List UInt8) :=
  headers.filterMap (LpHeader.fieldValue type)

def lpSequence (headers : List LpHeader) : Option UInt64 :=
  headers.findSome? fun | .sequence s => some s | _ => none

def lpFragIndex (headers : List LpHeader) : Option Nat :=
  headers.findSome? fun | .fragIndex i => some i | _ => none

def lpFragCount (headers : List LpHeader) : Option Nat :=
  headers.findSome? fun | .fragCount c => some c | _ => none

def lpPitToken (headers : List LpHeader) : Option (List UInt8) :=
  headers.findSome? fun | .pitToken t => some t | _ => none

/-! ## Options and what is delivered -/

/-- The `GenericLinkService::Options` that the receive path reads, with their defaults.
`allowFragmentation` and the congestion options act on sending only. -/
structure LinkServiceOptions where
  allowLocalFields : Bool := false
  allowReassembly : Bool := false
  /-- `reliabilityOptions.isEnabled` -/
  reliabilityEnabled : Bool := false
  allowSelfLearning : Bool := true
  /-- `reassemblerOptions.nMaxFragments` -/
  nMaxFragments : Nat := 400
  deriving DecidableEq

/-- The Options `UdpChannel` (and `EthernetChannel`) gives a face it creates. -/
def udpChannelOptions (wantLpReliability : Bool) : LinkServiceOptions :=
  { allowReassembly := true, reliabilityEnabled := wantLpReliability }

/-- The Options `TcpChannel` (and a Unix stream face) gives a face it creates. -/
def tcpChannelOptions (wantLocalFields wantLpReliability : Bool) : LinkServiceOptions :=
  { allowLocalFields := wantLocalFields, reliabilityEnabled := wantLpReliability }

inductive NetKind where
  | interest
  | data
  | nack
  deriving DecidableEq

/-- What reaches the forwarder: `receiveInterest`, `receiveData` or `receiveNack`, with the
network packet, the tags set from LP fields (by TLV-TYPE, the Nack header under `Nack`), and
the endpoint. -/
structure Delivery where
  kind : NetKind
  netPkt : List UInt8
  tags : List (Nat × List UInt8)
  endpoint : Nat
  deriving DecidableEq

/-- The tag a field present in the packet becomes. -/
def lpTag (headers : List LpHeader) (type : Nat) : List (Nat × List UInt8) :=
  (lpGet headers type).toList.map (type, ·)

def pitTokenTag (headers : List LpHeader) : List (Nat × List UInt8) :=
  (lpPitToken headers).toList.map (lp.tlv.pitToken, ·)

/-- `GenericLinkService::decodeInterest`: an Interest that does not decode, a NextHopFaceId
without local fields, a CachePolicy or a PrefixAnnouncement drops the Interest; IncomingFaceId is
ignored, and NonDiscovery without self-learning. -/
def decodeInterest (opts : LinkServiceOptions) (netPkt : Block) (firstPkt : List LpHeader)
    (endpoint : Nat) : Option Delivery :=
  -- `make_shared<Interest>(netPkt)` throws, and `decodeNetPacket` catches it
  if !Interest.wireDecode netPkt then none
  else if (lpGet firstPkt lp.tlv.nextHopFaceId).isSome ∧ !opts.allowLocalFields then none
  else if (lpGet firstPkt lp.tlv.cachePolicy).isSome then none
  else if (lpGet firstPkt lp.tlv.prefixAnnouncement).isSome then none
  else some ⟨.interest, netPkt.wire,
    lpTag firstPkt lp.tlv.nextHopFaceId ++ lpTag firstPkt lp.tlv.congestionMark ++
      (if opts.allowSelfLearning then lpTag firstPkt lp.tlv.nonDiscovery else []) ++
      pitTokenTag firstPkt, endpoint⟩

/-- `GenericLinkService::decodeData`: a Data that does not decode, a Nack, a NextHopFaceId or a
NonDiscovery drops the Data; a PrefixAnnouncement is kept only with self-learning. -/
def decodeData (opts : LinkServiceOptions) (netPkt : Block) (firstPkt : List LpHeader)
    (endpoint : Nat) : Option Delivery :=
  if !Data.wireDecode netPkt then none
  else if (lpGet firstPkt lp.tlv.nack).isSome then none
  else if (lpGet firstPkt lp.tlv.nextHopFaceId).isSome then none
  else if (lpGet firstPkt lp.tlv.nonDiscovery).isSome then none
  else some ⟨.data, netPkt.wire,
    lpTag firstPkt lp.tlv.cachePolicy ++ lpTag firstPkt lp.tlv.congestionMark ++
      (if opts.allowSelfLearning then lpTag firstPkt lp.tlv.prefixAnnouncement else []) ++
      pitTokenTag firstPkt, endpoint⟩

/-- `GenericLinkService::decodeNack`: an Interest that does not decode, a NextHopFaceId, a
CachePolicy, a NonDiscovery or a PrefixAnnouncement drops the Nack. -/
def decodeNack (netPkt : Block) (firstPkt : List LpHeader) (endpoint : Nat) :
    Option Delivery :=
  -- `lp::Nack nack((Interest(netPkt)))`
  if !Interest.wireDecode netPkt then none
  else if (lpGet firstPkt lp.tlv.nextHopFaceId).isSome then none
  else if (lpGet firstPkt lp.tlv.cachePolicy).isSome then none
  else if (lpGet firstPkt lp.tlv.nonDiscovery).isSome then none
  else if (lpGet firstPkt lp.tlv.prefixAnnouncement).isSome then none
  else some ⟨.nack, netPkt.wire,
    lpTag firstPkt lp.tlv.nack ++ lpTag firstPkt lp.tlv.congestionMark, endpoint⟩

/-- `GenericLinkService::decodeNetPacket` on the TLV-TYPE of the network packet's Block. -/
def decodeNetPacket (opts : LinkServiceOptions) (netPkt : Block) (firstPkt : List LpHeader)
    (endpoint : Nat) : Option Delivery :=
  if netPkt.type = tlv.interest then
    if (lpGet firstPkt lp.tlv.nack).isSome then decodeNack netPkt firstPkt endpoint
    else decodeInterest opts netPkt firstPkt endpoint
  else if netPkt.type = tlv.data then decodeData opts netPkt firstPkt endpoint
  else none

/-! ## Reassembly and reliability -/

/-- `LpReassembler::PartialPacket`: the FragCount of the message, how many fragments have come,
and the fragments received, by FragIndex, each as its header fields and Fragment. -/
structure PartialPacket where
  fragCount : Nat
  nReceivedFragments : Nat
  fragments : List (Option (List LpHeader × List UInt8))
  deriving DecidableEq

/-- `m_partialPackets`, by endpoint and message identifier. The drop timer is not modelled. -/
abbrev PartialPackets := AList (fun _ : Nat × UInt64 => PartialPacket)

/-- The buffer `LpReassembler::doReassembly` fills: the Fragments in FragIndex order. -/
def PartialPacket.reassembled (pp : PartialPacket) : List UInt8 :=
  (pp.fragments.map fun frag => (frag.map Prod.snd).getD []).flatten

/-- `LpReassembler::doReassembly`: the Block at the front of the buffer, `none` where `Block`
throws. -/
def PartialPacket.doReassembly (pp : PartialPacket) : Option Block :=
  Block.ofBuffer pp.reassembled

/-- The header fields of the message's first fragment. -/
def PartialPacket.firstPkt (pp : PartialPacket) : List LpHeader :=
  ((pp.fragments.head?.bind id).map Prod.fst).getD []

/-- The end of `LpReassembler::receiveFragment` on the fragment that completes message `key`:
`doReassembly`'s Block and the first fragment's header fields, with the message erased.
`doReassembly` throws before `m_partialPackets.erase(key)`, so the complete message then stays. -/
def completeMessage (pps : PartialPackets) (key : Nat × UInt64) (pp : PartialPacket) :
    Option (Block × List LpHeader) × PartialPackets :=
  match pp.doReassembly with
  | some reassembled => (some (reassembled, pp.firstPkt), pps.erase key)
  | none => (none, pps.insert key pp)

/-- `LpReassembler::receiveFragment` for a packet with a Fragment: the Block of the network
packet and the first fragment's header fields when the message is complete. `none` both for
`FALSE_RETURN` and where `Block` throws `tlv::Error`, which `doReceivePacket` catches: the packet
is dropped either way, and the partial packets are as the throw left them. -/
def receiveFragment (nMaxFragments : Nat) (pps : PartialPackets) (endpoint : Nat)
    (headers : List LpHeader) (fragment : List UInt8) :
    Option (Block × List LpHeader) × PartialPackets :=
  let fragIndex := (lpFragIndex headers).getD 0
  let fragCount := (lpFragCount headers).getD 1
  if fragCount ≤ fragIndex then (none, pps)
  else if nMaxFragments < fragCount then (none, pps)
  -- the fast path: a message of one fragment, `Block netPkt(&*fragBegin, ...)`
  else if fragIndex = 0 ∧ fragCount = 1 then ((Block.ofBuffer fragment).map (·, headers), pps)
  else match lpSequence headers with
    | none => (none, pps)
    | some seq =>
      let key := (endpoint, seq - fragIndex.toUInt64)
      -- `m_partialPackets[key]`, set up on first use
      let pp := (pps.lookup key).getD ⟨fragCount, 0, List.replicate fragCount none⟩
      if fragCount ≠ pp.fragCount then (none, pps)
      else if (pp.fragments[fragIndex]?.bind id).isSome then (none, pps)
      else
        let pp := { pp with fragments := pp.fragments.set fragIndex (some (headers, fragment)),
                            nReceivedFragments := pp.nReceivedFragments + 1 }
        if pp.nReceivedFragments = pp.fragCount then completeMessage pps key pp
        else (none, pps.insert key pp)

/-- The part of `LpReliability` that received packets change: the TxSequences sent and not yet
acknowledged, the Acks to send, and the Sequences received. Retransmission, loss detection and
the timers are not modelled. -/
structure Reliability where
  unackedFrags : List (List UInt8)
  ackQueue : List (List UInt8)
  recentRecvSeqs : List UInt64
  deriving DecidableEq

/-- `LpReliability::processIncomingPacket`: each Ack removes its TxSequence from the
unacknowledged ones; a packet with a Fragment and a TxSequence queues an Ack and records its
Sequence. `false` for a Sequence received before. -/
def processIncomingPacket (r : Reliability) (headers : List LpHeader) (hasFragment : Bool) :
    Bool × Reliability :=
  let acks := lpList headers lp.tlv.ack
  let r := { r with unackedFrags := r.unackedFrags.filter (· ∉ acks) }
  match lpGet headers lp.tlv.txSequence with
  | some txSeq =>
    if hasFragment then
      let r := { r with ackQueue := r.ackQueue ++ [txSeq] }
      match lpSequence headers with
      | some seq =>
        (seq ∉ r.recentRecvSeqs, { r with recentRecvSeqs := r.recentRecvSeqs ++ [seq] })
      | none => (true, r)
    else (true, r)
  | none => (true, r)

/-- The state of one `GenericLinkService` that receiving changes. -/
structure LinkServiceState where
  partialPackets : PartialPackets
  reliability : Reliability

def LinkServiceState.init : LinkServiceState := ⟨∅, ⟨[], [], []⟩⟩

/-- `GenericLinkService::doReceivePacket` (the branch compiled with forwarding workers). -/
def doReceivePacket (opts : LinkServiceOptions) (st : LinkServiceState) (frame : LinkFrame)
    (endpoint : Nat) : Option Delivery × LinkServiceState :=
  let headers := frame.headers
  let (fresh, reliability) :=
    if opts.reliabilityEnabled then
      processIncomingPacket st.reliability headers frame.fragment.isSome
    else (true, st.reliability)
  let st := { st with reliability }
  if !fresh then (none, st)
  else match frame.fragment with
    -- an IDLE packet
    | none => (none, st)
    | some fragment =>
      if ((lpFragIndex headers).isSome ∨ (lpFragCount headers).isSome) ∧
          !opts.allowReassembly then
        (none, st)
      else
        let (msg, partialPackets) :=
          receiveFragment opts.nMaxFragments st.partialPackets endpoint headers fragment
        let st := { st with partialPackets }
        match msg with
        | none => (none, st)
        | some (netPkt, firstPkt) => (decodeNetPacket opts netPkt firstPkt endpoint, st)

/-- The face's own link service on a run of packets, as without forwarding workers. -/
def ownRun (opts : LinkServiceOptions) (endpoint : Nat) :
    LinkServiceState → List LinkFrame → List Delivery × LinkServiceState
  | st, [] => ([], st)
  | st, frame :: frames =>
    let (d, st) := doReceivePacket opts st frame endpoint
    let (ds, st) := ownRun opts endpoint st frames
    (d.toList ++ ds, st)

/-! ## The face with forwarding workers -/

/-- `g_fragmentMap`, the face's own link service, and the link service each worker made for the
face. -/
structure FaceReceiveState where
  fragmentMap : FragmentMap
  own : LinkServiceState
  workers : Nat → LinkServiceState

def FaceReceiveState.init : FaceReceiveState := ⟨∅, .init, fun _ => .init⟩

/-- A packet arriving on the face: `dcnReceivePacket` first; the face's own link service only
for a packet it declines; for a packet it enqueues, `MwNfd::decodeNetPacketFromMq` on the
worker, whose link service has default Options and gets endpoint 0 (`msg.endpoint = 0`). -/
def faceReceive (cfg : DispatchConfig) (iwId : Nat) (opts : LinkServiceOptions) (endpoint : Nat)
    (st : FaceReceiveState) (frame : LinkFrame) :
    Except Fault (Option Delivery × FaceReceiveState) := do
  let (d, fragmentMap) ← dcnReceivePacket cfg iwId st.fragmentMap frame.wire frame.wire.length
  let st := { st with fragmentMap }
  match d with
  | .declined =>
    let (r, own) := doReceivePacket opts st.own frame endpoint
    return (r, { st with own })
  | .dropped => return (none, st)
  | .enqueued _ w =>
    let (r, ls) := doReceivePacket {} (st.workers w) frame 0
    return (r, { st with workers := Function.update st.workers w ls })

def dispatchedRun (cfg : DispatchConfig) (iwId : Nat) (opts : LinkServiceOptions)
    (endpoint : Nat) : FaceReceiveState → List LinkFrame →
      Except Fault (List Delivery × FaceReceiveState)
  | st, [] => .ok ([], st)
  | st, frame :: frames => do
    let (d, st) ← faceReceive cfg iwId opts endpoint st frame
    let (ds, st) ← dispatchedRun cfg iwId opts endpoint st frames
    return (d.toList ++ ds, st)

/-! ## A link service with default Options -/

/-- With default Options a link service never reads or changes its reliability state, and drops
every packet with a FragIndex or a FragCount, keeping its state. -/
theorem doReceivePacket_default_fragment (st : LinkServiceState) {frame : LinkFrame}
    {fragment : List UInt8} (hfrag : frame.fragment = some fragment)
    (hidx : (lpFragIndex frame.headers).isSome ∨ (lpFragCount frame.headers).isSome)
    (endpoint : Nat) :
    doReceivePacket {} st frame endpoint = (none, st) := by
  have hdrop : ((lpFragIndex frame.headers).isSome ∨ (lpFragCount frame.headers).isSome) ∧
      !({} : LinkServiceOptions).allowReassembly := ⟨hidx, rfl⟩
  simp only [doReceivePacket, Bool.false_eq_true, if_false, Bool.not_true, hfrag, if_pos hdrop]

/-- With default Options no packet that carries a NextHopFaceId is delivered: an Interest
needs local fields for it, and a Data or a Nack is dropped with it under any Options. -/
theorem decodeNetPacket_default_nextHopFaceId {netPkt : Block} {firstPkt : List LpHeader}
    (hnh : (lpGet firstPkt lp.tlv.nextHopFaceId).isSome) (endpoint : Nat) :
    decodeNetPacket {} netPkt firstPkt endpoint = none := by
  unfold decodeNetPacket
  split_ifs
  · simp [decodeNack, hnh]
  · simp [decodeInterest, hnh]
  · simp [decodeData, hnh]
  · rfl

/-- A packet `dcnReceivePacket` enqueues for worker `w` is received by that worker's link
service with default Options at endpoint 0; the face's own link service is left as it was. -/
theorem faceReceive_enqueued {cfg : DispatchConfig} {iwId : Nat} {opts : LinkServiceOptions}
    {endpoint : Nat} {st : FaceReceiveState} {frame : LinkFrame} {q w : Nat} {fm : FragmentMap}
    (hd : dcnReceivePacket cfg iwId st.fragmentMap frame.wire frame.wire.length =
      .ok (.enqueued q w, fm)) :
    faceReceive cfg iwId opts endpoint st frame =
      .ok ((doReceivePacket {} (st.workers w) frame 0).1,
        { st with fragmentMap := fm,
                  workers := Function.update st.workers w
                    (doReceivePacket {} (st.workers w) frame 0).2 }) := by
  rw [faceReceive, hd]
  rfl

/-! ## Where the two paths part -/

/-- Three packets on which the workers' link services part from the face's own, with `k = 1`
and two workers. The Interest `/a` with a Nonce, cut into two fragments on a UDP face, is
reassembled and delivered by the face's own link service; `dcnReceivePacket` enqueues both
fragments for worker 0, whose link service drops them, as its reassembly is off. The Interest
with NextHopFaceId 5 from a stream face with local fields is delivered with its tag by the
face's own service; the worker's drops it. An Ack for the TxSequence 7 of a reliable UDP face
acknowledges it in the face's own service; `dcnReceivePacket` drops the IDLE packet, and the
TxSequence stays unacknowledged. -/
theorem dispatched_receive_diverges :
    (ownRun (udpChannelOptions false) 0 .init
        [.lp [.sequence 100, .fragIndex 0, .fragCount 2] (some [5, 11, 7, 3, 8, 1, 97, 10, 4]),
          .lp [.sequence 101, .fragIndex 1, .fragCount 2] (some [1, 2, 3, 4])]).1 =
      [⟨.interest, Interest.wireEncode ⟨[Component.generic [0x61]], false, false,
        [10, 4, 1, 2, 3, 4]⟩, [], 0⟩] ∧
    (dispatchedRun ⟨1, 2, by decide⟩ 0 (udpChannelOptions false) 0 .init
        [.lp [.sequence 100, .fragIndex 0, .fragCount 2] (some [5, 11, 7, 3, 8, 1, 97, 10, 4]),
          .lp [.sequence 101, .fragIndex 1, .fragCount 2] (some [1, 2, 3, 4])]).map Prod.fst =
      .ok [] ∧
    (ownRun (tcpChannelOptions true false) 0 .init
        [.lp [.field lp.tlv.nextHopFaceId [5]] (some (Interest.wireEncode
          ⟨[Component.generic [0x61]], false, false, [10, 4, 1, 2, 3, 4]⟩))]).1 =
      [⟨.interest, Interest.wireEncode ⟨[Component.generic [0x61]], false, false,
        [10, 4, 1, 2, 3, 4]⟩, [(lp.tlv.nextHopFaceId, [5])], 0⟩] ∧
    (dispatchedRun ⟨1, 2, by decide⟩ 0 (tcpChannelOptions true false) 0 .init
        [.lp [.field lp.tlv.nextHopFaceId [5]] (some (Interest.wireEncode
          ⟨[Component.generic [0x61]], false, false, [10, 4, 1, 2, 3, 4]⟩))]).map Prod.fst =
      .ok [] ∧
    (ownRun (udpChannelOptions true) 0 ⟨∅, ⟨[[0, 0, 0, 0, 0, 0, 0, 7]], [], []⟩⟩
        [.lp [.field lp.tlv.ack [0, 0, 0, 0, 0, 0, 0, 7]] none]).2.reliability.unackedFrags = [] ∧
    (dispatchedRun ⟨1, 2, by decide⟩ 0 (udpChannelOptions true) 0
        ⟨∅, ⟨∅, ⟨[[0, 0, 0, 0, 0, 0, 0, 7]], [], []⟩⟩, fun _ => .init⟩
        [.lp [.field lp.tlv.ack [0, 0, 0, 0, 0, 0, 0, 7]] none]).map
        (·.2.own.reliability.unackedFrags) =
      .ok [[0, 0, 0, 0, 0, 0, 0, 7]] := by
  refine ⟨?_, ?_, ?_, ?_, ?_, ?_⟩ <;> decide

end MwNfd
