import MwNfd.Face.LinkService

/-!
# Where the dispatched receive path agrees with the face's own link service

`dispatched_receive_diverges` shows three ways in which the workers' link services, with their
default `Options`, part from the face's own: fragments, local fields and LpReliability. Here is
the other side: on a packet that uses none of these, both paths deliver the same network packet
with the same tags, and neither changes any receive state.

Such a packet (`PlainPacket`) is an Interest or a Data that a link service sent without
fragmenting it. It is bare, or in an LpPacket whose header fields are a PIT token or fields that
are read the same way under every `Options`. A bare packet is what `lp::Packet::wireEncode`
gives for an LpPacket whose only field is the Fragment. At least nine octets follow the Name, as
a Data's signature does, so that the dispatcher's `memcmp` with `"localhost"` stays inside the
packet.

* `dcnReceivePacket_plain`: the dispatcher declines or enqueues the packet and keeps
  `g_fragmentMap`.
* `doReceivePacket_plain`: every link service decodes it on the fast path of the reassembler and
  keeps its state.
* `dispatchedRun_refines_ownRun`: a whole run of such packets.
-/

namespace MwNfd

/-! ## Plain header fields -/

/-- A header field that the dispatcher's walk reads as meant and that the receive path handles
the same under every `Options`. It is a PIT token, or a field other than those of LpReliability
(Ack, TxSequence), local fields (NextHopFaceId) and self-learning (NonDiscovery,
PrefixAnnouncement). A Sequence, a FragIndex and a FragCount belong to fragmentation. -/
def LpHeader.Plain : LpHeader → Prop
  | .pitToken token => token ≠ [] ∧ token.length < 2 ^ 64
  | .field type value => (LpHeader.field type value).Readable ∧
      type ∉ [lp.tlv.nextHopFaceId, lp.tlv.nonDiscovery, lp.tlv.prefixAnnouncement, lp.tlv.ack,
        lp.tlv.txSequence]
  | _ => False

instance LpHeader.decidablePlain : (h : LpHeader) → Decidable h.Plain
  | .sequence _ => inferInstanceAs (Decidable False)
  | .fragIndex _ => inferInstanceAs (Decidable False)
  | .fragCount _ => inferInstanceAs (Decidable False)
  | .pitToken token => inferInstanceAs (Decidable (token ≠ [] ∧ token.length < 2 ^ 64))
  | .field type value => inferInstanceAs (Decidable ((LpHeader.field type value).Readable ∧
      type ∉ [lp.tlv.nextHopFaceId, lp.tlv.nonDiscovery, lp.tlv.prefixAnnouncement, lp.tlv.ack,
        lp.tlv.txSequence]))

theorem LpHeader.Plain.readable {h : LpHeader} (hp : h.Plain) : h.Readable := by
  cases h with
  | pitToken token => exact hp
  | field type value => exact hp.1
  | _ => exact hp.elim

theorem LpHeader.Plain.isFragField {h : LpHeader} (hp : h.Plain) : h.isFragField = false := by
  cases h <;> first | rfl | exact hp.elim

theorem LpHeader.Plain.isSequence {h : LpHeader} (hp : h.Plain) : h.isSequence = false := by
  cases h <;> first | rfl | exact hp.elim

/-- A plain field holds no value under the TLV-TYPEs of reliability, local fields and
self-learning. -/
theorem LpHeader.Plain.fieldValue {h : LpHeader} (hp : h.Plain) {type : Nat}
    (ht : type ∈ [lp.tlv.nextHopFaceId, lp.tlv.nonDiscovery, lp.tlv.prefixAnnouncement,
      lp.tlv.ack, lp.tlv.txSequence]) : h.fieldValue type = none := by
  cases h with
  | field type' value =>
    have hne : type' ≠ type := fun heq => hp.2 (heq ▸ ht)
    simp [LpHeader.fieldValue, hne]
  | _ => rfl

/-- How the packet is framed: bare, or in an LpPacket with plain header fields. -/
def Framing.Plain : Framing → Prop
  | .bare => True
  | .lp headers => ∀ h ∈ headers, h.Plain

instance Framing.decidablePlain : (f : Framing) → Decidable f.Plain
  | .bare => inferInstanceAs (Decidable True)
  | .lp headers => inferInstanceAs (Decidable (∀ h ∈ headers, h.Plain))

/-- The header fields a link service reads from the framed packet. -/
def Framing.headers : Framing → List LpHeader
  | .bare => []
  | .lp headers => headers

/-- The framed packet as the link service receives it. -/
def Framing.frame : Framing → List UInt8 → LinkFrame
  | .bare, pkt => .bare pkt
  | .lp headers, pkt => .lp headers (some pkt)

section Framing

variable {f : Framing}

@[simp] theorem Framing.wire_frame (f : Framing) (pkt : List UInt8) :
    (f.frame pkt).wire = f.wire pkt := by
  cases f <;> rfl

@[simp] theorem Framing.headers_frame (f : Framing) (pkt : List UInt8) :
    (f.frame pkt).headers = f.headers := by
  cases f <;> rfl

@[simp] theorem Framing.fragment_frame (f : Framing) (pkt : List UInt8) :
    (f.frame pkt).fragment = some pkt := by
  cases f <;> rfl

theorem Framing.Plain.mem {hf : f.Plain} {h : LpHeader} (hm : h ∈ f.headers) : h.Plain := by
  cases f with
  | bare => cases hm
  | lp headers => exact hf h hm

theorem Framing.Plain.unfragmented (hf : f.Plain) : f.Unfragmented := by
  cases f with
  | bare => trivial
  | lp headers => exact fun h hm => ⟨(hf h hm).readable, (hf h hm).isFragField⟩

theorem Framing.Plain.lpGet (hf : f.Plain) {type : Nat}
    (ht : type ∈ [lp.tlv.nextHopFaceId, lp.tlv.nonDiscovery, lp.tlv.prefixAnnouncement,
      lp.tlv.ack, lp.tlv.txSequence]) : lpGet f.headers type = none := by
  rw [MwNfd.lpGet, List.findSome?_eq_none_iff]
  intro h hm
  exact (@Framing.Plain.mem f hf h hm).fieldValue ht

theorem Framing.Plain.lpList (hf : f.Plain) {type : Nat}
    (ht : type ∈ [lp.tlv.nextHopFaceId, lp.tlv.nonDiscovery, lp.tlv.prefixAnnouncement,
      lp.tlv.ack, lp.tlv.txSequence]) : lpList f.headers type = [] := by
  rw [MwNfd.lpList, List.filterMap_eq_nil_iff]
  intro h hm
  exact (@Framing.Plain.mem f hf h hm).fieldValue ht

theorem Framing.Plain.lpFragIndex (hf : f.Plain) : lpFragIndex f.headers = none := by
  rw [MwNfd.lpFragIndex, List.findSome?_eq_none_iff]
  intro h hm
  have hp := @Framing.Plain.mem f hf h hm
  cases h <;> first | rfl | exact hp.elim

theorem Framing.Plain.lpFragCount (hf : f.Plain) : lpFragCount f.headers = none := by
  rw [MwNfd.lpFragCount, List.findSome?_eq_none_iff]
  intro h hm
  have hp := @Framing.Plain.mem f hf h hm
  cases h <;> first | rfl | exact hp.elim

end Framing

/-! ## Plain packets -/

/-- An Interest or a Data (TLV-TYPE `type`, Name `name`, the elements after the Name `tail`)
sent without fragmentation, reliability, local fields or self-learning fields, on a node with
`workers` forwarding workers. A Data's PIT token is one this node's workers issued: its first
octet names one of them. -/
structure PlainPacket (workers : Nat) where
  type : Nat
  name : Name
  tail : List UInt8
  framing : Framing
  type_eq : type = tlv.interest ∨ type = tlv.data
  plain : framing.Plain
  nine_le_tail : 9 ≤ tail.length
  fits : (framing.wire (netPacketWire type name tail)).length < 2 ^ 64
  token_lt : type = tlv.data → ∀ token, .pitToken token ∈ framing.headers →
    (token.headD 0).toNat < workers

namespace PlainPacket

variable {n : Nat}

/-- The network packet. -/
def netPkt (p : PlainPacket n) : List UInt8 := netPacketWire p.type p.name p.tail

/-- The packet as the face receives it. -/
def frame (p : PlainPacket n) : LinkFrame := p.framing.frame p.netPkt

/-- The Block of the network packet: all of it. -/
def block (p : PlainPacket n) : Block := ⟨p.type, p.name.wireEncode ++ p.tail, p.netPkt⟩

theorem ofBuffer_netPkt (p : PlainPacket n) : Block.ofBuffer p.netPkt = some p.block := by
  have hlen : (p.name.wireEncode ++ p.tail).length < 2 ^ 64 := by
    have h₁ := p.framing.length_le_length_wire (netPacketWire p.type p.name p.tail)
    have h₂ : (p.name.wireEncode ++ p.tail).length ≤ (netPacketWire p.type p.name p.tail).length :=
      by simp [netPacketWire, length_encodeTlv]
    have := p.fits
    omega
  have htype : 0 < p.type ∧ p.type ≤ 0xFFFFFFFF := by
    rcases p.type_eq with h | h <;> (rw [h]; decide)
  exact Block.ofBuffer_encodeTlv_self htype.1 htype.2 hlen

end PlainPacket

/-- A delivery without its endpoint, which a worker's link service does not keep. -/
def Delivery.packet (d : Delivery) : NetKind × List UInt8 × List (Nat × List UInt8) :=
  (d.kind, d.netPkt, d.tags)

/-! ## The link services -/

/-- The fast path of the reassembler: a packet with no FragIndex and no FragCount is a whole
message, handed on as the Block of its Fragment. -/
theorem receiveFragment_whole {nMax : Nat} (hmax : 0 < nMax) (pps : PartialPackets)
    (endpoint : Nat) {headers : List LpHeader} (hidx : lpFragIndex headers = none)
    (hcount : lpFragCount headers = none) (fragment : List UInt8) :
    receiveFragment nMax pps endpoint headers fragment =
      ((Block.ofBuffer fragment).map (·, headers), pps) := by
  unfold receiveFragment
  rw [hidx, hcount, if_neg (by simp), if_neg (by simp; omega)]
  simp

section LinkService

variable {f : Framing}

/-- Without an Ack or a TxSequence the reliability check accepts the packet and changes
nothing. -/
theorem processIncomingPacket_plain (hf : f.Plain) (r : Reliability) (hasFragment : Bool) :
    processIncomingPacket r f.headers hasFragment = (true, r) := by
  have hack : lpList f.headers lp.tlv.ack = [] := hf.lpList (by simp)
  have htx : lpGet f.headers lp.tlv.txSequence = none := hf.lpGet (by simp)
  simp [processIncomingPacket, hack, htx]

/-- Every link service, under any Options that let a whole message through, decodes the Block
of a packet in plain framing and keeps its state. -/
theorem doReceivePacket_plain {opts : LinkServiceOptions} (hmax : 0 < opts.nMaxFragments)
    (hf : f.Plain) (st : LinkServiceState) (pkt : List UInt8) (endpoint : Nat) :
    doReceivePacket opts st (f.frame pkt) endpoint =
      ((Block.ofBuffer pkt).bind fun netPkt => decodeNetPacket opts netPkt f.headers endpoint,
        st) := by
  have hrel := processIncomingPacket_plain hf st.reliability true
  have hre := receiveFragment_whole hmax st.partialPackets endpoint hf.lpFragIndex
    hf.lpFragCount pkt
  simp only [doReceivePacket, Framing.headers_frame, Framing.fragment_frame, Option.isSome_some,
    hrel, hf.lpFragIndex, hf.lpFragCount, hre, ite_self]
  cases Block.ofBuffer pkt <;> rfl

/-- The Options decide nothing about a packet in plain framing: under any two it is delivered the
same, or dropped by both. -/
theorem decodeNetPacket_plain (hf : f.Plain) (opts opts' : LinkServiceOptions) (netPkt : Block)
    (endpoint : Nat) :
    decodeNetPacket opts netPkt f.headers endpoint =
      decodeNetPacket opts' netPkt f.headers endpoint := by
  have hnh : lpGet f.headers lp.tlv.nextHopFaceId = none := hf.lpGet (by simp)
  have hnd : lpGet f.headers lp.tlv.nonDiscovery = none := hf.lpGet (by simp)
  have hpa : lpGet f.headers lp.tlv.prefixAnnouncement = none := hf.lpGet (by simp)
  unfold decodeNetPacket
  split_ifs
  · rfl
  · simp only [decodeInterest, hnh, lpTag, hnd, Option.isSome_none, Bool.false_eq_true,
      false_and, if_false, Option.toList_none, List.map_nil, ite_self]
  · simp only [decodeData, hnh, lpTag, hpa, Option.isSome_none, Bool.false_eq_true, if_false,
      Option.toList_none, List.map_nil, ite_self]
  · rfl

end LinkService

/-! ## The dispatcher -/

/-- After the walk, `pitToken` is what it was, or the first octet of one of the PIT tokens
read. -/
theorem LpHeader.pitToken_updateAll_cases (hs : List LpHeader) (v : DissectVars) :
    (LpHeader.updateAll hs v).pitToken = v.pitToken ∨
      ∃ token, .pitToken token ∈ hs ∧
        (LpHeader.updateAll hs v).pitToken = ((token.headD 0).toNat : Int) := by
  induction hs generalizing v with
  | nil => exact .inl rfl
  | cons h hs ih =>
    rw [LpHeader.updateAll_cons]
    rcases ih (h.update v) with heq | ⟨token, hm, heq⟩
    · cases h with
      | pitToken token => exact .inr ⟨token, List.mem_cons_self, heq⟩
      | _ => exact .inl heq
    · exact .inr ⟨token, List.mem_cons_of_mem h hm, heq⟩

/-- The locals the walk reaches a plain packet with: no Sequence, no FragCount, and a
`pitToken` that is -1 or a PIT token's first octet. -/
theorem Framing.Plain.vars {f : Framing} (hf : f.Plain) (t : Nat) :
    (f.vars t).isFrag = false ∧ (f.vars t).count = 0 ∧
      ((f.vars t).pitToken = -1 ∨
        ∃ token, .pitToken token ∈ f.headers ∧
          (f.vars t).pitToken = ((token.headD 0).toNat : Int)) := by
  refine ⟨?_, (Framing.index_vars hf.unfragmented t).2, ?_⟩
  · cases f with
    | bare => rfl
    | lp hs => exact (LpHeader.seq_updateAll (fun h hm => (hf h hm).isSequence) _).2
  · cases f with
    | bare => exact .inl rfl
    | lp hs => exact LpHeader.pitToken_updateAll_cases hs _

/-- The code after the loop on the locals of a packet with no Sequence and no FragCount: the
worker is the PIT token's for a Data that carries one, else the name's, and the map is kept. -/
theorem fragmentDispatch_unsequenced {v : DissectVars} (hfrag : v.isFrag = false)
    (hcount : v.count = 0) (fm : FragmentMap) :
    fragmentDispatch v fm =
      .ok (if v.packetType ≠ tlv.interest ∧ v.pitToken ≠ -1 then v.pitToken
        else v.worker, fm) := by
  unfold fragmentDispatch
  by_cases htok : v.packetType ≠ tlv.interest ∧ v.pitToken ≠ -1
  · simp [htok, hcount]
  · simp [htok, hfrag]

section Dispatch

variable {cfg : DispatchConfig}

theorem nameWorker_nonneg (cfg : DispatchConfig) (n : Name) : 0 ≤ nameWorker cfg n := by
  unfold nameWorker
  split_ifs
  · exact le_refl 0
  · exact Int.natCast_nonneg _

/-- `dcnReceivePacket` on a plain packet: the main thread's packet, or one enqueued for one of
the node's workers, and `g_fragmentMap` as it was. -/
theorem dcnReceivePacket_plain (hn : 0 < cfg.forwardingWorkers)
    (hk : 0 < cfg.prefixLength4Distribution) (p : PlainPacket cfg.forwardingWorkers)
    (iwId : Nat) (fm : FragmentMap) :
    dcnReceivePacket cfg iwId fm p.frame.wire p.frame.wire.length = .ok (.declined, fm) ∨
      ∃ q w, w < cfg.forwardingWorkers ∧
        dcnReceivePacket cfg iwId fm p.frame.wire p.frame.wire.length =
          .ok (.enqueued q w, fm) := by
  have hwire : p.frame.wire = p.framing.wire (netPacketWire p.type p.name p.tail) :=
    Framing.wire_frame _ _
  rw [hwire]
  obtain ⟨off, hoff, hd⟩ := @dissect_framed cfg _ [] p.type p.type_eq p.name p.tail p.framing
    p.plain.unfragmented fm (List.append_nil _).symm p.fits
  -- the localhost test reads inside the packet, as nine octets follow the Name
  have hoff' : (p.framing.wire (netPacketWire p.type p.name p.tail)).drop off =
      Name.wireValue (p.name.take cfg.prefixLength4Distribution) ++
        (Name.wireValue (p.name.drop cfg.prefixLength4Distribution) ++ (p.tail ++ [])) := by
    rw [hoff, Name.wireValue_take_append_drop p.name cfg.prefixLength4Distribution,
      List.append_assoc]
  obtain ⟨hit, hhit⟩ := localhostScan_ok _ hoff' (by have := p.nine_le_tail; simp; omega)
  have hw : computeWorkerId cfg (p.framing.wire (netPacketWire p.type p.name p.tail)) off
      p.name.wireValue.length = .ok (if hit then dcnLocalhostPrefix else nameWorker cfg p.name) :=
    by rw [computeWorkerId_wireValue hn hk p.name hoff p.fits, hhit]; rfl
  obtain ⟨hfrag, hcount, htok⟩ := p.plain.vars p.type
  rw [dcnReceivePacket, hd, hw, Except.ok_bind',
    fragmentDispatch_unsequenced (by exact hfrag) (by exact hcount)]
  simp only [Except.ok_bind', Bool.not_true, Bool.false_eq_true, false_and, if_false,
    Framing.packetType_vars]
  -- the worker is `DCN_LOCALHOST_PREFIX`, or one of the node's workers: the one a Data's PIT
  -- token names, or the name's
  set x : Int := if p.type ≠ tlv.interest ∧ (p.framing.vars p.type).pitToken ≠ -1 then
      (p.framing.vars p.type).pitToken
    else if hit = true then dcnLocalhostPrefix else nameWorker cfg p.name with hx
  have hcases : x = dcnLocalhostPrefix ∨ (0 ≤ x ∧ x.toNat < cfg.forwardingWorkers) := by
    rw [hx]
    split_ifs with htk hhit
    · rcases htok with h | ⟨token, hm, heq⟩
      · exact absurd h htk.2
      · have hdata : p.type = tlv.data := p.type_eq.resolve_left htk.1
        rw [heq]
        exact .inr ⟨Int.natCast_nonneg _, by simpa using p.token_lt hdata token hm⟩
    · exact .inl rfl
    · exact .inr ⟨nameWorker_nonneg cfg p.name, nameWorker_lt hn p.name⟩
  rcases hcases with hloc | ⟨hpos, hlt⟩
  · exact .inl (by rw [if_pos hloc]; rfl)
  · have hne : x ≠ dcnLocalhostPrefix := by
      have := cfg.forwardingWorkers_lt
      unfold dcnLocalhostPrefix
      omega
    have h31 : p.type < 2 ^ 31 := by rcases p.type_eq with h | h <;> (rw [h]; decide)
    exact .inr ⟨_, x.toNat, hlt, by rw [if_neg hne, if_pos ⟨h31, hpos⟩]; rfl⟩

end Dispatch

/-! ## Runs -/

/-- The endpoint at which the dispatched path delivers a packet: the face's own endpoint where
`dcnReceivePacket` declines it, 0 (`msg.endpoint = 0`) where it enqueues it. -/
def dispatchedEndpoint (r : Except Fault (Dispatch × FragmentMap)) (endpoint : Nat) : Nat :=
  match r with
  | .ok (.declined, _) => endpoint
  | _ => 0

/-- The endpoint a packet came from decides nothing about its delivery but the endpoint. -/
theorem decodeNetPacket_packet (opts : LinkServiceOptions) (netPkt : Block)
    (firstPkt : List LpHeader) (e e' : Nat) :
    (decodeNetPacket opts netPkt firstPkt e).map Delivery.packet =
      (decodeNetPacket opts netPkt firstPkt e').map Delivery.packet := by
  unfold decodeNetPacket decodeNack decodeInterest decodeData
  split_ifs <;> rfl

section Run

variable {cfg : DispatchConfig} {iwId : Nat} {opts : LinkServiceOptions} {endpoint : Nat}

/-- One plain packet on the face: `dcnReceivePacket` declines it and the face's own link service
decodes it, or enqueues it for one of the node's workers, whose link service decodes it at
endpoint 0. No receive state changes. -/
theorem faceReceive_plain (hn : 0 < cfg.forwardingWorkers)
    (hk : 0 < cfg.prefixLength4Distribution) (hmax : 0 < opts.nMaxFragments)
    (st : FaceReceiveState) (p : PlainPacket cfg.forwardingWorkers) :
    faceReceive cfg iwId opts endpoint st p.frame =
      .ok (decodeNetPacket opts p.block p.framing.headers (dispatchedEndpoint
        (dcnReceivePacket cfg iwId st.fragmentMap p.frame.wire p.frame.wire.length) endpoint),
        st) := by
  rcases dcnReceivePacket_plain hn hk p iwId st.fragmentMap with hd | ⟨q, w, -, hd⟩
  · -- the main thread's packet goes to the face's own link service
    rw [faceReceive, hd]
    simp only [Except.ok_bind', PlainPacket.frame, doReceivePacket_plain hmax p.plain,
      p.ofBuffer_netPkt, Option.bind_some]
    rfl
  · -- a worker's link service, with default Options and endpoint 0
    have hrecv : doReceivePacket {} (st.workers w) p.frame 0 =
        (decodeNetPacket {} p.block p.framing.headers 0, st.workers w) := by
      rw [PlainPacket.frame, doReceivePacket_plain (by decide) p.plain, p.ofBuffer_netPkt,
        Option.bind_some]
    rw [faceReceive_enqueued hd, hd, hrecv, decodeNetPacket_plain p.plain {} opts]
    simp [dispatchedEndpoint, Function.update_eq_self]

theorem ownRun_plain {m : Nat} (hmax : 0 < opts.nMaxFragments) (own : LinkServiceState)
    (pkts : List (PlainPacket m)) :
    ownRun opts endpoint own (pkts.map PlainPacket.frame) =
      (pkts.filterMap fun p => decodeNetPacket opts p.block p.framing.headers endpoint, own) := by
  induction pkts with
  | nil => rfl
  | cons p pkts ih =>
    rw [List.map_cons, ownRun, PlainPacket.frame, doReceivePacket_plain hmax p.plain,
      p.ofBuffer_netPkt, Option.bind_some]
    dsimp only
    rw [ih, List.filterMap_cons]
    cases decodeNetPacket opts p.block p.framing.headers endpoint <;> rfl

theorem dispatchedRun_plain (hn : 0 < cfg.forwardingWorkers)
    (hk : 0 < cfg.prefixLength4Distribution) (hmax : 0 < opts.nMaxFragments)
    (st : FaceReceiveState) (pkts : List (PlainPacket cfg.forwardingWorkers)) :
    dispatchedRun cfg iwId opts endpoint st (pkts.map PlainPacket.frame) =
      .ok (pkts.filterMap (fun p => decodeNetPacket opts p.block p.framing.headers
        (dispatchedEndpoint (dcnReceivePacket cfg iwId st.fragmentMap p.frame.wire
          p.frame.wire.length) endpoint)), st) := by
  induction pkts with
  | nil => rfl
  | cons p pkts ih =>
    rw [List.map_cons, dispatchedRun, faceReceive_plain hn hk hmax st p, Except.ok_bind']
    dsimp only
    rw [ih, List.filterMap_cons]
    cases decodeNetPacket opts p.block p.framing.headers _ <;> rfl

/-- On every run of plain packets the dispatched receive path refines the face's own link
service. `dcnReceivePacket` declines each packet or enqueues it for one of the node's workers,
never faulting or dropping it. The run delivers the same network packets with the same tags in
the same order as the face's own link service; a packet that `dcnReceivePacket` enqueues is
delivered at endpoint 0. No receive state changes, on either path. -/
theorem dispatchedRun_refines_ownRun (hn : 0 < cfg.forwardingWorkers)
    (hk : 0 < cfg.prefixLength4Distribution) (hmax : 0 < opts.nMaxFragments)
    (st : FaceReceiveState) (pkts : List (PlainPacket cfg.forwardingWorkers)) :
    (∀ p ∈ pkts,
      dcnReceivePacket cfg iwId st.fragmentMap p.frame.wire p.frame.wire.length =
          .ok (.declined, st.fragmentMap) ∨
        ∃ q w, w < cfg.forwardingWorkers ∧
          dcnReceivePacket cfg iwId st.fragmentMap p.frame.wire p.frame.wire.length =
            .ok (.enqueued q w, st.fragmentMap)) ∧
    ∃ ds, dispatchedRun cfg iwId opts endpoint st (pkts.map PlainPacket.frame) = .ok (ds, st) ∧
      ds = pkts.filterMap (fun p => decodeNetPacket opts p.block p.framing.headers
        (dispatchedEndpoint (dcnReceivePacket cfg iwId st.fragmentMap p.frame.wire
          p.frame.wire.length) endpoint)) ∧
      ds.map Delivery.packet =
        (ownRun opts endpoint st.own (pkts.map PlainPacket.frame)).1.map Delivery.packet ∧
      (ownRun opts endpoint st.own (pkts.map PlainPacket.frame)).2 = st.own := by
  refine ⟨fun p _ => dcnReceivePacket_plain hn hk p iwId st.fragmentMap, _,
    dispatchedRun_plain hn hk hmax st pkts, rfl, ?_, ?_⟩
  · -- the two runs decode the same Blocks, at their own endpoints
    rw [ownRun_plain hmax st.own pkts, List.map_filterMap, List.map_filterMap]
    apply List.filterMap_congr
    intro p _
    rw [decodeNetPacket_packet]
  · rw [ownRun_plain hmax st.own pkts]

end Run

/-- The Interest `/a` with a Nonce and an InterestLifetime, in an LpPacket with the PIT token
`[0, 7]`. -/
def plainInterestA : PlainPacket 2 :=
  ⟨tlv.interest, [Component.generic [0x61]], [10, 4, 1, 2, 3, 4, 12, 2, 15, 160],
    .lp [.pitToken [0, 7]], .inl rfl, by decide, by decide, by decide,
    fun h => absurd h (by decide)⟩

/-- The Interest `/a` on a reliable UDP face with two workers. -/
theorem dispatchedRun_refines_ownRun_a :
    (∀ p ∈ [plainInterestA],
      dcnReceivePacket ⟨1, 2, by decide⟩ 0 FaceReceiveState.init.fragmentMap p.frame.wire
          p.frame.wire.length = .ok (.declined, FaceReceiveState.init.fragmentMap) ∨
        ∃ q w, w < 2 ∧
          dcnReceivePacket ⟨1, 2, by decide⟩ 0 FaceReceiveState.init.fragmentMap p.frame.wire
            p.frame.wire.length = .ok (.enqueued q w, FaceReceiveState.init.fragmentMap)) ∧
    ∃ ds, dispatchedRun ⟨1, 2, by decide⟩ 0 (udpChannelOptions true) 7 .init
        ([plainInterestA].map PlainPacket.frame) = .ok (ds, .init) ∧
      ds = [plainInterestA].filterMap (fun p => decodeNetPacket (udpChannelOptions true) p.block
        p.framing.headers (dispatchedEndpoint (dcnReceivePacket ⟨1, 2, by decide⟩ 0
          FaceReceiveState.init.fragmentMap p.frame.wire p.frame.wire.length) 7)) ∧
      ds.map Delivery.packet =
        (ownRun (udpChannelOptions true) 7 FaceReceiveState.init.own
          ([plainInterestA].map PlainPacket.frame)).1.map Delivery.packet ∧
      (ownRun (udpChannelOptions true) 7 FaceReceiveState.init.own
          ([plainInterestA].map PlainPacket.frame)).2 = FaceReceiveState.init.own :=
  @dispatchedRun_refines_ownRun ⟨1, 2, by decide⟩ 0 (udpChannelOptions true) 7 (by decide)
    (by decide) (by decide) .init [plainInterestA]

example : (ownRun (udpChannelOptions true) 7 LinkServiceState.init
    ([plainInterestA].map PlainPacket.frame)).1 =
      [⟨.interest, plainInterestA.netPkt, [(lp.tlv.pitToken, [0, 7])], 7⟩] := by
  decide

end MwNfd
