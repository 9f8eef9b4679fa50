import MwNfd.Face.SharedSend
import MwNfd.Lib.SortedMap
import MwNfd.Lib.Run
import Mathlib.Data.List.TakeWhile

/-!
# The send window of `LpReliability` (`lp-reliability.cpp`)

With reliability on, a link service keeps every fragment it sends in `m_unackedFrags`, a
`std::map` from TxSequence to `UnackedFrag`, until an Ack for the TxSequence comes back. The
fragments of one network packet share a `NetPkt`, which holds iterators to their entries.
`m_firstUnackedFrag` points at the start of the send window. An Ack counts one more Ack of a
greater TxSequence for every entry before it in the window (`findLostLpPackets`); an entry that
has counted `seqNumLossThreshold` of them, or whose RTO timer expires, is lost
(`onLpPacketLost`): it is sent again under a new TxSequence, or, once it has been sent again
`maxRetx` times, its whole network packet is dropped, and the strategy is told if that was an
Interest.

The model keeps what these functions read and write: the map in key order (`SortedMap`), an
iterator named by the TxSequence of its entry, a NetPkt named by its place in `netPkts`. Every
`BOOST_ASSERT` of these functions and every use of an iterator to no entry is a `Fault`, and so is
the exception of `assignTxSequence`. The count `nAssigned` of TxSequences given out is not in the
source: a run stops with `Fault.wrapped` where the counter would come round past `2 ^ 64 - 1`.

Besides the model, this module gives each function its spec on a state whose map is sorted and
whose window starts at the least TxSequence (`deleteUnackedFrag_eq`, `deleteUnackedFrags_eq`,
`assignTxSequence_eq`, `lookupFrag_eq`).
-/

namespace MwNfd

namespace Reliability

open SortedMap

/-- The fields of `LpReliability::Options` that the bookkeeping reads. -/
structure Options where
  maxRetx : Nat := 3
  seqNumLossThreshold : Nat := 3
  deriving DecidableEq

/-- `LpReliability::UnackedFrag` without its RTO timer and send time. `netPkt` names the NetPkt
by its place in `State.netPkts`; `none` is the null pointer an entry is built with. -/
structure UnackedFrag where
  pkt : LpPacket
  retxCount : Nat
  nGreaterSeqAcks : Nat
  netPkt : Option Nat
  deriving DecidableEq

/-- `UnackedFrag::UnackedFrag(pkt)`. -/
def UnackedFrag.ofPkt (pkt : LpPacket) : UnackedFrag := ⟨pkt, 0, 0, none⟩

/-- `LpReliability::NetPkt` without the network packet: the iterators of its unacknowledged
fragments, named by their TxSequences. -/
structure NetPkt where
  unackedFrags : List UInt64
  isInterest : Bool
  didRetx : Bool
  deriving DecidableEq

/-- The members of `LpReliability` that the send side keeps, the NetPkts made so far, the NetPkts
reported to `onDroppedInterest`, and the count of TxSequences given out. -/
structure State where
  unackedFrags : List (UInt64 × UnackedFrag)
  firstUnackedFrag : Option UInt64
  lastTxSeqNo : UInt64
  netPkts : List NetPkt
  droppedInterests : List Nat
  nAssigned : Nat
  deriving DecidableEq

/-- How a call goes wrong. -/
inductive Fault where
  /-- Not in the source: a TxSequence would be given out again, the counter having come round. -/
  | wrapped
  /-- The `std::length_error` of `assignTxSequence`. -/
  | rangeExceeded
  /-- `BOOST_ASSERT(m_unackedFrags.count(txSeq) > 0)` of `onLpPacketLost`. -/
  | lostNotInMap (txSeq : UInt64)
  /-- An iterator to no entry is used: `m_firstUnackedFrag` at `end()`, or an entry that is gone. -/
  | badIterator
  /-- A null or dangling `netPkt`. -/
  | nullNetPkt
  /-- `BOOST_ASSERT(fragInNetPkt != netPkt->unackedFrags.end())`. -/
  | notInNetPkt
  deriving DecidableEq

namespace State

/-- A new `LpReliability`: no entry, `m_firstUnackedFrag` at `end()`, and `m_lastTxSeqNo` at
`-1`, so that TxSequences start at 0. -/
def init : State := ⟨[], none, -1, [], [], 0⟩

/-- `LpReliability::assignTxSequence`: the incremented counter is the fragment's TxSequence, and
the call throws if the counter has come round to the start of the window. -/
def assignTxSequence (s : State) (frag : LpPacket) : Except Fault (State × LpPacket × UInt64) :=
  if s.nAssigned = 2 ^ 64 then .error .wrapped else
  let s := { s with lastTxSeqNo := s.lastTxSeqNo + 1, nAssigned := s.nAssigned + 1 }
  if !s.unackedFrags.isEmpty && s.firstUnackedFrag == some s.lastTxSeqNo then
    .error .rangeExceeded
  else .ok (s, frag.setTxSequence s.lastTxSeqNo, s.lastTxSeqNo)

/-- `LpReliability::deleteUnackedFrag`: the entry goes, and if it was the start of the window,
the window starts at the next entry, round to `begin()` after the last one. -/
def deleteUnackedFrag (s : State) (txSeq : UInt64) : Except Fault State :=
  match s.firstUnackedFrag with
  | none => .error .badIterator
  | some firstUnackedTxSeq =>
    if txSeq ∉ keys s.unackedFrags then .error .badIterator else
    let nextFragIt := next s.unackedFrags txSeq
    let m := erase s.unackedFrags txSeq
    .ok { s with
      unackedFrags := m
      firstUnackedFrag :=
        if !m.isEmpty && firstUnackedTxSeq == txSeq then
          match nextFragIt with
          | none => first? m
          | some k => some k
        else if m.isEmpty then none else s.firstUnackedFrag }

/-- The loop of the drop in `onLpPacketLost`: `deleteUnackedFrag` of each iterator in turn. -/
def deleteUnackedFrags (s : State) : List UInt64 → Except Fault State
  | [] => .ok s
  | txSeq :: txSeqs => s.deleteUnackedFrag txSeq >>= fun s => deleteUnackedFrags s txSeqs

/-- The entry of a TxSequence, and its NetPkt with the place it is named by: `fragIt->second` and
`*fragIt->second.netPkt`. `absent` is the fault of a TxSequence with no entry. -/
def lookupFrag (s : State) (txSeq : UInt64) (absent : Fault) :
    Except Fault (UnackedFrag × Nat × NetPkt) :=
  match find? s.unackedFrags txSeq with
  | none => .error absent
  | some frag =>
    match frag.netPkt with
    | none => .error .nullNetPkt
    | some n =>
      match s.netPkts[n]? with
      | none => .error .nullNetPkt
      | some netPkt => .ok (frag, n, netPkt)

/-- `LpReliability::onLpPacketAcknowledged`: the iterator leaves its NetPkt (the last one takes
its place), and the entry is deleted. The counters of the link service are not modelled. -/
def onLpPacketAcknowledged (s : State) (txSeq : UInt64) : Except Fault State :=
  s.lookupFrag txSeq .badIterator >>= fun (_, n, netPkt) =>
    if txSeq ∈ netPkt.unackedFrags then
      { s with netPkts := s.netPkts.modify n fun p =>
          { p with unackedFrags := swapRemove p.unackedFrags txSeq } }.deleteUnackedFrag txSeq
    else .error .notInNetPkt

/-- The TxSequences the loop of `findLostLpPackets` goes over: from `m_firstUnackedFrag` on,
round from `end()` to `begin()`, up to the acknowledged one. The loop has no other bound: its
iterator meets the acknowledged entry within one round of the map, the list here. -/
def lossWindow (s : State) (ackTxSeq : UInt64) : List UInt64 :=
  let ks := keys s.unackedFrags
  let start := match s.firstUnackedFrag with
    | none => ks.length
    | some k => ks.idxOf k
  (ks.drop start ++ ks.take start).takeWhile (· != ackTxSeq)

/-- `LpReliability::findLostLpPackets`: every entry of the loss window counts one more Ack of a
greater TxSequence, and those that have counted `seqNumLossThreshold` are lost, in window
order. -/
def findLostLpPackets (o : Options) (s : State) (ackTxSeq : UInt64) : State × List UInt64 :=
  let window := s.lossWindow ackTxSeq
  let m := s.unackedFrags.map fun e =>
    (e.1, if e.1 ∈ window then { e.2 with nGreaterSeqAcks := e.2.nGreaterSeqAcks + 1 } else e.2)
  ({ s with unackedFrags := m },
    window.filter fun k => o.seqNumLossThreshold ≤ ((find? m k).map (·.nGreaterSeqAcks)).getD 0)

/-- `LpReliability::onLpPacketLost` (the flag `isTimeout` only picks a log line), with the
TxSequences it removes. An entry sent again `maxRetx` times takes its NetPkt down: the other
fragments go, `onDroppedInterest` is called for an Interest, then the entry goes. Any other entry
is sent again: it moves to a new TxSequence with one more retransmission, and its NetPkt's
iterator follows it. -/
def onLpPacketLost (o : Options) (s : State) (txSeq : UInt64) :
    Except Fault (State × List UInt64) :=
  s.lookupFrag txSeq (.lostNotInMap txSeq) >>= fun (txFrag, n, netPkt) =>
  if o.maxRetx ≤ txFrag.retxCount then
    let others := netPkt.unackedFrags.filter (· != txSeq)
    s.deleteUnackedFrags others >>= fun s =>
    let s := if netPkt.isInterest then { s with droppedInterests := s.droppedInterests ++ [n] }
      else s
    s.deleteUnackedFrag txSeq >>= fun s => .ok (s, others ++ [txSeq])
  else
    s.assignTxSequence txFrag.pkt >>= fun (s, pkt, newTxSeq) =>
    let m := emplace s.unackedFrags newTxSeq (.ofPkt pkt)
    let m := modify m newTxSeq fun f =>
      { f with retxCount := txFrag.retxCount + 1, netPkt := some n }
    if txSeq ∈ netPkt.unackedFrags then
      let s := { s with
        unackedFrags := m
        netPkts := s.netPkts.modify n fun p =>
          { p with didRetx := true, unackedFrags := p.unackedFrags.replace txSeq newTxSeq } }
      s.deleteUnackedFrag txSeq >>= fun s => .ok (s, [txSeq])
    else .error .notInNetPkt

/-- The loop of `processIncomingPacket` over the lost TxSequences of one Ack: each that no
earlier call removed (`removedLpPackets`) is lost. -/
def onLostLpPackets (o : Options) (s : State) (removed : List UInt64) :
    List UInt64 → Except Fault State
  | [] => .ok s
  | txSeq :: lost =>
    if txSeq ∈ removed then s.onLostLpPackets o removed lost
    else s.onLpPacketLost o txSeq >>= fun (s, removedTxSeqs) =>
      s.onLostLpPackets o (removed ++ removedTxSeqs) lost

/-- One Ack of `processIncomingPacket`: an unknown TxSequence is ignored; a known one finds the
lost entries before it, is acknowledged, and the lost entries are lost. The RTT measurement is not
modelled. -/
def processAck (o : Options) (s : State) (ackTxSeq : UInt64) : Except Fault State :=
  match find? s.unackedFrags ackTxSeq with
  | none => .ok s
  | some _ =>
    let (s, lost) := s.findLostLpPackets o ackTxSeq
    s.onLpPacketAcknowledged ackTxSeq >>= fun s => s.onLostLpPackets o [] lost

/-- `LpReliability::processIncomingPacket` on the Acks of a packet, in order. The queueing of
Acks to send and the detection of duplicate Sequences are not modelled. -/
def processIncomingPacket (o : Options) (s : State) : List UInt64 → Except Fault State
  | [] => .ok s
  | ackTxSeq :: acks => s.processAck o ackTxSeq >>= fun s => s.processIncomingPacket o acks

/-- The loop of `handleOutgoing` over the fragments of the network packet named `n`: each takes
a TxSequence, is stored under it with its NetPkt, and its iterator joins the NetPkt. -/
def handleOutgoingFrags (s : State) (n : Nat) : List LpPacket → Except Fault State
  | [] => .ok s
  | frag :: frags =>
    s.assignTxSequence frag >>= fun (s, frag, txSeq) =>
    let m := emplace s.unackedFrags txSeq (.ofPkt frag)
    let m := modify m txSeq fun f => { f with netPkt := some n }
    handleOutgoingFrags
      { s with
        unackedFrags := m
        firstUnackedFrag := if m.length = 1 then first? m else s.firstUnackedFrag
        netPkts := s.netPkts.modify n fun p => { p with unackedFrags := p.unackedFrags ++ [txSeq] } }
      n frags

/-- `LpReliability::handleOutgoing`: a new NetPkt, then its fragments. -/
def handleOutgoing (s : State) (frags : List LpPacket) (isInterest : Bool) : Except Fault State :=
  handleOutgoingFrags { s with netPkts := s.netPkts ++ [⟨[], isInterest, false⟩] }
    s.netPkts.length frags

/-- What happens to the send window: a network packet goes out in fragments, a packet with Acks
comes in, or the RTO timer of a TxSequence expires. -/
inductive Op where
  | handleOutgoing (frags : List LpPacket) (isInterest : Bool)
  | processIncomingPacket (acks : List UInt64)
  | rtoExpired (txSeq : UInt64)

/-- One step. An entry's RTO timer is cancelled when the entry goes, so only the timer of an
entry still in the map expires. -/
def step (o : Options) (s : State) : Op → Except Fault State
  | .handleOutgoing frags isInterest => s.handleOutgoing frags isInterest
  | .processIncomingPacket acks => s.processIncomingPacket o acks
  | .rtoExpired txSeq =>
    if txSeq ∈ keys s.unackedFrags then (s.onLpPacketLost o txSeq).map Prod.fst else .ok s

/-! ## The spec of each function

On a state whose map is sorted and whose window starts at the first entry, each function is a
plain edit of the map.
-/

section Spec

variable {s : State}

theorem toNat_ofNat_of_lt {n : Nat} (h : n < 2 ^ 64) : (UInt64.ofNat n).toNat = n := by
  rw [UInt64.toNat_ofNat']
  exact Nat.mod_eq_of_lt h

/-- A deletion keeps the window at the first entry. -/
theorem deleteUnackedFrag_eq (hs : Sorted s.unackedFrags)
    (hf : s.firstUnackedFrag = first? s.unackedFrags) {txSeq : UInt64}
    (hk : txSeq ∈ keys s.unackedFrags) :
    s.deleteUnackedFrag txSeq = .ok { s with
      unackedFrags := erase s.unackedFrags txSeq
      firstUnackedFrag := first? (erase s.unackedFrags txSeq) } := by
  obtain ⟨m, first, last, nps, dropped, nA⟩ := s
  cases m with
  | nil => simp at hk
  | cons e m =>
    obtain ⟨k₀, v₀⟩ := e
    simp only [first?_cons] at hf
    subst hf
    simp only [deleteUnackedFrag, hk, not_true_eq_false, if_false]
    by_cases h0 : k₀ = txSeq
    · -- the start of the window goes: it moves to the next entry
      subst h0
      rw [next_cons_self, hs.erase_cons_self]
      cases m with
      | nil => simp
      | cons e' m => simp
    · rw [erase_cons_of_ne v₀ m h0]
      simp [h0]

theorem deleteUnackedFrags_eq {txSeqs : List UInt64} (hnd : txSeqs.Nodup) :
    ∀ {s : State}, Sorted s.unackedFrags → s.firstUnackedFrag = first? s.unackedFrags →
      (∀ k ∈ txSeqs, k ∈ keys s.unackedFrags) →
      s.deleteUnackedFrags txSeqs = .ok { s with
        unackedFrags := s.unackedFrags.filter fun e => e.1 ∉ txSeqs
        firstUnackedFrag := first? (s.unackedFrags.filter fun e => e.1 ∉ txSeqs) } := by
  induction txSeqs with
  | nil =>
    intro s _ hf _
    simp [deleteUnackedFrags, ← hf]
  | cons k ks ih =>
    intro s hs hf hks
    obtain ⟨hk, hnd'⟩ := List.nodup_cons.mp hnd
    have hrest : ∀ k' ∈ ks, k' ∈ keys (erase s.unackedFrags k) := fun k' hk' =>
      mem_keys_erase.mpr ⟨hks k' (by simp [hk']), fun h => hk (h ▸ hk')⟩
    rw [deleteUnackedFrags, deleteUnackedFrag_eq hs hf (hks k (by simp)), Except.ok_bind']
    rw [ih hnd' (sorted_erase hs k) rfl hrest]
    have hfilter : ((erase s.unackedFrags k).filter fun e => e.1 ∉ ks) =
        s.unackedFrags.filter fun e => e.1 ∉ k :: ks := by
      simp only [erase, List.filter_filter]
      congr 1
      funext e
      by_cases h : e.1 = k <;> simp [h]
    simp only [hfilter]

/-- Away from the wrap, the counter gives out `nAssigned`, above every key, and does not throw. -/
theorem assignTxSequence_eq (hf : s.firstUnackedFrag = first? s.unackedFrags)
    (hlt : ∀ k ∈ keys s.unackedFrags, k.toNat < s.nAssigned)
    (hc : s.lastTxSeqNo + 1 = UInt64.ofNat s.nAssigned) (hw : s.nAssigned < 2 ^ 64)
    (frag : LpPacket) :
    s.assignTxSequence frag =
      .ok ({ s with lastTxSeqNo := UInt64.ofNat s.nAssigned, nAssigned := s.nAssigned + 1 },
        frag.setTxSequence (UInt64.ofNat s.nAssigned), UInt64.ofNat s.nAssigned) := by
  have hne : s.firstUnackedFrag ≠ some (UInt64.ofNat s.nAssigned) := by
    rw [hf]
    intro h
    have hk := hlt _ (mem_keys_of_first?_eq_some h)
    rw [toNat_ofNat_of_lt hw] at hk
    exact Nat.lt_irrefl _ hk
  rw [assignTxSequence, if_neg hw.ne]
  simp [hc, hne]

theorem lookupFrag_eq (hs : Sorted s.unackedFrags) {txSeq : UInt64} {frag : UnackedFrag}
    (he : (txSeq, frag) ∈ s.unackedFrags) {n : Nat} (hn : frag.netPkt = some n) {p : NetPkt}
    (hp : s.netPkts[n]? = some p) (absent : Fault) :
    s.lookupFrag txSeq absent = .ok (frag, n, p) := by
  simp [lookupFrag, hs.find?_eq_some he, hn, hp]

/-- The loss window holds entries before the acknowledged one. -/
theorem mem_keys_of_mem_lossWindow {ackTxSeq k : UInt64} (h : k ∈ s.lossWindow ackTxSeq) :
    k ∈ keys s.unackedFrags ∧ k ≠ ackTxSeq := by
  simp only [lossWindow] at h
  have hne := List.mem_takeWhile_imp h
  have hmem := (List.takeWhile_sublist _).subset h
  rw [List.mem_append] at hmem
  refine ⟨?_, by simpa using hne⟩
  rcases hmem with hmem | hmem
  · exact List.mem_of_mem_drop hmem
  · exact List.mem_of_mem_take hmem

theorem mem_findLostLpPackets {o : Options} {ackTxSeq k : UInt64}
    (h : k ∈ (s.findLostLpPackets o ackTxSeq).2) : k ∈ keys s.unackedFrags ∧ k ≠ ackTxSeq :=
  mem_keys_of_mem_lossWindow (List.mem_of_mem_filter h)

end Spec

end State

end Reliability

end MwNfd
