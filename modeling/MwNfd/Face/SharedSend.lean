import MwNfd.Face.Fragmenter
import MwNfd.Lib.Threads

/-!
# Sends from several workers on one face (`lp-reliability.cpp`, `generic-link-service.cpp`)

All forwarding workers share the faces of `g_faceTable` (`MwNfd::initialize`), so
`GenericLinkService::sendNetPacket` runs on one face from several threads at once. Of the state
it changes, only the Sequence counter is atomic: `assignSequences` reserves a block of Sequences
for the fragments of a packet with one `fetch_add`. With reliability on,
`LpReliability::handleOutgoing` then gives each fragment a TxSequence from `m_lastTxSeqNo` and
stores it in `m_unackedFrags` under the TxSequence, with no lock.

A send is a thread in the sense of `Threads`, whose steps are the statements of this path that
touch the face's state, each one atomic (a finer grain only adds interleavings). Run alone, such a
thread computes what the sequential code computes (`execAll_sendThread`), so the serial orders of
several sends are the sequential runs of `sendNetPacketReliable`.

* `LpReliability.handleOutgoing_one`: a send of one fragment stores it under the next
  TxSequence.
* `GenericLinkService.race_keys`: two sends of one fragment each, interleaved so that both
  increment the counter before either reads it back, store nothing under the first of the two
  TxSequences.
-/

namespace MwNfd

namespace LpPacket

/-- `lp::Packet::set<TxSequenceField>`: every TxSequence cleared, then the new one added, a
fixed-length integer of 8 octets as the Sequence is. -/
def setTxSequence (p : LpPacket) (txSeq : UInt64) : LpPacket :=
  add { p with headers := p.headers.filter (·.tlvType ≠ lp.tlv.txSequence) }
    (.field lp.tlv.txSequence (Octets.beBytes 8 txSeq.toNat))

end LpPacket

namespace LpReliability

/-- An entry of `m_unackedFrags`: the fragment kept for retransmission, and the network packet it
is part of (`netPkt`, named by the send that made it; `none` for the null pointer an entry is
built with). Its send time and retransmission timer are not modelled. -/
structure UnackedFrag where
  pkt : LpPacket
  netPkt : Option Nat
  deriving DecidableEq

/-- `std::map::emplace_hint` on a map kept in key order: the entry goes in at its place, unless
an entry has the key already, and then nothing changes. -/
def emplaceHint (m : List (UInt64 × UnackedFrag)) (k : UInt64) (v : UnackedFrag) :
    List (UInt64 × UnackedFrag) :=
  match m with
  | [] => [(k, v)]
  | (k', v') :: rest =>
    if k < k' then (k, v) :: (k', v') :: rest
    else if k = k' then (k', v') :: rest
    else (k', v') :: emplaceHint rest k v

theorem mem_keys_emplaceHint (m : List (UInt64 × UnackedFrag)) (k k' : UInt64)
    (v : UnackedFrag) :
    k' ∈ (emplaceHint m k v).map Prod.fst ↔ k' = k ∨ k' ∈ m.map Prod.fst := by
  induction m with
  | nil => simp [emplaceHint]
  | cons e rest ih =>
    obtain ⟨k'', v'⟩ := e
    by_cases hlt : k < k''
    · simp [emplaceHint, hlt]
    · by_cases heq : k = k''
      · subst heq
        simp [emplaceHint]
      · simp only [emplaceHint, hlt, heq, if_false, List.map_cons, List.mem_cons, ih]
        tauto

/-- The send side of `LpReliability`: `m_lastTxSeqNo`, `m_unackedFrags` in key order, and the key
of the entry `m_firstUnackedFrag` points at. -/
structure TxState where
  lastTxSeqNo : UInt64
  unackedFrags : List (UInt64 × UnackedFrag)
  firstUnackedFrag : Option UInt64
  deriving DecidableEq

namespace TxState

/-- The TxSequences that have an entry. -/
def keys (r : TxState) : List UInt64 := r.unackedFrags.map Prod.fst

/-- `++m_lastTxSeqNo`. -/
def incTxSeqNo (r : TxState) : TxState := { r with lastTxSeqNo := r.lastTxSeqNo + 1 }

/-- The check of `assignTxSequence` after the increment: the counter has come round to the oldest
unacknowledged TxSequence. -/
def rangeExceeded (r : TxState) : Bool :=
  !r.unackedFrags.isEmpty && r.firstUnackedFrag == some r.lastTxSeqNo

/-- `m_unackedFrags.emplace_hint(unackedFragsIt, txSeq, frag)`. -/
def emplace (r : TxState) (txSeq : UInt64) (frag : LpPacket) : TxState :=
  { r with unackedFrags := emplaceHint r.unackedFrags txSeq ⟨frag, none⟩ }

/-- `unackedFragsIt->second.netPkt = netPkt` on the entry of `txSeq`, then
`m_firstUnackedFrag = m_unackedFrags.begin()` if the map has one entry. -/
def setNetPkt (r : TxState) (txSeq : UInt64) (netPkt : Nat) : TxState :=
  let m := r.unackedFrags.map fun e =>
    if e.1 = txSeq then (e.1, { e.2 with netPkt := some netPkt }) else e
  { r with
    unackedFrags := m
    firstUnackedFrag := if m.length = 1 then m.head?.map Prod.fst else r.firstUnackedFrag }

/-- A TxSequence with no entry, which `m_firstUnackedFrag` does not point at either. -/
def Fresh (r : TxState) (k : UInt64) : Prop :=
  k ∉ r.keys ∧ r.firstUnackedFrag ≠ some k

instance (r : TxState) (k : UInt64) : Decidable (r.Fresh k) :=
  inferInstanceAs (Decidable (_ ∧ _))

@[simp] theorem lastTxSeqNo_incTxSeqNo (r : TxState) :
    r.incTxSeqNo.lastTxSeqNo = r.lastTxSeqNo + 1 := rfl

@[simp] theorem keys_incTxSeqNo (r : TxState) : r.incTxSeqNo.keys = r.keys := rfl

@[simp] theorem fresh_incTxSeqNo (r : TxState) (k : UInt64) :
    r.incTxSeqNo.Fresh k ↔ r.Fresh k := Iff.rfl

@[simp] theorem lastTxSeqNo_emplace (r : TxState) (txSeq : UInt64) (frag : LpPacket) :
    (r.emplace txSeq frag).lastTxSeqNo = r.lastTxSeqNo := rfl

@[simp] theorem mem_keys_emplace (r : TxState) (txSeq k : UInt64) (frag : LpPacket) :
    k ∈ (r.emplace txSeq frag).keys ↔ k = txSeq ∨ k ∈ r.keys :=
  mem_keys_emplaceHint _ _ _ _

@[simp] theorem lastTxSeqNo_setNetPkt (r : TxState) (txSeq : UInt64) (netPkt : Nat) :
    (r.setNetPkt txSeq netPkt).lastTxSeqNo = r.lastTxSeqNo := rfl

@[simp] theorem keys_setNetPkt (r : TxState) (txSeq : UInt64) (netPkt : Nat) :
    (r.setNetPkt txSeq netPkt).keys = r.keys := by
  simp only [setNetPkt, keys, List.map_map]
  congr 1
  funext e
  by_cases h : e.1 = txSeq <;> simp [h]

/-- `m_firstUnackedFrag` is left alone, or points at an entry. -/
theorem firstUnackedFrag_setNetPkt (r : TxState) (txSeq : UInt64) (netPkt : Nat) :
    (r.setNetPkt txSeq netPkt).firstUnackedFrag = r.firstUnackedFrag ∨
      ∃ k ∈ r.keys, (r.setNetPkt txSeq netPkt).firstUnackedFrag = some k := by
  rw [← keys_setNetPkt r txSeq netPkt]
  simp only [setNetPkt, keys]
  split
  · next hlen =>
    right
    obtain ⟨e, he⟩ := List.length_eq_one_iff.mp hlen
    simp [he]
  · left
    rfl

theorem rangeExceeded_eq_false {r : TxState} (h : r.Fresh r.lastTxSeqNo) :
    r.rangeExceeded = false := by
  simp [rangeExceeded, h.2]

theorem Fresh.emplace {r : TxState} {k : UInt64} (h : r.Fresh k) {txSeq : UInt64}
    (hne : k ≠ txSeq) (frag : LpPacket) : (r.emplace txSeq frag).Fresh k :=
  ⟨by simp [hne, h.1], h.2⟩

theorem Fresh.setNetPkt {r : TxState} {k : UInt64} (h : r.Fresh k) (txSeq : UInt64)
    (netPkt : Nat) : (r.setNetPkt txSeq netPkt).Fresh k := by
  refine ⟨by simpa using h.1, ?_⟩
  rcases firstUnackedFrag_setNetPkt r txSeq netPkt with hfirst | ⟨k', hk', hfirst⟩
  · rw [hfirst]
    exact h.2
  · -- the entry pointed at has a key, and `k` has no entry
    rw [hfirst]
    intro hk
    exact h.1 (Option.some.inj hk ▸ hk')

end TxState

/-- `LpReliability::assignTxSequence`: the fragment takes the incremented counter as its
TxSequence, and the result is the counter read again, or `none` where it throws
`std::length_error`. The counter and the fragment are changed before the check. -/
def assignTxSequence (r : TxState) (frag : LpPacket) : TxState × LpPacket × Option UInt64 :=
  let r := r.incTxSeqNo
  (r, frag.setTxSequence r.lastTxSeqNo, if r.rangeExceeded then none else some r.lastTxSeqNo)

/-- `LpReliability::handleOutgoing` over the fragments of the network packet `netPkt`: each takes
a TxSequence and is stored under it. `false` when `assignTxSequence` throws, which leaves the
fragments after it. -/
def handleOutgoing (r : TxState) (netPkt : Nat) : List LpPacket → TxState × Bool
  | [] => (r, true)
  | frag :: frags =>
    let (r, frag, txSeq) := assignTxSequence r frag
    match txSeq with
    | none => (r, false)
    | some txSeq => handleOutgoing ((r.emplace txSeq frag).setNetPkt txSeq netPkt) netPkt frags

/-- No entry is removed by sending. -/
theorem keys_subset_handleOutgoing (r : TxState) (netPkt : Nat) (frags : List LpPacket) :
    ∀ k ∈ r.keys, k ∈ (handleOutgoing r netPkt frags).1.keys := by
  induction frags generalizing r with
  | nil => intro k hk; exact hk
  | cons frag frags ih =>
    intro k hk
    by_cases hex : r.incTxSeqNo.rangeExceeded
    · simpa [handleOutgoing, assignTxSequence, hex] using hk
    · simp only [handleOutgoing, assignTxSequence, hex, Bool.false_eq_true, if_false]
      exact ih _ k (by simp [hk])

/-- Alone, a send of one fragment stores it under the next TxSequence, when that has no entry
and the counter has not come round to the oldest one; a TxSequence that had no entry and was
not the next keeps none. -/
theorem handleOutgoing_one {r : TxState} (h : r.Fresh (r.lastTxSeqNo + 1)) (netPkt : Nat)
    (frag : LpPacket) :
    (handleOutgoing r netPkt [frag]).1.lastTxSeqNo = r.lastTxSeqNo + 1 ∧
      r.lastTxSeqNo + 1 ∈ (handleOutgoing r netPkt [frag]).1.keys ∧
      ∀ k ≠ r.lastTxSeqNo + 1, r.Fresh k → (handleOutgoing r netPkt [frag]).1.Fresh k := by
  have hex : r.incTxSeqNo.rangeExceeded = false := TxState.rangeExceeded_eq_false h
  simp only [handleOutgoing, assignTxSequence, hex, Bool.false_eq_true, if_false]
  refine ⟨by simp, by simp, ?_⟩
  intro k hk hfresh
  exact ((TxState.fresh_incTxSeqNo r k).mpr hfresh |>.emplace hk _).setNetPkt _ _

end LpReliability

namespace GenericLinkService

open LpReliability

/-- The state of a face that `sendNetPacket` changes with reliability on: the Sequence counter
`m_lastSeqNo` and the send side of `m_reliability`. -/
structure SendState where
  lastSeqNo : UInt64
  reliability : TxState
  deriving DecidableEq

/-- `sendNetPacket` with reliability on, from its fragments: `assignSequences`, then
`handleOutgoing`; `false` when that throws. The fragments are then sent, which is not modelled
here. -/
def sendNetPacketReliable (st : SendState) (netPkt : Nat) (frags : List LpPacket) :
    SendState × Bool :=
  let (frags, lastSeqNo) := assignSequences st.lastSeqNo frags
  let (r, ok) := handleOutgoing st.reliability netPkt frags
  (⟨lastSeqNo, r⟩, ok)

/-- The statements of that path that touch the face's state, one step each. -/
inductive SendStep where
  /-- `assignSequences`: the `fetch_add` and the fragments' Sequences. -/
  | assignSequences
  /-- `assignTxSequence`: `++m_lastTxSeqNo` and the fragment's TxSequence. -/
  | incTxSeqNo
  /-- `assignTxSequence`: the range check and `return m_lastTxSeqNo`. -/
  | returnTxSeqNo
  /-- `handleOutgoing`: the `emplace_hint`. -/
  | emplace
  /-- `handleOutgoing`: the entry's `netPkt` and `m_firstUnackedFrag`, then the next fragment. -/
  | setNetPkt
  deriving DecidableEq

/-- A worker in `sendNetPacket`: its network packet, the fragments not yet stored, the
TxSequence `assignTxSequence` returned to it, and whether that threw. -/
structure Sender where
  netPkt : Nat
  frags : List LpPacket
  txSeq : UInt64
  failed : Bool

/-- One step of a worker. After a throw the worker has left `sendNetPacket`, and its remaining
steps do nothing. -/
def sendStep (x : SendStep) (ss : SendState × Sender) : SendState × Sender :=
  let (st, s) := ss
  if s.failed then (st, s) else
  match x, s.frags with
  | .assignSequences, frags =>
    let (frags, lastSeqNo) := assignSequences st.lastSeqNo frags
    ({ st with lastSeqNo }, { s with frags })
  | .incTxSeqNo, frag :: rest =>
    let r := st.reliability.incTxSeqNo
    ({ st with reliability := r }, { s with frags := frag.setTxSequence r.lastTxSeqNo :: rest })
  | .returnTxSeqNo, _ =>
    if st.reliability.rangeExceeded then (st, { s with failed := true })
    else (st, { s with txSeq := st.reliability.lastTxSeqNo })
  | .emplace, frag :: _ => ({ st with reliability := st.reliability.emplace s.txSeq frag }, s)
  | .setNetPkt, _ :: rest =>
    ({ st with reliability := st.reliability.setNetPkt s.txSeq s.netPkt }, { s with frags := rest })
  | _, [] => (st, s)

/-- The steps `handleOutgoing` takes for one fragment. -/
def fragSteps : List SendStep := [.incTxSeqNo, .returnTxSeqNo, .emplace, .setNetPkt]

/-- A worker's `sendNetPacket` of the fragments `frags` of the network packet `netPkt`: its steps,
and its local state at the start. -/
def sendThread (netPkt : Nat) (frags : List LpPacket) : List SendStep × Sender :=
  (.assignSequences :: (List.replicate frags.length fragSteps).flatten, ⟨netPkt, frags, 0, false⟩)

theorem length_assignSequences (lastSeqNo : UInt64) (pkts : List LpPacket) :
    (assignSequences lastSeqNo pkts).1.length = pkts.length := by
  simp [assignSequences]

@[simp] theorem assignSequences_singleton (lastSeqNo : UInt64) (pkt : LpPacket) :
    assignSequences lastSeqNo [pkt] = ([pkt.setSequence lastSeqNo], lastSeqNo + 1) := by
  simp [assignSequences]

/-- A worker that has thrown changes nothing more. -/
theorem execAll_failed {s : Sender} (h : s.failed = true) (prog : List SendStep)
    (st : SendState) : Threads.execAll sendStep prog (st, s) = (st, s) := by
  induction prog with
  | nil => rfl
  | cons x prog ih => simpa [sendStep, h] using ih

/-- The steps of the fragments left, run alone, do what `handleOutgoing` does with them. -/
theorem execAll_fragSteps (frags : List LpPacket) :
    ∀ (st : SendState) (s : Sender), s.frags = frags → s.failed = false →
      (Threads.execAll sendStep (List.replicate frags.length fragSteps).flatten (st, s)).1 =
        ⟨st.lastSeqNo, (handleOutgoing st.reliability s.netPkt frags).1⟩ := by
  induction frags with
  | nil => intro st s _ _; rfl
  | cons frag frags ih =>
    intro st s hfrags hok
    rw [List.length_cons, List.replicate_succ, List.flatten_cons, Threads.execAll,
      List.foldl_append, ← Threads.execAll, ← Threads.execAll]
    by_cases hex : st.reliability.incTxSeqNo.rangeExceeded
    · -- the range check throws: the worker does nothing more
      have hstep : (Threads.execAll sendStep fragSteps (st, s)).2.failed = true := by
        simp [fragSteps, sendStep, hfrags, hok, hex]
      rw [execAll_failed hstep]
      simp [fragSteps, sendStep, hfrags, hok, hex, handleOutgoing, assignTxSequence]
    · rw [ih _ _ (by simp [fragSteps, sendStep, hfrags, hok, hex])
        (by simp [fragSteps, sendStep, hfrags, hok, hex])]
      simp [fragSteps, sendStep, hfrags, hok, hex, handleOutgoing, assignTxSequence]

/-- Run alone, a worker's steps do what the sequential `sendNetPacketReliable` does. -/
theorem execAll_sendThread (st : SendState) (netPkt : Nat) (frags : List LpPacket) :
    (Threads.execAll sendStep (sendThread netPkt frags).1 (st, (sendThread netPkt frags).2)).1 =
      (sendNetPacketReliable st netPkt frags).1 := by
  have hlen := length_assignSequences st.lastSeqNo frags
  have hstep : sendStep .assignSequences (st, ⟨netPkt, frags, 0, false⟩) =
      (⟨(assignSequences st.lastSeqNo frags).2, st.reliability⟩,
        ⟨netPkt, (assignSequences st.lastSeqNo frags).1, 0, false⟩) := rfl
  dsimp only [sendThread]
  rw [Threads.execAll_cons, hstep, ← hlen,
    execAll_fragSteps _ _ ⟨netPkt, (assignSequences st.lastSeqNo frags).1, 0, false⟩ rfl rfl]
  rfl

/-- Two workers each sending a network packet of one fragment on the same face. -/
def twoSends (st : SendState) (a b : Nat) (fa fb : LpPacket) :
    Threads.Config SendState Sender SendStep :=
  ⟨st, [sendThread a [fa], sendThread b [fb]]⟩

/-- Both workers take their Sequence and increment `m_lastTxSeqNo`; then the first runs to its
end, and then the second. -/
def raceSchedule : List Nat := [0, 1, 0, 1, 0, 0, 0, 1, 1, 1]

/-- In `raceSchedule` both workers read back the second TxSequence: the first stores its fragment
under it, and the second finds the entry there (or throws, when the first's entry is the only
one). The run ends with the map of the start and that one key more. -/
theorem race_keys (st : SendState) (a b : Nat) (fa fb : LpPacket)
    (h : st.reliability.Fresh (st.reliability.lastTxSeqNo + 2)) :
    Threads.Done (Threads.run sendStep (twoSends st a b fa fb) raceSchedule) ∧
      ∀ k, k ∈ (Threads.run sendStep (twoSends st a b fa fb) raceSchedule).shared.reliability.keys ↔
        k = st.reliability.lastTxSeqNo + 2 ∨ k ∈ st.reliability.keys := by
  have h2 : st.reliability.lastTxSeqNo + 1 + 1 = st.reliability.lastTxSeqNo + 2 := by
    rw [UInt64.add_assoc]
    rfl
  have hex : st.reliability.incTxSeqNo.incTxSeqNo.rangeExceeded = false :=
    TxState.rangeExceeded_eq_false (by simpa [h2] using h)
  -- the second worker's range check reads the map the first has left: split on its outcome so
  -- that both runs evaluate to the end
  by_cases hB : (Threads.run sendStep (twoSends st a b fa fb)
      [0, 1, 0, 1, 0, 0, 0]).shared.reliability.rangeExceeded <;>
  · simp [twoSends, Threads.run, Threads.step, sendThread, fragSteps, sendStep, hex, h2] at hB
    simp [twoSends, Threads.run, raceSchedule, Threads.step, sendThread, fragSteps, sendStep, hex,
      hB, h2, Threads.Done]

/-- The serial orders of the two sends are the sequential runs of `sendNetPacketReliable`. -/
theorem serialShared_twoSends (st : SendState) (a b : Nat) (fa fb : LpPacket) :
    Threads.serialShared sendStep (twoSends st a b fa fb) [0, 1] =
        (sendNetPacketReliable (sendNetPacketReliable st a [fa]).1 b [fb]).1 ∧
      Threads.serialShared sendStep (twoSends st a b fa fb) [1, 0] =
        (sendNetPacketReliable (sendNetPacketReliable st b [fb]).1 a [fa]).1 := by
  have h0 : [sendThread a [fa], sendThread b [fb]][0]? = some (sendThread a [fa]) := rfl
  have h1 : [sendThread a [fa], sendThread b [fb]][1]? = some (sendThread b [fb]) := rfl
  rw [twoSends, Threads.serialShared_pair h0 h1, Threads.serialShared_pair h1 h0]
  simp only [execAll_sendThread, and_self]

/-- Sequentially, the first of two sends of one fragment stores it under the next TxSequence,
and the second leaves the entry. -/
theorem mem_keys_sendNetPacketReliable_two (st : SendState) (a b : Nat) (fa fb : LpPacket)
    (h : st.reliability.Fresh (st.reliability.lastTxSeqNo + 1)) :
    st.reliability.lastTxSeqNo + 1 ∈
      (sendNetPacketReliable (sendNetPacketReliable st a [fa]).1 b [fb]).1.reliability.keys := by
  have hmem := (handleOutgoing_one h a (fa.setSequence st.lastSeqNo)).2.1
  simp only [sendNetPacketReliable, assignSequences_singleton]
  exact keys_subset_handleOutgoing _ b _ _ hmem

/-- Two sends of one fragment each on a face with reliability on are not linearizable: in
`raceSchedule` the next TxSequence is never stored, while either order of the two sends
stores it. -/
theorem sendNetPacket_not_linearizable (st : SendState) (a b : Nat) (fa fb : LpPacket)
    (h1 : st.reliability.Fresh (st.reliability.lastTxSeqNo + 1))
    (h2 : st.reliability.Fresh (st.reliability.lastTxSeqNo + 2)) :
    ¬ Threads.Linearizable sendStep (twoSends st a b fa fb) := by
  obtain ⟨hdone, hkeys⟩ := race_keys st a b fa fb h2
  have hlost : st.reliability.lastTxSeqNo + 1 ∉
      (Threads.run sendStep (twoSends st a b fa fb) raceSchedule).shared.reliability.keys := by
    rw [hkeys]
    rintro (heq | hmem)
    · simp at heq
    · exact h1.1 hmem
  refine Threads.not_linearizable hdone ?_
  intro order horder heq
  obtain ⟨h01, h10⟩ := serialShared_twoSends st a b fa fb
  rcases Threads.perm_range_two horder with rfl | rfl
  · rw [heq, h01] at hlost
    exact hlost (mem_keys_sendNetPacketReliable_two st a b fa fb h1)
  · rw [heq, h10] at hlost
    exact hlost (mem_keys_sendNetPacketReliable_two st b a fb fa h1)

theorem sendNetPacket_not_linearizable_ab :
    (⟨0, [], none⟩ : TxState).Fresh (0 + 1) ∧ (⟨0, [], none⟩ : TxState).Fresh (0 + 2) ∧
      ¬ Threads.Linearizable sendStep (twoSends ⟨0, ⟨0, [], none⟩⟩ 1 2 ⟨[], [5]⟩ ⟨[], [6]⟩) :=
  ⟨by decide, by decide,
    sendNetPacket_not_linearizable ⟨0, ⟨0, [], none⟩⟩ 1 2 ⟨[], [5]⟩ ⟨[], [6]⟩ (by decide)
      (by decide)⟩

end GenericLinkService

end MwNfd
