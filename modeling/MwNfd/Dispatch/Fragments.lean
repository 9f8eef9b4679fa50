import MwNfd.Dispatch.Canonical

/-!
# `g_fragmentMap` over a run of input packets

The input threads call `dcnReceivePacket` on the packets of all faces as they arrive, and every
call reads and updates the one global `g_fragmentMap`. A message is fragmented by
`LpFragmenter` into consecutive `Sequence` numbers, `FragIndex` 0 to `FragCount - 1`; its first
fragment carries the Name, so the dispatcher keys the message by `Sequence - FragIndex`, records
the first fragment's worker, and looks it up for the later fragments. The key has no face in it,
and `GenericLinkService` starts every face's sequence numbers at the same value.

* `dispatch_sequenced_entry`: every whole packet that carries a `Sequence` (as every packet of a
  link with `LpReliability` does) leaves an entry in the map, though no fragment of it is to
  come.
-/

namespace MwNfd

/-- The calls of `dcnReceivePacket` on a sequence of packets, one after another, each read from
memory that holds exactly its octets, with `g_fragmentMap` carried from call to call. -/
def dispatchRun (cfg : DispatchConfig) (iwId : Nat) :
    FragmentMap → List (List UInt8) → Except Fault (List Dispatch × FragmentMap)
  | fm, [] => .ok ([], fm)
  | fm, pkt :: pkts => do
    let (d, fm) ← dcnReceivePacket cfg iwId fm pkt pkt.length
    let (ds, fm) ← dispatchRun cfg iwId fm pkts
    return (d :: ds, fm)

/-! ## Sequence numbers in the walk -/

def LpHeader.isSequence : LpHeader → Bool
  | .sequence _ => true
  | _ => false

/-- Without a `Sequence` field the walk keeps `seq` and `isFrag`. -/
theorem LpHeader.seq_updateAll {hs : List LpHeader} (hq : ∀ h ∈ hs, h.isSequence = false)
    (v : DissectVars) :
    (LpHeader.updateAll hs v).seq = v.seq ∧ (LpHeader.updateAll hs v).isFrag = v.isFrag := by
  induction hs generalizing v with
  | nil => exact ⟨rfl, rfl⟩
  | cons h hs ih =>
    rw [LpHeader.updateAll_cons]
    obtain ⟨hs', hf⟩ := ih (fun h' hm => hq h' (List.mem_cons_of_mem h hm)) (h.update v)
    have hh := hq h List.mem_cons_self
    cases h <;> first | exact ⟨hs', hf⟩ | cases hh

/-- The map after `std::map::insert` holds the key, whether it was there or not. -/
theorem lookup_fragmentMapInsert (key : UInt64) (worker : Int) (fm : FragmentMap) :
    ((fragmentMapInsert key worker fm).lookup key).isSome := by
  unfold fragmentMapInsert
  cases h : fm.lookup key with
  | some w => simp [h]
  | none => simp

/-- A whole packet that carries a `Sequence` `s` and no PIT token the code acts on leaves `s` in
`g_fragmentMap`: the code takes it for the first fragment of a message. -/
theorem dispatch_sequenced_entry {cfg : DispatchConfig} {mem rest : List UInt8} {t : Nat}
    (ht : t = tlv.interest ∨ t = tlv.data) (n : Name) (tail : List UInt8)
    {pre post : List LpHeader} {s : UInt64}
    (hf : (Framing.lp (pre ++ .sequence s :: post)).Unfragmented)
    (hpost : ∀ h ∈ post, h.isSequence = false)
    (htok : t = tlv.interest ∨ (Framing.lp (pre ++ .sequence s :: post)).NoPitToken)
    {iwId : Nat} {fm fm' : FragmentMap} {r : Dispatch}
    (hmem : mem = (Framing.lp (pre ++ .sequence s :: post)).wire (netPacketWire t n tail) ++ rest)
    (hfit : mem.length < 2 ^ 64)
    (h : dcnReceivePacket cfg iwId fm mem
      ((Framing.lp (pre ++ .sequence s :: post)).wire (netPacketWire t n tail)).length =
        .ok (r, fm')) :
    (fm'.lookup s).isSome := by
  obtain ⟨off, -, hd⟩ := @dissect_framed cfg mem rest t ht n tail _ hf fm hmem hfit
  -- the walk leaves `s` in `seq` and sets `isFrag`; no `FragIndex` leaves `index` at 0
  have hseq : (LpHeader.updateAll post ((LpHeader.sequence s).update
        (LpHeader.updateAll pre (DissectVars.init lp.tlv.lpPacket)))).seq = s ∧
      (LpHeader.updateAll post ((LpHeader.sequence s).update
        (LpHeader.updateAll pre (DissectVars.init lp.tlv.lpPacket)))).isFrag = true :=
    LpHeader.seq_updateAll hpost _
  have hidx := (Framing.index_vars hf t).1
  obtain ⟨⟨⟨isOk, packetType, worker⟩, fm₁⟩, hD, h⟩ := Except.bind_eq_ok_iff.mp h
  have hfm : fm₁ = fm' := by
    simp only at h
    split_ifs at h <;> cases h <;> rfl
  subst hfm
  rw [hd] at hD
  obtain ⟨w, -, hD⟩ := Except.bind_eq_ok_iff.mp hD
  obtain ⟨⟨worker', fm₂⟩, hF, hD⟩ := Except.bind_eq_ok_iff.mp hD
  cases hD
  have hnot : ¬ (({ Framing.vars t (.lp (pre ++ .sequence s :: post)) with worker := w } :
      DissectVars).packetType ≠ tlv.interest ∧
      ({ Framing.vars t (.lp (pre ++ .sequence s :: post)) with worker := w } :
        DissectVars).pitToken ≠ -1) := by
    rcases htok with h | h
    · simp [h]
    · simp [Framing.pitToken_vars h t]
  simp only [fragmentDispatch, if_neg hnot] at hF
  simp only [Framing.vars, LpHeader.updateAll_append, LpHeader.updateAll_cons, hseq.1,
    hseq.2] at hF hidx
  simp only [if_true, hidx] at hF
  cases hF
  simpa using lookup_fragmentMapInsert s w fm

/-- Three runs on which the map breaks its purpose, with `k = 1` and three workers. The Data
`/a` and `/b` (content `AB`) are each cut into two fragments under the same sequence numbers
100 and 101, as two faces starting from the same counter send them. The second fragment of
`/a` arriving first dereferences `end()`; `/b`, whose first fragment goes to worker 2, has its
second fragment sent to worker 0, the worker of `/a`; and a whole Interest `/a` with the
`Sequence` 7 of a reliable link leaves the entry 7 behind. -/
theorem dispatchRun_fragment_failures :
    dispatchRun ⟨1, 3, by decide⟩ 0 ∅
        [lpPacketWire [.sequence 101, .fragIndex 1, .fragCount 2] (some [65, 66])] =
      .error .mapEnd ∧
    (dispatchRun ⟨1, 3, by decide⟩ 0 ∅
        [lpPacketWire [.sequence 100, .fragIndex 0, .fragCount 2]
          (some [6, 9, 7, 3, 8, 1, 97, 21, 2]),
         lpPacketWire [.sequence 100, .fragIndex 0, .fragCount 2]
          (some [6, 9, 7, 3, 8, 1, 98, 21, 2]),
         lpPacketWire [.sequence 101, .fragIndex 1, .fragCount 2] (some [65, 66])]).map
        Prod.fst = .ok [.enqueued 1 0, .enqueued 1 2, .enqueued 1 0] ∧
    (dispatchRun ⟨1, 3, by decide⟩ 0 ∅
        [lpPacketWire [.sequence 7]
          (some (Interest.wireEncode ⟨[Component.generic [0x61]], false, false, []⟩))]).map
        (·.2.keys) = .ok [7] := by
  refine ⟨?_, ?_, ?_⟩ <;> decide

end MwNfd
