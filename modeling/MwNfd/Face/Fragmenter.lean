import Mathlib.Algebra.Order.BigOperators.Group.List
import MwNfd.Face.Reassembly

/-!
# Fragmentation on the send path (`lp-fragmenter.cpp`, `generic-link-service.cpp`)

`LpFragmenter::fragmentPacket(packet, mtu)` sends a packet whole when it fits with room for a
Sequence. Otherwise it cuts the network packet into pieces: the first fragment keeps the
packet's other header fields, and the room left for a piece is the MTU less the worst-case
overhead `MAX_FRAG_OVERHEAD` (each TLV-LENGTH of 9 octets, FragIndex and FragCount of 8).
`GenericLinkService::sendNetPacket` then gives the fragments consecutive Sequences when there
are several, and `sendLpPacket` drops any packet whose encoding is over the MTU.

* `LpFragmenter.flatten_pieces`: the pieces join to the network packet.
* `LpFragmenter.fragmentPacket_room`: each fragment of the slow path leaves 30 octets of the MTU
  to the TLV-LENGTHs around it and a Sequence.
* `sendNetPacket_within_mtu`: with reliability and congestion marking off, no packet that the
  fragmenter returns is dropped as over the MTU.
-/

namespace MwNfd

/-- The TLV-TYPE of a header field. -/
def LpHeader.tlvType : LpHeader → Nat
  | .sequence _ => lp.tlv.sequence
  | .fragIndex _ => lp.tlv.fragIndex
  | .fragCount _ => lp.tlv.fragCount
  | .pitToken _ => lp.tlv.pitToken
  | .field type _ => type

/-- An `lp::Packet` on the send path: its header fields in TLV-TYPE order, and the Fragment. -/
structure LpPacket where
  headers : List LpHeader
  fragment : List UInt8
  deriving DecidableEq

namespace LpPacket

/-- `lp::Packet::wireEncode`: the bare network packet when there is no header field. -/
def wireEncode (p : LpPacket) : List UInt8 :=
  if p.headers = [] then p.fragment else lpPacketWire p.headers (some p.fragment)

/-- The frame the other end of the link receives. -/
def frame (p : LpPacket) : LinkFrame :=
  if p.headers = [] then .bare p.fragment else .lp p.headers (some p.fragment)

/-- `lp::Packet::add`: the field goes after the fields of a TLV-TYPE not above its own
(`std::upper_bound` over fields kept in order). -/
def add (p : LpPacket) (h : LpHeader) : LpPacket :=
  { p with headers := p.headers.takeWhile (·.tlvType ≤ h.tlvType) ++
      h :: p.headers.dropWhile (·.tlvType ≤ h.tlvType) }

/-- `lp::Packet::set<SequenceField>`: every Sequence cleared, then the new one added. -/
def setSequence (p : LpPacket) (seq : UInt64) : LpPacket :=
  add { p with headers := p.headers.filter (·.tlvType ≠ lp.tlv.sequence) } (.sequence seq)

end LpPacket

/-- Folding `modify` over the elements of `l` numbered from `n`: the element at `j` is changed
by the element of `l` numbered `j`, if there is one. -/
theorem getElem?_foldl_modify_zipIdx {α β : Type} (f : List α → β × Nat → List α)
    (F : Nat → β → α → α) (hf : ∀ xs b i, f xs (b, i) = xs.modify i (F i b)) (l : List β)
    (n : Nat) (xs : List α) (j : Nat) :
    ((l.zipIdx n).foldl f xs)[j]? =
      xs[j]?.map fun x => if n ≤ j then (l[j - n]?.map fun b => F j b x).getD x else x := by
  induction l generalizing n xs with
  | nil =>
    simp only [List.zipIdx_nil, List.foldl_nil, List.getElem?_nil, Option.map_none,
      Option.getD_none, ite_self, Option.map_id']
  | cons b l ih =>
    rw [List.zipIdx_cons, List.foldl_cons, hf, ih, List.getElem?_modify]
    cases xs[j]? with
    | none => rfl
    | some x =>
      simp only [Option.map_some]
      -- the element numbered `n` is `b`; those after it are `l`'s
      rcases Nat.lt_trichotomy j n with hlt | rfl | hgt
      · simp [show ¬ n + 1 ≤ j by omega, show ¬ n ≤ j by omega, show n ≠ j by omega]
      · simp
      · obtain ⟨k, rfl⟩ : ∃ k, j = n + 1 + k := ⟨j - (n + 1), by omega⟩
        simp [show n ≠ n + 1 + k by omega, show n + 1 + k - n = k + 1 by omega,
          show ¬ n + 1 + k < n by omega]

namespace LpFragmenter

/-- `MAX_SINGLE_FRAG_OVERHEAD`: LpPacket TLV-TYPE and TLV-LENGTH, a Sequence, Fragment TLV-TYPE
and TLV-LENGTH. -/
def maxSingleFragOverhead : Nat := 1 + 9 + (1 + 1 + 8) + (1 + 9)

/-- `MAX_FRAG_OVERHEAD`: the same with a FragIndex and a FragCount. -/
def maxFragOverhead : Nat := 1 + 9 + (1 + 1 + 8) + (1 + 1 + 8) + (1 + 1 + 8) + (1 + 9)

/-- The rest of the loop of `fragmentPacket`, from `fragBegin` on: a piece of `payloadSize`
octets at a time, the last one shorter. -/
def cut (payloadSize : Nat) (hpos : 0 < payloadSize) (rest : List UInt8) : List (List UInt8) :=
  if rest = [] then [] else rest.take payloadSize :: cut payloadSize hpos (rest.drop payloadSize)
termination_by rest.length
decreasing_by
  have : 0 < rest.length := List.length_pos_iff.mpr ‹_›
  rw [List.length_drop]
  omega

/-- The pieces the loop cuts: the first `firstPayloadSize` octets, then the rest. -/
def pieces (firstPayloadSize payloadSize : Nat) (hpos : 0 < payloadSize)
    (netPkt : List UInt8) : List (List UInt8) :=
  if netPkt = [] then [] else
    netPkt.take firstPayloadSize :: cut payloadSize hpos (netPkt.drop firstPayloadSize)

/-- The header fields other than the Fragment, counted on the first fragment. -/
def headersSize (headers : List LpHeader) : Nat := (headers.map fun h => h.wire.length).sum

/-- `LpFragmenter::fragmentPacket(packet, mtu)`: the packet alone on the fast path, otherwise
its fragments; `none` where it logs a fragmentation error and drops the packet. -/
def fragmentPacket (nMaxFragments : Nat) (packet : LpPacket) (mtu : Nat) :
    Option (List LpPacket) :=
  if maxSingleFragOverhead + packet.wireEncode.length ≤ mtu then some [packet]
  else
    let netPktSize := packet.fragment.length
    -- the other header fields; a bare network packet has none
    let firstHeaderSize := headersSize packet.headers
    if h : maxFragOverhead + firstHeaderSize + 1 > mtu then none
    else
      let firstPayloadSize := min netPktSize (mtu - firstHeaderSize - maxFragOverhead)
      let payloadSize := mtu - maxFragOverhead
      let fragCount := 1 + (netPktSize - firstPayloadSize) / payloadSize +
        if (netPktSize - firstPayloadSize) % payloadSize ≠ 0 then 1 else 0
      if fragCount > nMaxFragments then none
      else
        -- `frags(fragCount)`, the first a copy of the packet
        let frags := (List.replicate fragCount (⟨[], []⟩ : LpPacket)).set 0 packet
        let ps := pieces firstPayloadSize payloadSize
          (Nat.sub_pos_of_lt (by unfold maxFragOverhead at h ⊢; omega)) packet.fragment
        -- the loop: fragment `i` gets its FragIndex, the FragCount and its piece
        some (ps.zipIdx.foldl (fun frags (piece, i) => frags.modify i fun frag =>
          { ((frag.add (.fragIndex i)).add (.fragCount fragCount)) with fragment := piece })
          frags)

/-! ## The pieces -/

section Cut

variable {payloadSize : Nat} (hpos : 0 < payloadSize)

/-- The pieces join to what the loop started from. -/
theorem flatten_cut (rest : List UInt8) : (cut payloadSize hpos rest).flatten = rest := by
  induction rest using cut.induct payloadSize hpos with
  | case1 => rw [cut, if_pos rfl]; rfl
  | case2 rest hnil ih =>
    rw [cut, if_neg hnil, List.flatten_cons, ih, List.take_append_drop]

theorem length_le_of_mem_cut {rest : List UInt8} {piece : List UInt8}
    (h : piece ∈ cut payloadSize hpos rest) : piece.length ≤ payloadSize := by
  induction rest using cut.induct payloadSize hpos with
  | case1 =>
    rw [cut, if_pos rfl] at h
    simp at h
  | case2 rest hnil ih =>
    rw [cut, if_neg hnil, List.mem_cons] at h
    rcases h with rfl | h
    · exact List.length_take_le _ _
    · exact ih h

/-- The loop runs once for each `payloadSize` octets, and once more for a shorter rest. -/
theorem length_cut (rest : List UInt8) :
    (cut payloadSize hpos rest).length =
      rest.length / payloadSize + if rest.length % payloadSize ≠ 0 then 1 else 0 := by
  induction rest using cut.induct payloadSize hpos with
  | case1 => rw [cut, if_pos rfl]; simp
  | case2 rest hnil ih =>
    rw [cut, if_neg hnil, List.length_cons, ih, List.length_drop]
    have hlen : 0 < rest.length := List.length_pos_iff.mpr hnil
    by_cases hle : payloadSize ≤ rest.length
    · -- a whole piece: one more than for the rest
      rw [Nat.div_eq_sub_div hpos hle, Nat.mod_eq_sub_mod hle]
      omega
    · -- the last piece, shorter than `payloadSize`
      have hsub : rest.length - payloadSize = 0 := by omega
      have hmod : rest.length % payloadSize ≠ 0 := by
        rw [Nat.mod_eq_of_lt (by omega)]
        omega
      rw [hsub, Nat.div_eq_of_lt (by omega : rest.length < payloadSize), if_pos hmod]
      simp

end Cut

theorem flatten_pieces (firstPayloadSize payloadSize : Nat) (hpos : 0 < payloadSize)
    (netPkt : List UInt8) : (pieces firstPayloadSize payloadSize hpos netPkt).flatten = netPkt := by
  unfold pieces
  split
  · simp [*]
  · rw [List.flatten_cons, flatten_cut, List.take_append_drop]

theorem getElem?_pieces_zero (firstPayloadSize payloadSize : Nat) (hpos : 0 < payloadSize)
    (netPkt : List UInt8) :
    (pieces firstPayloadSize payloadSize hpos netPkt)[0]? =
      if netPkt = [] then none else some (netPkt.take firstPayloadSize) := by
  unfold pieces
  split <;> rfl

theorem length_le_of_getElem?_pieces_succ {firstPayloadSize payloadSize : Nat}
    {hpos : 0 < payloadSize} {netPkt : List UInt8} {j : Nat} {piece : List UInt8}
    (h : (pieces firstPayloadSize payloadSize hpos netPkt)[j + 1]? = some piece) :
    piece.length ≤ payloadSize := by
  unfold pieces at h
  split at h
  · simp at h
  · rw [List.getElem?_cons_succ] at h
    exact length_le_of_mem_cut hpos (List.mem_of_getElem? h)

/-- The loop runs `fragCount` times: once for the first piece, then once for each `payloadSize`
octets of the rest and once more for a shorter end. -/
theorem length_pieces (firstPayloadSize payloadSize : Nat) (hpos : 0 < payloadSize)
    {netPkt : List UInt8} (hnet : netPkt ≠ []) :
    (pieces firstPayloadSize payloadSize hpos netPkt).length =
      1 + (netPkt.length - firstPayloadSize) / payloadSize +
        if (netPkt.length - firstPayloadSize) % payloadSize ≠ 0 then 1 else 0 := by
  rw [pieces, if_neg hnet, List.length_cons, length_cut, List.length_drop]
  omega

/-- A network packet longer than the first piece is cut at least in two. -/
theorem one_lt_length_pieces {firstPayloadSize payloadSize : Nat} (hpos : 0 < payloadSize)
    {netPkt : List UInt8} (hlong : firstPayloadSize < netPkt.length) :
    1 < (pieces firstPayloadSize payloadSize hpos netPkt).length := by
  have hnet : netPkt ≠ [] := List.ne_nil_of_length_pos (by omega)
  have hrest : netPkt.drop firstPayloadSize ≠ [] := by
    rw [← List.length_pos_iff, List.length_drop]
    omega
  rw [pieces, if_neg hnet, cut, if_neg hrest]
  simp

/-! ## The fragments -/

/-- The fragments the loop of `fragmentPacket` leaves when the network packet is cut into `ps`:
fragment `i` is piece `i` with its FragIndex and the FragCount, and the first keeps the
packet's other header fields. -/
def fragmentsOf (packet : LpPacket) (ps : List (List UInt8)) : List LpPacket :=
  ps.zipIdx.map fun (piece, i) =>
    { (((if i = 0 then packet else ⟨[], []⟩).add (.fragIndex i)).add (.fragCount ps.length)) with
      fragment := piece }

/-- The loop fills each of the `fragCount` fragments once, when there are as many pieces. -/
theorem fill_eq_fragmentsOf (packet : LpPacket) (ps : List (List UInt8)) :
    ps.zipIdx.foldl (fun frags (piece, i) => frags.modify i fun frag =>
        { ((frag.add (.fragIndex i)).add (.fragCount ps.length)) with fragment := piece })
      ((List.replicate ps.length ⟨[], []⟩).set 0 packet) = fragmentsOf packet ps := by
  apply List.ext_getElem?
  intro j
  -- `frags(fragCount)`: the packet first, then empty packets
  have hinit : ((List.replicate ps.length (⟨[], []⟩ : LpPacket)).set 0 packet)[j]? =
      if j < ps.length then some (if j = 0 then packet else ⟨[], []⟩) else none := by
    rw [List.getElem?_set, List.getElem?_replicate]
    by_cases hj : j = 0 <;> simp [hj, eq_comm]
  rw [getElem?_foldl_modify_zipIdx _ _ (fun _ _ _ => rfl), hinit]
  simp only [fragmentsOf, List.getElem?_map, List.getElem?_zipIdx, Nat.zero_le, if_true,
    Nat.sub_zero, Nat.zero_add]
  by_cases hj : j < ps.length
  · simp [hj]
  · simp [hj]

/-! ## Sizes of encodings -/

theorem length_writeVarNumber_le_nine (n : Nat) : (writeVarNumber n).length ≤ 9 := by
  unfold writeVarNumber
  split_ifs <;> simp

theorem length_writeVarNumber_of_lt {n : Nat} (h : n < 253) : (writeVarNumber n).length = 1 := by
  simp [writeVarNumber, h]

theorem length_nonNegativeInteger_le (n : Nat) : (nonNegativeInteger n).length ≤ 8 := by
  unfold nonNegativeInteger
  split_ifs <;> simp

theorem length_wire_sequence (seq : UInt64) : (LpHeader.sequence seq).wire.length = 10 := by
  simp [LpHeader.wire, length_encodeTlv, tlvHeaderLength, lp.tlv.sequence,
    length_writeVarNumber_of_lt]

theorem length_wire_fragIndex_le (index : Nat) : (LpHeader.fragIndex index).wire.length ≤ 10 := by
  have := length_nonNegativeInteger_le index
  rw [LpHeader.wire, length_encodeTlv, tlvHeaderLength, length_writeVarNumber_of_lt (by decide),
    length_writeVarNumber_of_lt (by omega)]
  omega

theorem length_wire_fragCount_le (count : Nat) : (LpHeader.fragCount count).wire.length ≤ 10 := by
  have := length_nonNegativeInteger_le count
  rw [LpHeader.wire, length_encodeTlv, tlvHeaderLength, length_writeVarNumber_of_lt (by decide),
    length_writeVarNumber_of_lt (by omega)]
  omega

/-- An LpPacket costs its header fields and Fragment, and at most 20 octets of TLV-TYPEs and
TLV-LENGTHs around them. -/
theorem length_lpPacketWire_le (headers : List LpHeader) (fragment : List UInt8) :
    (lpPacketWire headers (some fragment)).length ≤ 20 + headersSize headers + fragment.length := by
  have houter := length_writeVarNumber_le_nine
    ((headers.map LpHeader.wire).flatten ++ encodeTlv lp.tlv.fragment fragment).length
  have hinner := length_writeVarNumber_le_nine fragment.length
  simp only [lpPacketWire, Option.map_some, Option.getD_some, length_encodeTlv, tlvHeaderLength,
    List.length_append, List.length_flatten, List.map_map] at houter ⊢
  rw [@length_writeVarNumber_of_lt lp.tlv.lpPacket (by decide),
    @length_writeVarNumber_of_lt lp.tlv.fragment (by decide)]
  rw [@length_writeVarNumber_of_lt lp.tlv.fragment (by decide)] at houter
  unfold headersSize
  simp only [Function.comp_def] at houter ⊢
  omega

theorem length_wireEncode_le (p : LpPacket) :
    p.wireEncode.length ≤ 20 + headersSize p.headers + p.fragment.length := by
  unfold LpPacket.wireEncode
  split
  · omega
  · exact length_lpPacketWire_le _ _

theorem headersSize_perm {l₁ l₂ : List LpHeader} (h : l₁.Perm l₂) :
    headersSize l₁ = headersSize l₂ :=
  (h.map _).sum_nat

theorem perm_headers_add (p : LpPacket) (h : LpHeader) :
    (p.add h).headers.Perm (h :: p.headers) := by
  unfold LpPacket.add
  exact List.perm_middle.trans (by rw [List.takeWhile_append_dropWhile])

theorem headersSize_add (p : LpPacket) (h : LpHeader) :
    headersSize (p.add h).headers = h.wire.length + headersSize p.headers := by
  rw [headersSize_perm (perm_headers_add p h)]
  simp [headersSize]

theorem headersSize_setSequence_le (p : LpPacket) (seq : UInt64) :
    headersSize (p.setSequence seq).headers ≤ 10 + headersSize p.headers := by
  have hfilter : headersSize (p.headers.filter (·.tlvType ≠ lp.tlv.sequence)) ≤
      headersSize p.headers :=
    ((List.filter_sublist).map _).sum_le_sum fun _ _ => Nat.zero_le _
  rw [LpPacket.setSequence, headersSize_add, length_wire_sequence]
  dsimp only
  omega

/-! ## The header fields a reassembler reads -/

/-- `add` puts the field between the fields up to its TLV-TYPE and the rest. -/
theorem headers_split_add (p : LpPacket) (h : LpHeader) :
    p.headers = p.headers.takeWhile (·.tlvType ≤ h.tlvType) ++
      p.headers.dropWhile (·.tlvType ≤ h.tlvType) :=
  List.takeWhile_append_dropWhile.symm

theorem sublist_headers_add (p : LpPacket) (h : LpHeader) :
    p.headers.Sublist (p.add h).headers := by
  unfold LpPacket.add
  conv_lhs => rw [headers_split_add p h]
  exact (List.Sublist.refl _).append (List.sublist_cons_self _ _)

/-- A field added to header fields none of which a reader finds is the one it finds. -/
theorem findSome?_add_of_forall {β : Type} {f : LpHeader → Option β} {p : LpPacket}
    (h : LpHeader) (hp : ∀ x ∈ p.headers, f x = none) : (p.add h).headers.findSome? f = f h := by
  have hnone : ∀ l : List LpHeader, l.Sublist p.headers → l.findSome? f = none := fun l hl =>
    List.findSome?_eq_none_iff.mpr fun x hx => hp x (hl.subset hx)
  unfold LpPacket.add
  dsimp only
  rw [List.findSome?_append, hnone _ (List.takeWhile_sublist _), Option.none_or,
    List.findSome?_cons]
  cases f h with
  | some b => rfl
  | none => exact hnone _ (List.dropWhile_sublist _)

/-- A field the reader passes over leaves what it finds. -/
theorem findSome?_add_of_eq_none {β : Type} {f : LpHeader → Option β} (p : LpPacket)
    {h : LpHeader} (hh : f h = none) : (p.add h).headers.findSome? f = p.headers.findSome? f := by
  unfold LpPacket.add
  dsimp only
  conv_rhs => rw [headers_split_add p h]
  rw [List.findSome?_append, List.findSome?_append, List.findSome?_cons, hh]

/-- Taking out fields the reader passes over leaves what it finds. -/
theorem findSome?_filter_of_eq_none {β : Type} {f : LpHeader → Option β}
    {P : LpHeader → Bool} (l : List LpHeader) (hf : ∀ x ∈ l, P x = false → f x = none) :
    (l.filter P).findSome? f = l.findSome? f := by
  induction l with
  | nil => rfl
  | cons x l ih =>
    have ih' := ih fun y hy => hf y (List.mem_cons_of_mem x hy)
    rw [List.filter_cons]
    by_cases hx : P x = true
    · rw [if_pos hx, List.findSome?_cons, List.findSome?_cons, ih']
    · rw [if_neg hx, List.findSome?_cons, hf x List.mem_cons_self (by simpa using hx), ih']

/-- `set<SequenceField>` changes no field other than a Sequence. -/
theorem findSome?_setSequence {β : Type} {f : LpHeader → Option β} (p : LpPacket)
    (seq : UInt64) (hf : ∀ x : LpHeader, x.tlvType = lp.tlv.sequence → f x = none) :
    (p.setSequence seq).headers.findSome? f = p.headers.findSome? f := by
  unfold LpPacket.setSequence
  rw [findSome?_add_of_eq_none _ (hf _ rfl)]
  exact findSome?_filter_of_eq_none _ fun x _ hx => hf x (by simpa using hx)

theorem lpSequence_setSequence (p : LpPacket) (seq : UInt64) :
    lpSequence (p.setSequence seq).headers = some seq := by
  unfold lpSequence LpPacket.setSequence
  refine findSome?_add_of_forall _ fun x hx => ?_
  -- the Sequences were cleared
  have hne := (List.mem_filter.mp hx).2
  cases x <;> simp_all [LpHeader.tlvType]

theorem lpFragIndex_setSequence (p : LpPacket) (seq : UInt64) :
    lpFragIndex (p.setSequence seq).headers = lpFragIndex p.headers := by
  unfold lpFragIndex
  refine findSome?_setSequence p seq fun x hx => ?_
  cases x <;> simp_all [LpHeader.tlvType, lp.tlv.fragIndex, lp.tlv.sequence]

theorem lpFragCount_setSequence (p : LpPacket) (seq : UInt64) :
    lpFragCount (p.setSequence seq).headers = lpFragCount p.headers := by
  unfold lpFragCount
  refine findSome?_setSequence p seq fun x hx => ?_
  cases x <;> simp_all [LpHeader.tlvType, lp.tlv.fragCount, lp.tlv.sequence]

/-- The fields the loop adds to a fragment are the FragIndex and FragCount the reassembler
reads, when the packet had none. -/
theorem lpFragIndex_add_add {x : LpPacket} (hx : lpFragIndex x.headers = none) (i c : Nat) :
    lpFragIndex ((x.add (.fragIndex i)).add (.fragCount c)).headers = some i := by
  unfold lpFragIndex at hx ⊢
  rw [findSome?_add_of_eq_none _ rfl, findSome?_add_of_forall _ (List.findSome?_eq_none_iff.mp hx)]

theorem lpFragCount_add_add {x : LpPacket} (hx : lpFragCount x.headers = none) (i c : Nat) :
    lpFragCount ((x.add (.fragIndex i)).add (.fragCount c)).headers = some c := by
  have hnone : lpFragCount (x.add (.fragIndex i)).headers = none := by
    unfold lpFragCount at hx ⊢
    rw [findSome?_add_of_eq_none _ rfl, hx]
  unfold lpFragCount at hnone ⊢
  exact findSome?_add_of_forall _ (List.findSome?_eq_none_iff.mp hnone)

/-- The fields of the packet stay in `set<SequenceField>`'s result, the Sequences apart. -/
theorem filter_sublist_setSequence (p : LpPacket) (seq : UInt64) :
    (p.headers.filter (·.tlvType ≠ lp.tlv.sequence)).Sublist (p.setSequence seq).headers :=
  sublist_headers_add { p with headers := p.headers.filter (·.tlvType ≠ lp.tlv.sequence) } _

theorem getElem?_fragmentsOf (packet : LpPacket) (ps : List (List UInt8)) (i : Nat) :
    (fragmentsOf packet ps)[i]? = ps[i]?.map fun piece =>
      { (((if i = 0 then packet else ⟨[], []⟩).add (.fragIndex i)).add (.fragCount ps.length)) with
        fragment := piece } := by
  simp [fragmentsOf, List.getElem?_zipIdx, Function.comp_def]

/-! ## Room in each fragment -/

/-! `frags(fragCount)` with the packet copied into the first. -/

theorem getElem?_set_zero_replicate_zero {α : Type} {c : Nat} {e p x : α}
    (h : ((List.replicate c e).set 0 p)[0]? = some x) : p = x := by
  rw [List.getElem?_set_self'] at h
  simp at h
  exact h.2

theorem getElem?_set_zero_replicate_succ {α : Type} {c j : Nat} {e p x : α}
    (h : ((List.replicate c e).set 0 p)[j + 1]? = some x) : e = x := by
  rw [List.getElem?_set_ne (by omega), List.getElem?_replicate] at h
  simp at h
  exact h.2

/-- The loop gives fragment `j` its FragIndex, the FragCount and piece `j`; a fragment with no
piece keeps what it had. Each has room for a Sequence when the pieces were cut with room for
the worst-case overhead. -/
theorem room_of_mem_fill {mtu c : Nat} {ps : List (List UInt8)} {xs : List LpPacket}
    {f : LpPacket}
    (hpiece : ∀ (j : Nat) (x : LpPacket) (piece : List UInt8), xs[j]? = some x →
      ps[j]? = some piece →
      maxFragOverhead + headersSize x.headers + piece.length ≤ mtu)
    (hnone : ∀ (j : Nat) (x : LpPacket), xs[j]? = some x → ps[j]? = none →
      30 + headersSize x.headers + x.fragment.length ≤ mtu)
    (hf : f ∈ ps.zipIdx.foldl (fun frags (piece, i) => frags.modify i fun frag =>
      { ((frag.add (.fragIndex i)).add (.fragCount c)) with fragment := piece }) xs) :
    30 + headersSize f.headers + f.fragment.length ≤ mtu := by
  obtain ⟨j, hj⟩ := List.mem_iff_getElem?.mp hf
  rw [getElem?_foldl_modify_zipIdx _ _ (fun _ _ _ => rfl)] at hj
  obtain ⟨x, hx, rfl⟩ := Option.map_eq_some_iff.mp hj
  simp only [Nat.zero_le, if_true, Nat.sub_zero]
  cases hp : ps[j]? with
  | none => exact hnone j x hx hp
  | some piece =>
    -- FragIndex and FragCount take at most 10 octets each of the 50
    have hroom := hpiece j x piece hx hp
    have hindex := length_wire_fragIndex_le j
    have hcount := length_wire_fragCount_le c
    simp only [Option.map_some, Option.getD_some, headersSize_add]
    unfold maxFragOverhead at hroom
    omega

theorem fragmentPacket_room {nMaxFragments mtu : Nat} {packet : LpPacket} {frags : List LpPacket}
    (h : fragmentPacket nMaxFragments packet mtu = some frags) :
    (frags = [packet] ∧ maxSingleFragOverhead + packet.wireEncode.length ≤ mtu) ∨
      ∀ f ∈ frags, 30 + headersSize f.headers + f.fragment.length ≤ mtu := by
  unfold fragmentPacket at h
  by_cases hfast : maxSingleFragOverhead + packet.wireEncode.length ≤ mtu
  · rw [if_pos hfast] at h
    exact .inl ⟨(Option.some.inj h).symm, hfast⟩
  rw [if_neg hfast, Option.dite_none_left_eq_some] at h
  obtain ⟨hmtu, h⟩ := h
  rw [Option.ite_none_left_eq_some] at h
  obtain ⟨-, h⟩ := h
  obtain rfl := Option.some.inj h
  right
  intro f hf
  replace hmtu := Nat.le_of_not_gt hmtu
  have h50 : maxFragOverhead = 50 := rfl
  refine room_of_mem_fill ?_ ?_ hf
  · -- the first piece is cut to the room the other header fields leave, the others to the MTU
    -- less the overhead
    rintro (_ | j) x piece hx hp
    · obtain rfl := getElem?_set_zero_replicate_zero hx
      rw [getElem?_pieces_zero] at hp
      split at hp
      · cases hp
      · obtain rfl := Option.some.inj hp
        rw [List.length_take]
        omega
    · obtain rfl := getElem?_set_zero_replicate_succ hx
      have := length_le_of_getElem?_pieces_succ hp
      simp only [headersSize, List.map_nil, List.sum_nil]
      omega
  · -- no piece: the network packet was empty, or the fragment is one of the empty ones
    rintro (_ | j) x hx hp
    · obtain rfl := getElem?_set_zero_replicate_zero hx
      have hnil : packet.fragment = [] := by
        by_contra hne
        rw [getElem?_pieces_zero, if_neg hne] at hp
        cases hp
      rw [hnil, List.length_nil]
      omega
    · obtain rfl := getElem?_set_zero_replicate_succ hx
      simp only [headersSize, List.map_nil, List.sum_nil, List.length_nil]
      omega

/-- What `fragmentPacket` returns: the packet alone on the fast path, and otherwise the fragments
of at least two pieces that join to the network packet. -/
theorem fragmentPacket_eq_some {nMaxFragments mtu : Nat} {packet : LpPacket}
    {frags : List LpPacket} (h : fragmentPacket nMaxFragments packet mtu = some frags) :
    frags = [packet] ∨
      ∃ ps : List (List UInt8), 1 < ps.length ∧ ps.flatten = packet.fragment ∧
        frags = fragmentsOf packet ps := by
  unfold fragmentPacket at h
  by_cases hfast : maxSingleFragOverhead + packet.wireEncode.length ≤ mtu
  · rw [if_pos hfast] at h
    exact .inl (Option.some.inj h).symm
  rw [if_neg hfast, Option.dite_none_left_eq_some] at h
  obtain ⟨hmtu, h⟩ := h
  rw [Option.ite_none_left_eq_some] at h
  obtain ⟨-, h⟩ := h
  -- the network packet is longer than the first piece, or the packet would have fitted whole
  have hwire := length_wireEncode_le packet
  have hpos : 0 < mtu - maxFragOverhead := by
    unfold maxFragOverhead at hmtu ⊢
    omega
  have hlong : min packet.fragment.length (mtu - headersSize packet.headers - maxFragOverhead) <
      packet.fragment.length := by
    unfold maxSingleFragOverhead at hfast
    unfold maxFragOverhead at hmtu ⊢
    omega
  have hnet : packet.fragment ≠ [] := List.ne_nil_of_length_pos (by omega)
  rw [← length_pieces _ _ hpos hnet] at h
  dsimp only at h
  rw [fill_eq_fragmentsOf] at h
  exact .inr ⟨_, one_lt_length_pieces hpos hlong, flatten_pieces _ _ _ _, (Option.some.inj h).symm⟩

end LpFragmenter

namespace GenericLinkService

/-- `assignSequences`: `m_lastSeqNo.fetch_add(n)` reserves a block of `n` Sequences, and the
packets take them in order. The counter after it. -/
def assignSequences (lastSeqNo : UInt64) (pkts : List LpPacket) : List LpPacket × UInt64 :=
  (pkts.zipIdx.map fun (pkt, i) => pkt.setSequence (lastSeqNo + i.toUInt64),
    lastSeqNo + pkts.length.toUInt64)

/-- `sendLpPacket` with reliability and congestion marking off: the encoding, unless it is over
the MTU (`nOutOverMtu`). -/
def sendLpPacket (mtu : Nat) (pkt : LpPacket) : Option (List UInt8) :=
  let block := pkt.wireEncode
  if block.length > mtu then none else some block

/-- `sendNetPacket` with fragmentation allowed, an MTU, and reliability and congestion marking
off: what each packet the fragmenter returns becomes on the wire (`none`: dropped), and the
Sequence counter after it. Sequences are assigned only when there are several fragments. -/
def sendNetPacket (nMaxFragments mtu : Nat) (lastSeqNo : UInt64) (pkt : LpPacket) :
    List (Option (List UInt8)) × UInt64 :=
  match LpFragmenter.fragmentPacket nMaxFragments pkt mtu with
  | none => ([], lastSeqNo)
  | some frags =>
    let (frags, lastSeqNo) :=
      if frags.length > 1 then assignSequences lastSeqNo frags else (frags, lastSeqNo)
    (frags.map (sendLpPacket mtu), lastSeqNo)

theorem mem_assignSequences {lastSeqNo : UInt64} {pkts : List LpPacket} {f : LpPacket}
    (h : f ∈ (assignSequences lastSeqNo pkts).1) : ∃ p ∈ pkts, ∃ seq, f = p.setSequence seq := by
  simp only [assignSequences, List.mem_map] at h
  obtain ⟨x, hx, rfl⟩ := h
  exact ⟨x.1, List.fst_mem_of_mem_zipIdx hx, _, rfl⟩

theorem getElem?_assignSequences (lastSeqNo : UInt64) (pkts : List LpPacket) (i : Nat) :
    (assignSequences lastSeqNo pkts).1[i]? =
      pkts[i]?.map fun pkt => pkt.setSequence (lastSeqNo + i.toUInt64) := by
  simp [assignSequences, List.getElem?_zipIdx, Function.comp_def]

theorem sendLpPacket_isSome {mtu : Nat} {pkt : LpPacket} (h : pkt.wireEncode.length ≤ mtu) :
    (sendLpPacket mtu pkt).isSome := by
  simp [sendLpPacket, Nat.not_lt.mpr h]

/-- A Sequence costs the 10 octets of room a fragment was cut with. -/
theorem length_wireEncode_setSequence_le (p : LpPacket) (seq : UInt64) :
    (p.setSequence seq).wireEncode.length ≤ 30 + LpFragmenter.headersSize p.headers +
      p.fragment.length := by
  have hwire := LpFragmenter.length_wireEncode_le (p.setSequence seq)
  have hseq := LpFragmenter.headersSize_setSequence_le p seq
  have hfrag : (p.setSequence seq).fragment.length = p.fragment.length := rfl
  omega

theorem sendNetPacket_within_mtu (nMaxFragments mtu : Nat) (lastSeqNo : UInt64)
    (pkt : LpPacket) : ∀ o ∈ (sendNetPacket nMaxFragments mtu lastSeqNo pkt).1, o.isSome := by
  intro o ho
  cases hfrag : LpFragmenter.fragmentPacket nMaxFragments pkt mtu with
  | none => simp [sendNetPacket, hfrag] at ho
  | some frags =>
    simp only [sendNetPacket, hfrag] at ho
    rcases LpFragmenter.fragmentPacket_room hfrag with ⟨rfl, hfast⟩ | hroom
    · -- the fast path: the packet alone, without a Sequence
      simp only [List.length_singleton, gt_iff_lt, Nat.lt_irrefl, if_false, List.map_cons,
        List.map_nil, List.mem_singleton] at ho
      subst ho
      apply sendLpPacket_isSome
      unfold LpFragmenter.maxSingleFragOverhead at hfast
      omega
    · -- cut with room for a Sequence, whether or not they are given one
      obtain ⟨f, hf, rfl⟩ := List.mem_map.mp ho
      apply sendLpPacket_isSome
      split at hf
      · obtain ⟨p, hp, seq, rfl⟩ := mem_assignSequences hf
        exact (length_wireEncode_setSequence_le p seq).trans (hroom p hp)
      · have hwire := LpFragmenter.length_wireEncode_le f
        have hf := hroom f hf
        omega

/-- A packet of 55 octets sent over an MTU of 80: both of its fragments go out. -/
theorem sendNetPacket_within_mtu_cut :
    (sendNetPacket 2 80 0 ⟨[], List.replicate 55 7⟩).1.length = 2 ∧
      (sendNetPacket 2 80 0 ⟨[], List.replicate 55 7⟩).1.all Option.isSome = true := by
  refine ⟨?_, List.all_eq_true.mpr fun o ho => sendNetPacket_within_mtu 2 80 0 _ o ho⟩
  simp [sendNetPacket, LpFragmenter.fragmentPacket, LpFragmenter.pieces, LpFragmenter.cut,
    LpFragmenter.maxSingleFragOverhead, LpFragmenter.maxFragOverhead, LpPacket.wireEncode,
    LpFragmenter.headersSize]
  decide

end GenericLinkService

end MwNfd
