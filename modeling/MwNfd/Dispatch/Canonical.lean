import MwNfd.Dispatch.Dissect
import MwNfd.Packet

/-!
# The dispatcher on packets as ndn-cxx encodes them

What `dcnReceivePacket` does with an Interest or a Data that a link service put on the wire
without fragmenting it: bare, or in an `LpPacket` after header fields. The walk reads each
header field into its local (`LpHeader.update`), enters the Fragment and the network packet, and
hands the Name to `computeWorkerId`; the worker is then the name's worker (`nameWorker`) unless
the localhost test fires on one of the first `k` components, or the PIT token's first octet for
a Data that carries one.

* `lpLoop_headers`: the walk over header fields, one pass per field.
* `dispatch_framed`: the dispatch of a framed Interest or Data, for every framing.
-/

namespace MwNfd

/-! ## Header fields as the walk reads them -/

/-- A header field the walk reads as its encoder meant: `FragIndex` and `FragCount` values of
one octet (larger ones are `memcpy`'d in host order), a non-empty PIT token, and any other field
under a TLV-TYPE the walk does not test. -/
def LpHeader.Readable : LpHeader → Prop
  | .sequence _ => True
  | .fragIndex index => index < 256
  | .fragCount count => count < 256
  | .pitToken token => token ≠ [] ∧ token.length < 2 ^ 64
  | .field type value => 0 < type ∧ type ≤ 0xFFFFFFFF ∧
      type ∉ [tlv.interest, tlv.data, tlv.name, lp.tlv.fragment, lp.tlv.sequence,
        lp.tlv.fragIndex, lp.tlv.fragCount, lp.tlv.pitToken] ∧ value.length < 2 ^ 64

instance LpHeader.decidableReadable : (h : LpHeader) → Decidable h.Readable
  | .sequence _ => inferInstanceAs (Decidable True)
  | .fragIndex index => inferInstanceAs (Decidable (index < 256))
  | .fragCount count => inferInstanceAs (Decidable (count < 256))
  | .pitToken token => inferInstanceAs (Decidable (token ≠ [] ∧ token.length < 2 ^ 64))
  | .field type value => inferInstanceAs (Decidable (0 < type ∧ type ≤ 0xFFFFFFFF ∧
      type ∉ [tlv.interest, tlv.data, tlv.name, lp.tlv.fragment, lp.tlv.sequence,
        lp.tlv.fragIndex, lp.tlv.fragCount, lp.tlv.pitToken] ∧ value.length < 2 ^ 64))

/-- The locals after the walk has read a header field. -/
def LpHeader.update : LpHeader → DissectVars → DissectVars
  | .sequence seq, v => { v with seq := seq, isFrag := true }
  | .fragIndex index, v => { v with index := index.toUInt64 }
  | .fragCount count, v => { v with count := count.toUInt64 }
  | .pitToken token, v =>
    { v with worker := (token.headD 0).toNat, pitToken := (token.headD 0).toNat }
  | .field _ _, v => v

/-- Whether a header field is `FragIndex` or `FragCount`, which only a fragmented packet has. -/
def LpHeader.isFragField : LpHeader → Bool
  | .fragIndex _ | .fragCount _ => true
  | _ => false

def LpHeader.isPitToken : LpHeader → Bool
  | .pitToken _ => true
  | _ => false

/-- The locals after the walk has read a list of header fields. -/
def LpHeader.updateAll (hs : List LpHeader) (v : DissectVars) : DissectVars :=
  hs.foldl (fun v h => h.update v) v

@[simp] theorem LpHeader.updateAll_nil (v : DissectVars) : LpHeader.updateAll [] v = v := rfl

@[simp] theorem LpHeader.updateAll_cons (h : LpHeader) (hs : List LpHeader) (v : DissectVars) :
    LpHeader.updateAll (h :: hs) v = LpHeader.updateAll hs (h.update v) := rfl

theorem LpHeader.updateAll_append (hs hs' : List LpHeader) (v : DissectVars) :
    LpHeader.updateAll (hs ++ hs') v = LpHeader.updateAll hs' (LpHeader.updateAll hs v) := by
  simp [LpHeader.updateAll, List.foldl_append]

@[simp] theorem LpHeader.packetType_update (h : LpHeader) (v : DissectVars) :
    (h.update v).packetType = v.packetType := by
  cases h <;> rfl

@[simp] theorem LpHeader.packetType_updateAll (hs : List LpHeader) (v : DissectVars) :
    (LpHeader.updateAll hs v).packetType = v.packetType := by
  induction hs generalizing v with
  | nil => rfl
  | cons h hs ih => rw [LpHeader.updateAll_cons, ih, LpHeader.packetType_update]

/-- Without fragment fields the walk keeps `index` and `count`. -/
theorem LpHeader.index_updateAll {hs : List LpHeader} (hf : ∀ h ∈ hs, h.isFragField = false)
    (v : DissectVars) :
    (LpHeader.updateAll hs v).index = v.index ∧ (LpHeader.updateAll hs v).count = v.count := by
  induction hs generalizing v with
  | nil => exact ⟨rfl, rfl⟩
  | cons h hs ih =>
    rw [LpHeader.updateAll_cons]
    obtain ⟨hi, hc⟩ := ih (fun h' hm => hf h' (List.mem_cons_of_mem h hm)) (h.update v)
    have hh := hf h List.mem_cons_self
    cases h <;> first | exact ⟨hi, hc⟩ | cases hh

/-- Without a PIT token the walk keeps `pitToken` and `worker`. -/
theorem LpHeader.pitToken_updateAll {hs : List LpHeader} (hp : ∀ h ∈ hs, h.isPitToken = false)
    (v : DissectVars) :
    (LpHeader.updateAll hs v).pitToken = v.pitToken ∧
      (LpHeader.updateAll hs v).worker = v.worker := by
  induction hs generalizing v with
  | nil => exact ⟨rfl, rfl⟩
  | cons h hs ih =>
    rw [LpHeader.updateAll_cons]
    obtain ⟨hi, hc⟩ := ih (fun h' hm => hp h' (List.mem_cons_of_mem h hm)) (h.update v)
    have hh := hp h List.mem_cons_self
    cases h <;> first | exact ⟨hi, hc⟩ | cases hh

/-! ## One pass per element -/

section Walk

variable {cfg : DispatchConfig} {mem rest : List UInt8}

/-- The walk reads the value of a header field into its local. -/
theorem readHeaderField_header {h : LpHeader} (hr : h.Readable) {p : Nat} (v : DissectVars)
    (hmem : mem.drop p = h.wire ++ rest) :
    ∃ t val, h.wire = encodeTlv t val ∧ 0 < t ∧ t ≤ 0xFFFFFFFF ∧ val.length < 2 ^ 64 ∧
      t ∉ [tlv.interest, tlv.data, tlv.name, lp.tlv.fragment] ∧
      readHeaderField mem (p + tlvHeaderLength t val) t val.length v = .ok (h.update v) := by
  have hval : ∀ {t : Nat} {val : List UInt8}, h.wire = encodeTlv t val →
      mem.drop (p + tlvHeaderLength t val) = val ++ rest := by
    intro t val hw
    exact drop_tlv_value (hw ▸ hmem)
  cases h with
  | sequence seq =>
    refine ⟨lp.tlv.sequence, _, rfl, by decide, by decide, by simp, by decide, ?_⟩
    have hbytes := bytesAt_of_drop (hval rfl)
    generalize p + tlvHeaderLength _ _ = q at hbytes ⊢
    simp only [Octets.length_beBytes] at hbytes
    -- `memcpy` puts the octets in host order, `big_to_native_inplace` turns them round
    have hswap : bigToNative (UInt64.ofNat (Octets.leNat (Octets.beBytes 8 seq.toNat ++
        (wordOctets v.seq).drop 8))) = seq := by
      have hlt := Octets.leNat_lt (Octets.beBytes 8 seq.toNat)
      simp only [Octets.length_beBytes] at hlt
      have hw : (wordOctets v.seq).drop 8 = [] := by simp [wordOctets]
      rw [hw, List.append_nil, bigToNative, UInt64.toNat_ofNat_of_lt' (by simpa using hlt)]
      have := Octets.beBytes_leNat (Octets.beBytes 8 seq.toNat)
      rw [Octets.length_beBytes] at this
      rw [this, Octets.leNat_reverse, Octets.beNat_beBytes_of_lt (by simpa using seq.toNat_lt)]
      exact UInt64.ofNat_toNat
    simp [readHeaderField, memcpyWord, hbytes, hswap, lp.tlv.sequence, lp.tlv.fragCount,
      lp.tlv.fragIndex, LpHeader.update]
  | fragIndex index =>
    have henc := nonNegativeInteger_of_lt hr
    refine ⟨lp.tlv.fragIndex, _, rfl, by decide, by decide, by rw [henc]; simp, by decide, ?_⟩
    have hb := hval rfl
    rw [henc] at hb ⊢
    have hbyte := byteAt_of_drop hb
    generalize p + tlvHeaderLength _ _ = q at hbyte ⊢
    have hidx : (index.toUInt8).toUInt64 = index.toUInt64 := Octets.toUInt64_toUInt8_of_lt hr
    simp [readHeaderField, lp.tlv.fragCount, lp.tlv.fragIndex, readFragNumber, hbyte, hidx,
      LpHeader.update, Except.map]
  | fragCount count =>
    have henc := nonNegativeInteger_of_lt hr
    refine ⟨lp.tlv.fragCount, _, rfl, by decide, by decide, by rw [henc]; simp, by decide, ?_⟩
    have hb := hval rfl
    rw [henc] at hb ⊢
    have hbyte := byteAt_of_drop hb
    generalize p + tlvHeaderLength _ _ = q at hbyte ⊢
    have hidx : (count.toUInt8).toUInt64 = count.toUInt64 := Octets.toUInt64_toUInt8_of_lt hr
    simp [readHeaderField, lp.tlv.fragCount, readFragNumber, hbyte, hidx, LpHeader.update,
      Except.map]
  | pitToken token =>
    obtain ⟨hne, hlen⟩ := hr
    obtain ⟨b, tok, rfl⟩ := List.exists_cons_of_ne_nil hne
    refine ⟨lp.tlv.pitToken, _, rfl, by decide, by decide, hlen, by decide, ?_⟩
    have hbyte := byteAt_of_drop (show mem.drop _ = b :: (tok ++ rest) from hval rfl)
    generalize p + tlvHeaderLength _ _ = q at hbyte ⊢
    simp [readHeaderField, lp.tlv.fragCount, lp.tlv.fragIndex, lp.tlv.sequence, lp.tlv.pitToken,
      hbyte, LpHeader.update]
  | field type value =>
    obtain ⟨ht0, ht, hnot, hlen⟩ := hr
    refine ⟨type, value, rfl, ht0, ht, hlen, fun hm => hnot (by simp at hm ⊢; omega), ?_⟩
    simp only [List.mem_cons, List.not_mem_nil, not_or] at hnot
    simp [readHeaderField, hnot, LpHeader.update]

/-- A value of 256 or more is encoded in two, four or eight octets. -/
theorem length_nonNegativeInteger_wide {n : Nat} (h : 256 ≤ n) :
    1 < (nonNegativeInteger n).length ∧ (nonNegativeInteger n).length ≤ 8 := by
  unfold nonNegativeInteger
  rw [if_neg (by omega)]
  split_ifs <;> simp

/-- A `FragIndex` or `FragCount` value of more than one octet is `memcpy`'d into the local, and
the value `big_to_native` returns is dropped: the local's low octets are the value's octets read
least significant first. -/
theorem readFragNumber_wide {q : Nat} {val : List UInt8} (v : UInt64)
    (hmem : mem.drop q = val ++ rest) (h1 : val.length ≠ 1) (h8 : val.length ≤ 8) :
    ∃ x, readFragNumber mem q val.length v = .ok x ∧
      x.toNat % 256 ^ val.length = Octets.leNat val := by
  have hbytes := bytesAt_of_drop hmem
  refine ⟨UInt64.ofNat (Octets.leNat (val ++ (wordOctets v).drop val.length)),
    by simp [readFragNumber, h1, memcpyWord, hbytes, show ¬ 8 < val.length by omega], ?_⟩
  -- the eight octets of the word: the value's, then the old word's high ones
  have hword : (val ++ (wordOctets v).drop val.length).length = 8 := by
    simp [wordOctets]
    omega
  have hlt := Octets.leNat_lt (val ++ (wordOctets v).drop val.length)
  rw [hword] at hlt
  have hval := Octets.leNat_lt val
  rw [Octets.leNat_append] at hlt ⊢
  rw [UInt64.toNat_ofNat_of_lt' (by omega), Nat.add_mul_mod_self_left, Nat.mod_eq_of_lt hval]

/-- One pass over a header field: the walk reads it into its local and moves past it. -/
theorem lpStep_header {h : LpHeader} (hr : h.Readable) {p end_ : Nat} (v : DissectVars)
    (hmem : mem.drop p = h.wire ++ rest) (hend : p + h.wire.length ≤ end_) :
    lpStep cfg mem end_ p v = .ok (.next (p + h.wire.length) (h.update v)) := by
  obtain ⟨t, val, hw, ht0, ht, hlen, hnot, hread⟩ := readHeaderField_header hr v hmem
  rw [hw] at hmem hend ⊢
  rw [length_encodeTlv] at hend ⊢
  obtain ⟨hT, hL⟩ := @read_tlv_header mem rest p end_ t val hmem ht0 ht hlen (by omega)
  simp only [List.mem_cons, List.not_mem_nil, not_or] at hnot
  obtain ⟨h5, h6, h7, h80⟩ := hnot
  simp [lpStep, hT, hL, hread, h7, h80, advancePointer_tlv_value hmem, Nat.add_assoc,
    show ¬ (t = tlv.interest ∨ t = tlv.data) by omega]

/-- The width `nonNegativeInteger` picks holds the value. -/
theorem lt_pow_length_nonNegativeInteger {n : Nat} (h : n < 2 ^ 64) :
    n < 256 ^ (nonNegativeInteger n).length := by
  unfold nonNegativeInteger
  split_ifs <;> simp <;> omega

/-- A `FragIndex` of 256 or more, encoded as ndn-cxx and the fragmenter encode it, is not the
value the walk goes on with: one pass over it leaves in the local the value's octets read least
significant first, which is the value only when its octets read the same both ways. -/
theorem lpStep_fragIndex_wide {index : Nat} (hwide : 256 ≤ index) (hfit : index < 2 ^ 64)
    {p end_ : Nat} (v : DissectVars)
    (hmem : mem.drop p = (LpHeader.fragIndex index).wire ++ rest)
    (hend : p + (LpHeader.fragIndex index).wire.length ≤ end_) :
    ∃ v', lpStep cfg mem end_ p v = .ok (.next (p + (LpHeader.fragIndex index).wire.length) v') ∧
      v' = { v with index := v'.index } ∧
      v'.index.toNat % 256 ^ (nonNegativeInteger index).length =
        Octets.leNat (nonNegativeInteger index) ∧
      (Octets.leNat (nonNegativeInteger index) ≠ index → v'.index.toNat ≠ index) := by
  obtain ⟨hw1, hw8⟩ := length_nonNegativeInteger_wide hwide
  have hwire : (LpHeader.fragIndex index).wire =
      encodeTlv lp.tlv.fragIndex (nonNegativeInteger index) := rfl
  rw [hwire] at hmem hend ⊢
  rw [length_encodeTlv] at hend ⊢
  obtain ⟨hT, hL⟩ := @read_tlv_header mem rest p end_ lp.tlv.fragIndex (nonNegativeInteger index)
    hmem (by decide) (by decide) (by omega) (by omega)
  obtain ⟨x, hx, hmod⟩ := readFragNumber_wide v.index (drop_tlv_value hmem) (by omega) hw8
  have hread : readHeaderField mem (p + tlvHeaderLength lp.tlv.fragIndex (nonNegativeInteger index))
      lp.tlv.fragIndex (nonNegativeInteger index).length v = .ok { v with index := x } := by
    rw [readHeaderField, if_neg (by decide), if_pos rfl, hx]
    rfl
  have h80 : lp.tlv.fragIndex ≠ lp.tlv.fragment := by decide
  have h7 : lp.tlv.fragIndex ≠ tlv.name := by decide
  have h56 : ¬ (lp.tlv.fragIndex = tlv.interest ∨ lp.tlv.fragIndex = tlv.data) := by decide
  refine ⟨{ v with index := x }, ?_, rfl, hmod, ?_⟩
  · simp [lpStep, hT, hL, hread, h80, h7, h56, advancePointer_tlv_value hmem, Nat.add_assoc]
  · intro hne heq
    have hx' : x.toNat = index := heq
    have hlt := lt_pow_length_nonNegativeInteger hfit
    rw [hx', Nat.mod_eq_of_lt hlt] at hmod
    exact hne hmod.symm

/-- FragIndex 256, two octets `01 00`: the walk reads 1. -/
theorem lpStep_fragIndex_wide_256 :
    ∃ v', lpStep ⟨2, 2, by decide⟩ (LpHeader.fragIndex 256).wire 4 0
        (DissectVars.init lp.tlv.lpPacket) = .ok (.next 4 v') ∧
      v' = { DissectVars.init lp.tlv.lpPacket with index := v'.index } ∧
      v'.index.toNat % 256 ^ (nonNegativeInteger 256).length =
        Octets.leNat (nonNegativeInteger 256) ∧
      (Octets.leNat (nonNegativeInteger 256) ≠ 256 → v'.index.toNat ≠ 256) :=
  @lpStep_fragIndex_wide ⟨2, 2, by decide⟩ (LpHeader.fragIndex 256).wire [] 256 (by decide)
    (by decide) 0 4 (DissectVars.init lp.tlv.lpPacket) (by simp) (by decide)

/-- The walk over header fields, one pass per field, while the packet goes on after them. The
induction is on the fields. -/
theorem lpLoop_headers (hs : List LpHeader) (hr : ∀ h ∈ hs, h.Readable) {p end_ fuel : Nat}
    (v : DissectVars) (hmem : mem.drop p = (hs.map LpHeader.wire).flatten ++ rest)
    (hend : p + ((hs.map LpHeader.wire).flatten).length < end_) (hfuel : hs.length ≤ fuel) :
    lpLoop cfg mem end_ fuel p v =
      lpLoop cfg mem end_ (fuel - hs.length) (p + ((hs.map LpHeader.wire).flatten).length)
        (LpHeader.updateAll hs v) := by
  induction hs generalizing p v fuel with
  | nil => simp
  | cons h hs ih =>
    obtain ⟨f, rfl⟩ : ∃ f, fuel = f + 1 := ⟨fuel - 1, by simp at hfuel; omega⟩
    simp only [List.map_cons, List.flatten_cons, List.length_append, List.append_assoc]
      at hmem hend ⊢
    have hstep := @lpStep_header cfg mem _ h (hr h List.mem_cons_self) p end_ v hmem (by omega)
    have hmem' : mem.drop (p + h.wire.length) = (hs.map LpHeader.wire).flatten ++ rest := by
      rw [← List.drop_drop, hmem, List.drop_left]
    simp only [lpLoop, hstep, Except.ok_bind', show p + h.wire.length ≠ end_ by omega, if_false]
    rw [ih (fun h' hm => hr h' (List.mem_cons_of_mem h hm)) (h.update v) hmem' (by omega)
      (by simp at hfuel; omega)]
    simp [Nat.add_assoc]

/-- An element that is not a header field leaves the locals as they are. -/
theorem readHeaderField_other {p t l : Nat} (v : DissectVars)
    (ht : t ∉ [lp.tlv.fragCount, lp.tlv.fragIndex, lp.tlv.sequence, lp.tlv.pitToken]) :
    readHeaderField mem p t l v = .ok v := by
  simp only [List.mem_cons, List.not_mem_nil, not_or] at ht
  simp [readHeaderField, ht]

/-- One pass over an element the walk enters: the `Fragment` of a first fragment, an
`Interest` or a `Data`. The walk goes on at the element's value. -/
theorem lpStep_enter {t : Nat} {val : List UInt8} {p end_ : Nat} (v : DissectVars)
    (ht : t = lp.tlv.fragment ∧ v.index = 0 ∨ t = tlv.interest ∨ t = tlv.data)
    (hv : val.length < 2 ^ 64) (hmem : mem.drop p = encodeTlv t val ++ rest)
    (hend : p + tlvHeaderLength t val ≤ end_) :
    lpStep cfg mem end_ p v = .ok (.next (p + tlvHeaderLength t val)
      (if t = lp.tlv.fragment then v else { v with packetType := t })) := by
  have ht' : 0 < t ∧ t ≤ 0xFFFFFFFF := by
    rcases ht with ⟨rfl, -⟩ | rfl | rfl <;> decide
  obtain ⟨hT, hL⟩ := @read_tlv_header mem rest p end_ t val hmem ht'.1 ht'.2 hv hend
  have hH : readHeaderField mem (p + tlvHeaderLength t val) t val.length v = .ok v :=
    readHeaderField_other v (by rcases ht with ⟨rfl, -⟩ | rfl | rfl <;> decide)
  simp only [lpStep, hT, hL, hH, Except.ok_bind']
  rcases ht with ⟨rfl, hidx⟩ | rfl | rfl
  · simp [hidx]
  · simp [tlv.interest, tlv.name, lp.tlv.fragment]
  · simp [tlv.data, tlv.interest, tlv.name, lp.tlv.fragment]

/-- One pass over the Name: `computeWorkerId` on its value, then `break`. -/
theorem lpStep_name (n : Name) {p end_ : Nat} (v : DissectVars)
    (hv : n.wireValue.length < 2 ^ 64) (hmem : mem.drop p = n.wireEncode ++ rest)
    (hend : p + tlvHeaderLength tlv.name n.wireValue ≤ end_) :
    lpStep cfg mem end_ p v =
      computeWorkerId cfg mem (p + tlvHeaderLength tlv.name n.wireValue) n.wireValue.length >>=
        fun w => .ok (.exit (.done { v with worker := w })) := by
  obtain ⟨hT, hL⟩ :=
    @read_tlv_header mem rest p end_ tlv.name n.wireValue hmem (by decide) (by decide) hv hend
  have hH : readHeaderField mem (p + tlvHeaderLength tlv.name n.wireValue) tlv.name
      n.wireValue.length v = .ok v := readHeaderField_other v (by decide)
  simp only [lpStep, hT, hL, hH, Except.ok_bind']
  simp [tlv.name, lp.tlv.fragment]

/-- The encoding of a network-layer packet of TLV-TYPE `t` whose first element is the Name `n`,
the other elements encoded as `tail`. -/
def netPacketWire (t : Nat) (n : Name) (tail : List UInt8) : List UInt8 :=
  encodeTlv t (n.wireEncode ++ tail)

theorem length_netPacketWire (t : Nat) (n : Name) (tail : List UInt8) :
    (netPacketWire t n tail).length =
      tlvHeaderLength t (n.wireEncode ++ tail) + tlvHeaderLength tlv.name n.wireValue +
        n.wireValue.length + tail.length := by
  simp [netPacketWire, length_encodeTlv, Name.wireEncode, Nat.add_assoc]

/-- An Interest is a network packet whose Name is followed by its selectors and other fields. -/
theorem Interest.wireEncode_eq_netPacketWire (i : Interest) :
    i.wireEncode = netPacketWire tlv.interest i.name
      ((if i.canBePrefix then encodeTlv 33 [] else []) ++
        (if i.mustBeFresh then encodeTlv 18 [] else []) ++ i.otherFields) := by
  simp [Interest.wireEncode, netPacketWire, List.append_assoc]

theorem Data.wireEncode_eq_netPacketWire (d : Data) :
    d.wireEncode = netPacketWire tlv.data d.name d.otherFields := rfl

/-- The walk from the Fragment of a first fragment: it enters the Fragment and the network
packet, and breaks at the Name with the worker `computeWorkerId` gives it. -/
theorem lpLoop_fragment {t : Nat} (ht : t = tlv.interest ∨ t = tlv.data) (n : Name)
    (tail : List UInt8) {p end_ fuel : Nat} (v : DissectVars) (hidx : v.index = 0)
    (hmem : mem.drop p = encodeTlv lp.tlv.fragment (netPacketWire t n tail) ++ rest)
    (hend : end_ = p + (encodeTlv lp.tlv.fragment (netPacketWire t n tail)).length)
    (hfit : (netPacketWire t n tail).length < 2 ^ 64) (hfuel : 3 ≤ fuel) :
    ∃ off, mem.drop off = n.wireValue ++ (tail ++ rest) ∧
      lpLoop cfg mem end_ fuel p v = computeWorkerId cfg mem off n.wireValue.length >>=
        fun w => .ok (.done { v with packetType := t, worker := w }) := by
  obtain ⟨f, rfl⟩ : ∃ f, fuel = f + 3 := ⟨fuel - 3, by omega⟩
  have hlen := length_netPacketWire t n tail
  have hlen₁ := length_encodeTlv lp.tlv.fragment (netPacketWire t n tail)
  have hpos₁ := tlvHeaderLength_pos t (n.wireEncode ++ tail)
  have hpos₂ := tlvHeaderLength_pos tlv.name n.wireValue
  -- the Fragment, the network packet and the Name, each the first element of the one before
  have hmem₁ := drop_tlv_value hmem
  have hmem₂ : mem.drop (p + tlvHeaderLength lp.tlv.fragment (netPacketWire t n tail) +
      tlvHeaderLength t (n.wireEncode ++ tail)) = n.wireEncode ++ (tail ++ rest) := by
    rw [drop_tlv_value hmem₁, List.append_assoc]
  have hmem₃ := drop_tlv_value hmem₂
  refine ⟨_, hmem₃, ?_⟩
  have hstep₁ := @lpStep_enter cfg mem rest lp.tlv.fragment (netPacketWire t n tail) p end_ v
    (.inl ⟨rfl, hidx⟩) hfit hmem (by omega)
  have hstep₂ := @lpStep_enter cfg mem rest t (n.wireEncode ++ tail)
    (p + tlvHeaderLength lp.tlv.fragment (netPacketWire t n tail)) end_ v (.inr ht)
    (by simp only [netPacketWire, length_encodeTlv] at hfit; omega) hmem₁ (by omega)
  have hstep₃ := @lpStep_name cfg mem (tail ++ rest) n
    (p + tlvHeaderLength lp.tlv.fragment (netPacketWire t n tail) +
      tlvHeaderLength t (n.wireEncode ++ tail)) end_ { v with packetType := t } (by omega)
    hmem₂ (by omega)
  have ht80 : t ≠ lp.tlv.fragment := by rcases ht with rfl | rfl <;> decide
  simp only [if_pos, if_neg ht80] at hstep₁ hstep₂
  simp only [lpLoop, hstep₁, hstep₂, hstep₃, Except.ok_bind']
  rw [if_neg (by omega), if_neg (by omega)]
  cases computeWorkerId cfg mem _ n.wireValue.length <;> rfl

end Walk

/-! ## Framings -/

/-- How a link service that does not fragment puts a network-layer packet on the wire: bare, or
in an `LpPacket` after header fields. -/
inductive Framing where
  | bare
  | lp (headers : List LpHeader)

def Framing.wire : Framing → List UInt8 → List UInt8
  | .bare, pkt => pkt
  | .lp headers, pkt => lpPacketWire headers (some pkt)

theorem Framing.length_le_length_wire (f : Framing) (pkt : List UInt8) :
    pkt.length ≤ (f.wire pkt).length := by
  cases f with
  | bare => exact le_refl _
  | lp headers => simp [Framing.wire, lpPacketWire, length_encodeTlv]; omega

/-- The framing of an unfragmented packet, whose header fields the walk reads as meant. -/
def Framing.Unfragmented : Framing → Prop
  | .bare => True
  | .lp headers => ∀ h ∈ headers, h.Readable ∧ h.isFragField = false

/-- A framing with no PIT token. -/
def Framing.NoPitToken : Framing → Prop
  | .bare => True
  | .lp headers => ∀ h ∈ headers, h.isPitToken = false

/-- The locals of `dissectNdnPacket` when the walk reaches the network packet of type `t`. -/
def Framing.vars (t : Nat) : Framing → DissectVars
  | .bare => DissectVars.init t
  | .lp headers =>
    { LpHeader.updateAll headers (DissectVars.init lp.tlv.lpPacket) with packetType := t }

@[simp] theorem Framing.packetType_vars (f : Framing) (t : Nat) : (f.vars t).packetType = t := by
  cases f <;> rfl

theorem Framing.pitToken_vars {f : Framing} (hf : f.NoPitToken) (t : Nat) :
    (f.vars t).pitToken = -1 := by
  cases f with
  | bare => rfl
  | lp hs => exact (LpHeader.pitToken_updateAll hf _).1

theorem LpHeader.length_wire_pos (h : LpHeader) : 0 < h.wire.length := by
  cases h <;> simp only [LpHeader.wire, length_encodeTlv] <;>
    exact Nat.lt_of_lt_of_le (Nat.zero_lt_of_lt (tlvHeaderLength_pos _ _)) (Nat.le_add_right _ _)

theorem LpHeader.length_le_length_flatten (hs : List LpHeader) :
    hs.length ≤ (hs.map LpHeader.wire).flatten.length := by
  induction hs with
  | nil => simp
  | cons h hs ih =>
    have := h.length_wire_pos
    simp only [List.length_cons, List.map_cons, List.flatten_cons, List.length_append]
    omega

theorem Framing.index_vars {f : Framing} (hf : f.Unfragmented) (t : Nat) :
    (f.vars t).index = 0 ∧ (f.vars t).count = 0 := by
  cases f with
  | bare => exact ⟨rfl, rfl⟩
  | lp hs => exact LpHeader.index_updateAll (fun h hm => (hf h hm).2) _

/-! ## `dissectNdnPacket` on a framed packet -/

section Framed

variable {cfg : DispatchConfig} {mem rest : List UInt8}

/-- A packet's octets at the front of memory: its first octet, and its TLV-TYPE and TLV-LENGTH
read with `end` at its end. -/
theorem read_packet_header {t : Nat} {val : List UInt8} (ht0 : 0 < t) (ht : t < 253)
    (hmem : mem = encodeTlv t val ++ rest) (hv : val.length < 2 ^ 64) :
    byteAt mem 0 = .ok t.toUInt8 ∧
    readType mem 0 (encodeTlv t val).length = .ok (some t, 1) ∧
    readVarNumber mem 1 (encodeTlv t val).length =
      .ok (some val.length, tlvHeaderLength t val) := by
  have hw := writeVarNumber_of_lt ht
  have hmem₀ : mem.drop 0 = encodeTlv t val ++ rest := by rw [List.drop_zero, hmem]
  obtain ⟨hT, hL⟩ := @read_tlv_header mem rest 0 (encodeTlv t val).length t val hmem₀ ht0
    (by omega) hv (by rw [length_encodeTlv]; omega)
  simp only [hw, List.length_singleton, Nat.zero_add] at hT hL
  refine ⟨?_, hT, hL⟩
  rw [hmem, encodeTlv, hw]
  rfl

/-- The code after the loop on the locals of a first fragment or a whole packet with no PIT
token the code acts on: the worker stays the name's. -/
theorem fragmentDispatch_first {v : DissectVars} (hidx : v.index = 0)
    (htok : v.packetType = tlv.interest ∨ v.pitToken = -1) (fm : FragmentMap) :
    ∃ fm', fragmentDispatch v fm = .ok (v.worker, fm') := by
  unfold fragmentDispatch
  rw [if_neg (by rcases htok with h | h <;> simp [h])]
  by_cases hfrag : v.isFrag
  · exact ⟨_, by rw [if_pos hfrag, if_pos hidx]⟩
  · exact ⟨fm, by rw [if_neg hfrag]⟩

/-- `dissectNdnPacket` on a framed Interest or Data: `computeWorkerId` on the name's value,
then the code after the loop on the locals the walk has reached the packet with. -/
theorem dissect_framed {t : Nat} (ht : t = tlv.interest ∨ t = tlv.data) (n : Name)
    (tail : List UInt8) {f : Framing} (hf : f.Unfragmented) (fm : FragmentMap)
    (hmem : mem = f.wire (netPacketWire t n tail) ++ rest) (hfit : mem.length < 2 ^ 64) :
    ∃ off, mem.drop off = n.wireValue ++ (tail ++ rest) ∧
      dissectNdnPacket cfg fm mem (f.wire (netPacketWire t n tail)).length =
        computeWorkerId cfg mem off n.wireValue.length >>= fun w =>
          fragmentDispatch { f.vars t with worker := w } fm >>= fun r =>
            .ok ((true, t, r.1), r.2) := by
  have ht' : 0 < t ∧ t < 253 := by rcases ht with rfl | rfl <;> decide
  have hlen := length_netPacketWire t n tail
  cases f with
  | bare =>
    simp only [Framing.wire] at hmem ⊢
    have hpkt : (netPacketWire t n tail).length ≤ mem.length := by simp [hmem]
    have hX : (n.wireEncode ++ tail).length < 2 ^ 64 := by
      simp only [netPacketWire, length_encodeTlv] at hpkt; omega
    obtain ⟨hB, hT, hL⟩ := @read_packet_header mem rest t (n.wireEncode ++ tail) ht'.1 ht'.2
      hmem hX
    have hmem₁ : mem.drop (tlvHeaderLength t (n.wireEncode ++ tail)) =
        n.wireEncode ++ (tail ++ rest) := by
      have h := drop_tlv_value (show mem.drop 0 = encodeTlv t (n.wireEncode ++ tail) ++ rest by
        rw [List.drop_zero, hmem]; rfl)
      rw [Nat.zero_add, List.append_assoc] at h
      exact h
    obtain ⟨hT₂, hL₂⟩ := @read_tlv_header mem (tail ++ rest)
      (tlvHeaderLength t (n.wireEncode ++ tail)) (netPacketWire t n tail).length tlv.name
      n.wireValue hmem₁ (by decide) (by decide) (by simp [Name.wireEncode] at hX; omega)
      (by omega)
    refine ⟨_, drop_tlv_value hmem₁, ?_⟩
    have hne : t.toUInt8 ≠ 0x64 := by rcases ht with rfl | rfl <;> decide
    simp only [netPacketWire] at hB hT hL hT₂ hL₂ ⊢
    -- the branch of the `LpPacket` goes first: simplifying it would run the walk
    rw [dissectNdnPacket, hB, Except.ok_bind', if_neg hne]
    simp only [hT, hL, hT₂, hL₂, Except.ok_bind', if_true, Option.some_or]
    cases computeWorkerId cfg mem _ n.wireValue.length with
    | error e => rfl
    | ok w => simp [fragmentDispatch, Framing.vars, DissectVars.init]
  | lp hs =>
    have hread : ∀ h ∈ hs, h.Readable := fun h hm => (hf h hm).1
    have hidx := (Framing.index_vars hf t).1
    simp only [Framing.vars] at hidx
    have hH := LpHeader.length_le_length_flatten hs
    simp only [Framing.wire, lpPacketWire, Option.map_some, Option.getD_some] at hmem ⊢
    have hpkt : (encodeTlv lp.tlv.lpPacket ((hs.map LpHeader.wire).flatten ++
        encodeTlv lp.tlv.fragment (netPacketWire t n tail))).length ≤ mem.length := by
      simp [hmem]
    simp only [length_encodeTlv, List.length_append] at hpkt
    obtain ⟨hB, hT, hL⟩ := @read_packet_header mem rest lp.tlv.lpPacket
      ((hs.map LpHeader.wire).flatten ++ encodeTlv lp.tlv.fragment (netPacketWire t n tail))
      (by decide) (by decide) hmem (by simp only [length_encodeTlv, List.length_append]; omega)
    have hmem₁ : mem.drop (tlvHeaderLength lp.tlv.lpPacket ((hs.map LpHeader.wire).flatten ++
        encodeTlv lp.tlv.fragment (netPacketWire t n tail))) = (hs.map LpHeader.wire).flatten ++
          (encodeTlv lp.tlv.fragment (netPacketWire t n tail) ++ rest) := by
      have h := drop_tlv_value (show mem.drop 0 = _ by rw [List.drop_zero, hmem])
      rw [Nat.zero_add, List.append_assoc] at h
      exact h
    have hmem₂ : mem.drop (tlvHeaderLength lp.tlv.lpPacket ((hs.map LpHeader.wire).flatten ++
        encodeTlv lp.tlv.fragment (netPacketWire t n tail)) + (hs.map LpHeader.wire).flatten.length)
        = encodeTlv lp.tlv.fragment (netPacketWire t n tail) ++ rest := by
      rw [← List.drop_drop, hmem₁, List.drop_left]
    have hwalk := length_lt_walkPasses mem
    have hloop₁ := @lpLoop_headers cfg mem _ hs hread _ (encodeTlv lp.tlv.lpPacket
      ((hs.map LpHeader.wire).flatten ++ encodeTlv lp.tlv.fragment (netPacketWire t n tail))).length
      (walkPasses mem) (DissectVars.init lp.tlv.lpPacket) hmem₁
      (by simp only [length_encodeTlv, List.length_append]; have := tlvHeaderLength_pos
            lp.tlv.fragment (netPacketWire t n tail); omega)
      (by omega)
    have h100 := tlvHeaderLength_pos lp.tlv.lpPacket
      ((hs.map LpHeader.wire).flatten ++ encodeTlv lp.tlv.fragment (netPacketWire t n tail))
    have h80 := tlvHeaderLength_pos lp.tlv.fragment (netPacketWire t n tail)
    obtain ⟨off, hoff, hloop₂⟩ := @lpLoop_fragment cfg mem rest t ht n tail
      (tlvHeaderLength lp.tlv.lpPacket ((hs.map LpHeader.wire).flatten ++
        encodeTlv lp.tlv.fragment (netPacketWire t n tail)) + (hs.map LpHeader.wire).flatten.length)
      (encodeTlv lp.tlv.lpPacket ((hs.map LpHeader.wire).flatten ++
        encodeTlv lp.tlv.fragment (netPacketWire t n tail))).length
      (walkPasses mem - hs.length) (LpHeader.updateAll hs (DissectVars.init lp.tlv.lpPacket))
      hidx hmem₂ (by simp only [length_encodeTlv, List.length_append]; omega) (by omega)
      (by omega)
    refine ⟨off, hoff, ?_⟩
    have hB' : byteAt mem 0 = .ok 0x64 := hB
    rw [dissectNdnPacket, hB', Except.ok_bind', if_pos rfl, hT, Except.ok_bind']
    dsimp only
    rw [hL, Except.ok_bind', Option.getD_some]
    dsimp only
    rw [hloop₁, hloop₂]
    cases computeWorkerId cfg mem off n.wireValue.length with
    | error e => rfl
    | ok w => rfl

/-- `dcnReceivePacket` on a framed Interest or Data that carries no PIT token the code acts on:
`DCN_LOCALHOST_PREFIX` from `computeWorkerId` declines it, and any other worker gets it on the
input thread's Interest or Data queue. -/
theorem dispatch_framed {t : Nat} (ht : t = tlv.interest ∨ t = tlv.data) (n : Name)
    (tail : List UInt8) {f : Framing} (hf : f.Unfragmented)
    (htok : t = tlv.interest ∨ f.NoPitToken) (iwId : Nat) (fm : FragmentMap)
    (hmem : mem = f.wire (netPacketWire t n tail) ++ rest) (hfit : mem.length < 2 ^ 64) :
    ∃ off, mem.drop off = n.wireValue ++ (tail ++ rest) ∧
      (dcnReceivePacket cfg iwId fm mem (f.wire (netPacketWire t n tail)).length).map Prod.fst =
        (computeWorkerId cfg mem off n.wireValue.length).map fun w =>
          if w = dcnLocalhostPrefix then .declined
          else .enqueued (if t = tlv.interest then iwId else iwId + 1) w.toNat := by
  obtain ⟨off, hoff, hd⟩ := @dissect_framed cfg mem rest t ht n tail f hf fm hmem hfit
  refine ⟨off, hoff, ?_⟩
  have ht31 : t < 2147483648 := by rcases ht with rfl | rfl <;> decide
  unfold dcnReceivePacket
  rw [hd]
  cases hw : computeWorkerId cfg mem off n.wireValue.length with
  | error e => rfl
  | ok w =>
    have hidx : ({ f.vars t with worker := w } : DissectVars).index = 0 := (f.index_vars hf t).1
    have htok' : ({ f.vars t with worker := w } : DissectVars).packetType = tlv.interest ∨
        ({ f.vars t with worker := w } : DissectVars).pitToken = -1 := by
      rcases htok with h | h
      · exact .inl (by simp [h])
      · exact .inr (Framing.pitToken_vars h t)
    obtain ⟨fm', hfd⟩ := fragmentDispatch_first hidx htok' fm
    have hnn := computeWorkerId_nonneg hw
    simp only [Except.ok_bind', hfd, Bool.not_true, Bool.false_eq_true, false_and, if_false]
    by_cases hloc : w = dcnLocalhostPrefix
    · simp [hloc, Except.map]
    · simp [hloc, ht31, hnn, Except.map]

/-- The worker a framed packet without a PIT token is enqueued for is the worker of its name,
on the queue for its type. -/
theorem dispatch_framed_enqueued (hn : 0 < cfg.forwardingWorkers)
    (hk : 0 < cfg.prefixLength4Distribution) {t : Nat} (ht : t = tlv.interest ∨ t = tlv.data)
    (n : Name) (tail : List UInt8) {f : Framing} (hf : f.Unfragmented)
    (htok : t = tlv.interest ∨ f.NoPitToken) {iwId : Nat} {fm fm' : FragmentMap} {q w : Nat}
    (hmem : mem = f.wire (netPacketWire t n tail) ++ rest) (hfit : mem.length < 2 ^ 64)
    (h : dcnReceivePacket cfg iwId fm mem (f.wire (netPacketWire t n tail)).length =
      .ok (.enqueued q w, fm')) :
    q = (if t = tlv.interest then iwId else iwId + 1) ∧ w = (nameWorker cfg n).toNat := by
  obtain ⟨off, hoff, hd⟩ :=
    @dispatch_framed cfg mem rest t ht n tail f hf htok iwId fm hmem hfit
  rw [h, computeWorkerId_wireValue hn hk n hoff hfit] at hd
  cases hscan : localhostScan mem off (n.take cfg.prefixLength4Distribution) with
  | error e => rw [hscan] at hd; cases hd
  | ok hit =>
    rw [hscan] at hd
    cases hit
    · by_cases hloc : nameWorker cfg n = dcnLocalhostPrefix
      · simp [Except.map, hloc] at hd
      · simp only [Except.map, Bool.false_eq_true, if_false, if_neg hloc, Except.ok.injEq,
          Dispatch.enqueued.injEq] at hd
        exact hd
    · simp [Except.map] at hd

/-- The PIT token a Data carries decides its worker: the token's first octet, whatever the
name, `DCN_LOCALHOST_PREFIX` included. The name's localhost test still runs first, and can only
fault on memory. -/
theorem dispatch_data_pitToken {d : Data} {pre post : List LpHeader} {b : UInt8}
    {tok : List UInt8} (hf : (Framing.lp (pre ++ .pitToken (b :: tok) :: post)).Unfragmented)
    (hpost : ∀ h ∈ post, h.isPitToken = false) (iwId : Nat) (fm : FragmentMap)
    (hmem : mem = (Framing.lp (pre ++ .pitToken (b :: tok) :: post)).wire d.wireEncode ++ rest)
    (hfit : mem.length < 2 ^ 64) :
    ∃ off, mem.drop off = d.name.wireValue ++ (d.otherFields ++ rest) ∧
      (dcnReceivePacket cfg iwId fm mem
          ((Framing.lp (pre ++ .pitToken (b :: tok) :: post)).wire d.wireEncode).length).map
          Prod.fst =
        (computeWorkerId cfg mem off d.name.wireValue.length).map fun _ =>
          .enqueued (iwId + 1) b.toNat := by
  obtain ⟨off, hoff, hd⟩ :=
    @dissect_framed cfg mem rest tlv.data (.inr rfl) d.name d.otherFields
    _ hf fm hmem hfit
  refine ⟨off, hoff, ?_⟩
  -- the walk leaves the token's octet in `pitToken`, and no `FragCount` in `count`
  have htok : (Framing.vars tlv.data (.lp (pre ++ .pitToken (b :: tok) :: post))).pitToken =
      b.toNat := by
    simp only [Framing.vars, LpHeader.updateAll_append, LpHeader.updateAll_cons]
    rw [(LpHeader.pitToken_updateAll hpost _).1]
    rfl
  have hcount := (Framing.index_vars hf tlv.data).2
  have hb : (b.toNat : Int) ≠ dcnLocalhostPrefix := by
    have := b.toNat_lt
    unfold dcnLocalhostPrefix
    omega
  unfold dcnReceivePacket
  rw [show (Framing.lp (pre ++ .pitToken (b :: tok) :: post)).wire d.wireEncode =
    (Framing.lp (pre ++ .pitToken (b :: tok) :: post)).wire (netPacketWire tlv.data d.name
      d.otherFields) from rfl, hd]
  cases computeWorkerId cfg mem off d.name.wireValue.length with
  | error e => rfl
  | ok w =>
    have h65 : tlv.data ≠ tlv.interest := by decide
    have h31 : tlv.data < 2147483648 := by decide
    simp only [Except.ok_bind', fragmentDispatch, Framing.packetType_vars, htok, hcount]
    simp [hb, h65, h31, Except.map]

/-- The Data `/localhost` with a PIT token that starts with 200, and two workers: it goes to
worker 200 and not to the main thread. -/
theorem dispatch_localhost_data_pitToken :
    (dcnReceivePacket ⟨1, 2, by decide⟩ 0 ∅
      ((Framing.lp [.pitToken [200, 0]]).wire
        (Data.wireEncode ⟨[Component.generic localhostOctets], 10, []⟩) ++ [])
      ((Framing.lp [.pitToken [200, 0]]).wire
        (Data.wireEncode ⟨[Component.generic localhostOctets], 10, []⟩)).length).map Prod.fst =
      .ok (.enqueued 1 200) ∧
    ∃ off, ((Framing.lp [.pitToken [200, 0]]).wire
        (Data.wireEncode ⟨[Component.generic localhostOctets], 10, []⟩) ++ []).drop off =
        Name.wireValue [Component.generic localhostOctets] ++ ([] ++ []) ∧
      (dcnReceivePacket ⟨1, 2, by decide⟩ 0 ∅
        ((Framing.lp [.pitToken [200, 0]]).wire
          (Data.wireEncode ⟨[Component.generic localhostOctets], 10, []⟩) ++ [])
        ((Framing.lp [.pitToken [200, 0]]).wire
          (Data.wireEncode ⟨[Component.generic localhostOctets], 10, []⟩)).length).map
          Prod.fst =
        (computeWorkerId ⟨1, 2, by decide⟩ ((Framing.lp [.pitToken [200, 0]]).wire
          (Data.wireEncode ⟨[Component.generic localhostOctets], 10, []⟩) ++ []) off
          (Name.wireValue [Component.generic localhostOctets]).length).map fun _ =>
          .enqueued (0 + 1) (200 : UInt8).toNat :=
  ⟨by decide, @dispatch_data_pitToken ⟨1, 2, by decide⟩ _ [] _ [] [] 200 [0]
    (by intro h hm; simp at hm; subst hm; decide) (by simp) 0 ∅ rfl (by decide)⟩

end Framed

/-! ## An Interest and the Data that satisfies it -/

/-- An Interest and a Data that satisfies it, each arriving whole and shortest-encoded, the Data
without a PIT token, are enqueued for the same worker whenever both names have at least `k`
components or both have fewer. -/
theorem dispatch_same_worker_of_matchesData {cfg : DispatchConfig}
    (hn : 0 < cfg.forwardingWorkers) (hk : 0 < cfg.prefixLength4Distribution)
    {sha256 : List UInt8 → Sha256Digest} {i : Interest} {d : Data}
    (hmatch : i.matchesData sha256 d = true)
    (hlen : cfg.prefixLength4Distribution ≤ i.name.length ↔
      cfg.prefixLength4Distribution ≤ d.name.length)
    {fi fd : Framing} (hfi : fi.Unfragmented) (hfd : fd.Unfragmented) (htok : fd.NoPitToken)
    {memI memD restI restD : List UInt8} (hmemI : memI = fi.wire i.wireEncode ++ restI)
    (hmemD : memD = fd.wire d.wireEncode ++ restD) (hfitI : memI.length < 2 ^ 64)
    (hfitD : memD.length < 2 ^ 64) {iwI iwD qI qD wI wD : Nat} {fmI fmD fmI' fmD' : FragmentMap}
    (hI : dcnReceivePacket cfg iwI fmI memI (fi.wire i.wireEncode).length =
      .ok (.enqueued qI wI, fmI'))
    (hD : dcnReceivePacket cfg iwD fmD memD (fd.wire d.wireEncode).length =
      .ok (.enqueued qD wD, fmD')) :
    wI = wD := by
  rw [Interest.wireEncode_eq_netPacketWire] at hmemI hI
  rw [Data.wireEncode_eq_netPacketWire] at hmemD hD
  obtain ⟨-, hwI⟩ := dispatch_framed_enqueued hn hk (.inl rfl) i.name _ hfi (.inl rfl) hmemI
    hfitI hI
  obtain ⟨-, hwD⟩ := dispatch_framed_enqueued hn hk (.inr rfl) d.name _ hfd (.inr htok) hmemD
    hfitD hD
  rw [hwI, hwD, nameWorker_eq_of_take hlen (Interest.take_name_of_matchesData hmatch hlen)]

/-- `/a/b` asked for and answered, both bare, with `k = 2` and two workers. -/
theorem dispatch_same_worker_ab :
    dcnReceivePacket ⟨2, 2, by decide⟩ 0 ∅
        (Interest.wireEncode
          ⟨[Component.generic [0x61], Component.generic [0x62]], false, false, []⟩)
        10 = .ok (.enqueued 0 1, ∅) ∧
    dcnReceivePacket ⟨2, 2, by decide⟩ 0 ∅
        (Data.wireEncode ⟨[Component.generic [0x61], Component.generic [0x62]], 10, []⟩)
        10 = .ok (.enqueued 1 1, ∅) ∧ (1 : Nat) = 1 :=
  have hI : dcnReceivePacket ⟨2, 2, by decide⟩ 0 ∅
      (Interest.wireEncode
        ⟨[Component.generic [0x61], Component.generic [0x62]], false, false, []⟩)
      10 = .ok (.enqueued 0 1, ∅) := rfl
  have hD : dcnReceivePacket ⟨2, 2, by decide⟩ 0 ∅
      (Data.wireEncode ⟨[Component.generic [0x61], Component.generic [0x62]], 10, []⟩)
      10 = .ok (.enqueued 1 1, ∅) := rfl
  ⟨hI, hD, @dispatch_same_worker_of_matchesData ⟨2, 2, by decide⟩ (by decide)
    (by decide) (fun _ => ⟨List.replicate 32 0, rfl⟩) _ _ rfl (by decide) .bare .bare trivial
    trivial trivial
    _ _ [] [] (List.append_nil _).symm (List.append_nil _).symm (by decide) (by decide)
    0 0 0 1 1 1 ∅ ∅ ∅ ∅ hI hD⟩

/-- The dispatch is not a function of the decoded names. With `k = 2` and two workers, the
CanBePrefix Interest `/a` goes to worker 0 and the Data `/a/b` that satisfies it to worker 1.
With `k = 1`, the component `a` with its TLV-LENGTH written in three octets decodes to the same
name as its shortest encoding, and the Interest goes to the other worker. -/
theorem dispatch_worker_counterexample :
    (∀ sha256, (⟨[Component.generic [0x61]], true, false, []⟩ : Interest).matchesData sha256
      ⟨[Component.generic [0x61], Component.generic [0x62]], 10, []⟩ = true) ∧
    (dcnReceivePacket ⟨2, 2, by decide⟩ 0 ∅
      (Interest.wireEncode ⟨[Component.generic [0x61]], true, false, []⟩) 9).map Prod.fst =
        .ok (.enqueued 0 0) ∧
    (dcnReceivePacket ⟨2, 2, by decide⟩ 0 ∅
      (Data.wireEncode ⟨[Component.generic [0x61], Component.generic [0x62]], 10, []⟩) 10).map
        Prod.fst = .ok (.enqueued 1 1) ∧
    decodeName [0x08, 0xFD, 0x00, 0x01, 0x61] = decodeName [0x08, 0x01, 0x61] ∧
    (dcnReceivePacket ⟨1, 2, by decide⟩ 0 ∅
      (encodeTlv tlv.interest (encodeTlv tlv.name [0x08, 0x01, 0x61])) 7).map Prod.fst =
        .ok (.enqueued 0 0) ∧
    (dcnReceivePacket ⟨1, 2, by decide⟩ 0 ∅
      (encodeTlv tlv.interest (encodeTlv tlv.name [0x08, 0xFD, 0x00, 0x01, 0x61])) 9).map
        Prod.fst = .ok (.enqueued 0 1) :=
  ⟨fun _ => rfl, by decide, by decide, by decide, by decide, by decide⟩

end MwNfd
