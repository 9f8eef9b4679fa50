import MwNfd.Face.Agreement
import MwNfd.Face.Fragmenter

/-!
# A fragmented packet, reassembled (`lp-fragmenter.cpp`, `lp-reassembler.cpp`)

The fragments `LpFragmenter::fragmentPacket` makes of a packet, numbered by
`GenericLinkService::assignSequences`, reach an `LpReassembler` in any order, with copies of
them and packets of other messages between them. The reassembler keys a fragment by its endpoint
and `Sequence - FragIndex`, the first Sequence for all fragments of one packet, and holds the
fragments of a message until it has all of them.

* `lookup_receiveFragment_other`: a packet of another message leaves the message's entry as it
  is.
* `receiveFragment_held`: a copy of a fragment already held is dropped.
* `receiveRun_missing`: while one fragment has not come, no fragment completes the message.
* `fragments_reassembled_once`: the message is handed on once, on the first arrival of the last
  of its fragments, as the Block of the packet's Fragment and with the packet's header fields.

The reassembler hands on `Block(buf, size)` of the joined Fragments: the element at their front.
It is the whole network packet when the Fragment is one element, as a network packet is.
-/

namespace MwNfd

/-- `LpReassembler::receiveFragment` on each packet in turn, with the endpoint it came from: the
results, and the partial packets after. -/
def receiveRun (nMaxFragments : Nat) :
    PartialPackets → List (Nat × LpPacket) →
      List (Option (Block × List LpHeader)) × PartialPackets
  | pps, [] => ([], pps)
  | pps, (endpoint, pkt) :: ds =>
    let (r, pps) := receiveFragment nMaxFragments pps endpoint pkt.headers pkt.fragment
    let (rs, pps) := receiveRun nMaxFragments pps ds
    (r :: rs, pps)

/-- A packet that is no fragment of message `m` from `endpoint`: the reassembler keys it under
another endpoint or message identifier, or under none. -/
def OtherMessage (endpoint : Nat) (m : UInt64) (d : Nat × LpPacket) : Prop :=
  ∀ seq, lpSequence d.2.headers = some seq →
    (d.1, seq - ((lpFragIndex d.2.headers).getD 0).toUInt64) ≠ (endpoint, m)

/-- Fragment `i` as the reassembler stores it: its header fields and its Fragment. -/
def partsOf (frag : Nat → LpPacket) (i : Nat) : List LpHeader × List UInt8 :=
  ((frag i).headers, (frag i).fragment)

/-! ## Runs -/

theorem receiveRun_cons (nMax : Nat) (pps : PartialPackets) (endpoint : Nat) (pkt : LpPacket)
    (ds : List (Nat × LpPacket)) :
    receiveRun nMax pps ((endpoint, pkt) :: ds) =
      ((receiveFragment nMax pps endpoint pkt.headers pkt.fragment).1 ::
          (receiveRun nMax (receiveFragment nMax pps endpoint pkt.headers pkt.fragment).2 ds).1,
        (receiveRun nMax (receiveFragment nMax pps endpoint pkt.headers pkt.fragment).2 ds).2) :=
  rfl

theorem receiveRun_append (nMax : Nat) (ds₁ ds₂ : List (Nat × LpPacket)) :
    ∀ pps : PartialPackets, receiveRun nMax pps (ds₁ ++ ds₂) =
      ((receiveRun nMax pps ds₁).1 ++ (receiveRun nMax (receiveRun nMax pps ds₁).2 ds₂).1,
        (receiveRun nMax (receiveRun nMax pps ds₁).2 ds₂).2) := by
  induction ds₁ with
  | nil => intro pps; rfl
  | cons d ds₁ ih =>
    intro pps
    obtain ⟨endpoint, pkt⟩ := d
    rw [List.cons_append, receiveRun_cons, receiveRun_cons, ih]
    rfl

theorem length_receiveRun (nMax : Nat) (ds : List (Nat × LpPacket)) :
    ∀ pps : PartialPackets, (receiveRun nMax pps ds).1.length = ds.length := by
  induction ds with
  | nil => intro pps; rfl
  | cons d ds ih =>
    intro pps
    obtain ⟨endpoint, pkt⟩ := d
    rw [receiveRun_cons, List.length_cons, List.length_cons, ih]

/-! ## One packet -/

/-- A packet of another message: the reassembler answers it from its own entry, or not at all. -/
theorem lookup_receiveFragment_other {nMax endpoint : Nat} {m : UInt64} (pps : PartialPackets)
    {d : Nat × LpPacket} (hd : OtherMessage endpoint m d) :
    (receiveFragment nMax pps d.1 d.2.headers d.2.fragment).2.lookup (endpoint, m) =
      pps.lookup (endpoint, m) := by
  unfold receiveFragment
  dsimp only
  split_ifs
  · rfl
  · rfl
  · rfl
  · split
    · rfl
    · rename_i seq hseq
      -- the packet's key is another one
      have hkey := hd seq hseq
      split_ifs
      · rfl
      · rfl
      · -- the message it completes is erased, or kept where `Block` throws
        unfold completeMessage
        split
        · exact AList.lookup_erase_ne (Ne.symm hkey)
        · exact AList.lookup_insert_ne (Ne.symm hkey)
      · exact AList.lookup_insert_ne (Ne.symm hkey)

/-! ## The fragments of one message -/

/-- The reassembler holds the fragments `ks` of message `m` of `c` fragments from `endpoint`: its
entry under the message's key has them, or there is none and `ks` is empty. -/
structure Holding (endpoint : Nat) (m : UInt64) (c : Nat) (frag : Nat → LpPacket)
    (pps : PartialPackets) (ks : List Nat) : Prop where
  lookup : (pps.lookup (endpoint, m)).getD ⟨c, 0, List.replicate c none⟩ =
    PartialPacket.received c (partsOf frag) ks
  nodup : ks.Nodup
  lt : ∀ i ∈ ks, i < c

section Message

variable {nMax endpoint : Nat} {m : UInt64} {c : Nat} {frag : Nat → LpPacket}

theorem Holding.of_lookup_eq_none {pps : PartialPackets} (h : pps.lookup (endpoint, m) = none) :
    Holding endpoint m c frag pps [] :=
  ⟨by simp [h, PartialPacket.received, Slots.received_nil], List.nodup_nil, by simp⟩

/-- A packet that changes no entry but another message's leaves what is held. -/
theorem Holding.of_lookup_eq {pps pps' : PartialPackets} {ks : List Nat}
    (hh : Holding endpoint m c frag pps ks)
    (heq : pps'.lookup (endpoint, m) = pps.lookup (endpoint, m)) :
    Holding endpoint m c frag pps' ks :=
  ⟨heq ▸ hh.lookup, hh.nodup, hh.lt⟩

theorem Holding.insert {pps : PartialPackets} {ks : List Nat} {i : Nat}
    (hh : Holding endpoint m c frag pps ks) (hi : i < c) (hnew : i ∉ ks) :
    Holding endpoint m c frag
      (pps.insert (endpoint, m) (PartialPacket.received c (partsOf frag) (ks ++ [i])))
      (ks ++ [i]) := by
  refine ⟨by simp, List.nodup_append.mpr ⟨hh.nodup, List.nodup_singleton i, ?_⟩, ?_⟩
  · intro a ha b hb
    rw [List.mem_singleton] at hb
    intro hab
    rw [hab, hb] at ha
    exact hnew ha
  · intro a ha
    rcases List.mem_append.mp ha with ha | ha
    · exact hh.lt a ha
    · exact (List.mem_singleton.mp ha) ▸ hi

section Labelled

variable (hl : Labelled m c (partsOf frag))
include hl

/-- Fragments of the message carry their FragIndex, so different indices are different packets. -/
theorem eq_of_frag_eq {i i' : Nat} (hi : i < c) (hi' : i' < c) (h : frag i = frag i') :
    i = i' := by
  have h₁ := (hl i hi).1
  have h₂ := (hl i' hi').1
  simp only [partsOf] at h₁ h₂
  rw [h] at h₁
  exact Option.some.inj (h₁.symm.trans h₂)

/-- A fragment of the message is keyed under the message: `Sequence - FragIndex` is `m`. -/
theorem not_otherMessage {i : Nat} (hi : i < c) : ¬ OtherMessage endpoint m (endpoint, frag i) := by
  intro hother
  obtain ⟨hidx, -, hseq⟩ := hl i hi
  simp only [partsOf] at hidx hseq
  refine hother _ hseq ?_
  rw [hidx, Option.getD_some]
  simp

/-- A copy of a fragment the reassembler holds is dropped ("fragment already received"). -/
theorem receiveFragment_held (hc : 1 < c) (hmax : c ≤ nMax) {pps : PartialPackets}
    {ks : List Nat} (hh : Holding endpoint m c frag pps ks) {i : Nat} (hi : i ∈ ks) :
    receiveFragment nMax pps endpoint (frag i).headers (frag i).fragment = (none, pps) := by
  have hic := hh.lt i hi
  obtain ⟨hidx, hcount, hseq⟩ := hl i hic
  simp only [partsOf] at hidx hcount hseq
  have hkey : m + i.toUInt64 - i.toUInt64 = m := by simp
  unfold receiveFragment
  rw [hidx, hcount, Option.getD_some, Option.getD_some, if_neg (by omega), if_neg (by omega),
    if_neg (by omega), hseq]
  dsimp only
  rw [hkey, hh.lookup]
  -- slot `i` is filled
  have hslot : ((Slots.received c (partsOf frag) ks)[i]?.bind id).isSome = true := by
    simp [Slots.getElem?_received _ ks hic, hi]
  simp only [PartialPacket.received, ne_eq, not_true_eq_false, if_false, hslot, if_true]

/-- While fragment `j` has not come, the fragments of the message complete nothing: a copy of one
held is dropped, a new one is held, and a packet of another message leaves the entry. After
them the reassembler holds every fragment that came. -/
theorem receiveRun_missing (hc : 1 < c) (hmax : c ≤ nMax) {j : Nat} (hj : j < c)
    (ds : List (Nat × LpPacket)) :
    ∀ (pps : PartialPackets) (ks : List Nat), Holding endpoint m c frag pps ks → j ∉ ks →
      (∀ d ∈ ds, (∃ i < c, i ≠ j ∧ d = (endpoint, frag i)) ∨ OtherMessage endpoint m d) →
      (∀ x ∈ ds.zip (receiveRun nMax pps ds).1, (∃ i < c, x.1 = (endpoint, frag i)) →
        x.2 = none) ∧
      ∃ ks', Holding endpoint m c frag (receiveRun nMax pps ds).2 ks' ∧ j ∉ ks' ∧
        (∀ i ∈ ks, i ∈ ks') ∧ ∀ i < c, (endpoint, frag i) ∈ ds → i ∈ ks' := by
  induction ds with
  | nil =>
    intro pps ks hh hjks _
    exact ⟨by simp, ks, hh, hjks, fun _ h => h, by simp⟩
  | cons d ds ih =>
    intro pps ks hh hjks hds
    have hrest : ∀ d ∈ ds, (∃ i < c, i ≠ j ∧ d = (endpoint, frag i)) ∨
        OtherMessage endpoint m d := fun d hd => hds d (List.mem_cons_of_mem _ hd)
    obtain ⟨e, pkt⟩ := d
    rw [receiveRun_cons, List.zip_cons_cons, List.forall_mem_cons]
    rcases hds _ List.mem_cons_self with ⟨i, hi, hij, hd⟩ | hother
    · -- a fragment of the message
      obtain ⟨rfl, rfl⟩ := Prod.mk.inj hd
      by_cases hheld : i ∈ ks
      · -- a copy of one held: dropped
        rw [receiveFragment_held hl hc hmax hh hheld]
        obtain ⟨hnone, ks', hh', hjks', hsub, hall⟩ := ih pps ks hh hjks hrest
        refine ⟨⟨fun _ => rfl, hnone⟩, ks', hh', hjks', hsub, ?_⟩
        intro i' hi' hmem
        rcases List.mem_cons.mp hmem with heq | hmem
        · obtain rfl := eq_of_frag_eq hl hi' hi (Prod.mk.inj heq).2
          exact hsub i' hheld
        · exact hall i' hi' hmem
      · -- a new one, held as well: the message lacks fragment `j`
        have hlen : ks.length + 1 ≠ c := by
          have hle := Slots.length_lt_of_not_mem (hh.insert hi hheld).nodup
            (hh.insert hi hheld).lt hj (by simp [hjks, Ne.symm hij])
          rw [List.length_append, List.length_singleton] at hle
          omega
        obtain ⟨hidx, hcount, hseq⟩ := hl i hi
        have hstep := receiveFragment_received hc hmax hi hheld hidx hcount hseq hh.lookup
        rw [if_neg hlen] at hstep
        simp only [partsOf] at hstep
        rw [hstep]
        obtain ⟨hnone, ks', hh', hjks', hsub, hall⟩ := ih _ (ks ++ [i]) (hh.insert hi hheld)
          (by simp [hjks, Ne.symm hij]) hrest
        refine ⟨⟨fun _ => rfl, hnone⟩, ks', hh', hjks', fun i' h => hsub i' (by simp [h]), ?_⟩
        intro i' hi' hmem
        rcases List.mem_cons.mp hmem with heq | hmem
        · obtain rfl := eq_of_frag_eq hl hi' hi (Prod.mk.inj heq).2
          exact hsub i' (by simp)
        · exact hall i' hi' hmem
    · -- a packet of another message
      have hh₁ := hh.of_lookup_eq (@lookup_receiveFragment_other nMax endpoint m pps _ hother)
      obtain ⟨hnone, ks', hh', hjks', hsub, hall⟩ := ih _ ks hh₁ hjks hrest
      refine ⟨⟨?_, hnone⟩, ks', hh', hjks', hsub, ?_⟩
      · rintro ⟨i, hi, hd⟩
        have hd' : (e, pkt) = (endpoint, frag i) := hd
        exact absurd (hd' ▸ hother) (not_otherMessage hl hi)
      · intro i' hi' hmem
        rcases List.mem_cons.mp hmem with heq | hmem
        · exact absurd (heq ▸ hother) (not_otherMessage hl hi')
        · exact hall i' hi' hmem

/-- The fragments of a message of `c` fragments, received in any order from a reassembler that
held none of them: every fragment but `j` comes first, with copies and packets of other messages
between them, then `j`, and after it not every fragment comes again. The message's Fragments in
FragIndex order start with the element `netPkt`. The message is handed on once, when `j` comes:
as the Block `netPkt`, with the first fragment's fields. -/
theorem receiveRun_once (hc : 1 < c) (hmax : c ≤ nMax) {pps : PartialPackets}
    (hfresh : (endpoint, m) ∉ pps) {pre post : List (Nat × LpPacket)} {j i₀ : Nat}
    {netPkt : Block}
    (hblock : Block.ofBuffer ((List.range c).map fun i => (frag i).fragment).flatten = some netPkt)
    (hj : j < c) (hpre : ∀ i < c, i ≠ j → (endpoint, frag i) ∈ pre)
    (hnew : (endpoint, frag j) ∉ pre) (hi₀ : i₀ < c) (hpost : (endpoint, frag i₀) ∉ post)
    (hothers : ∀ d ∈ pre ++ post,
      (∃ i < c, d = (endpoint, frag i)) ∨ OtherMessage endpoint m d) :
    ∃ rsPre rsPost,
      (receiveRun nMax pps (pre ++ (endpoint, frag j) :: post)).1 =
        rsPre ++ some (netPkt, (frag 0).headers) :: rsPost ∧
      rsPre.length = pre.length ∧
      (∀ x ∈ pre.zip rsPre, (∃ i < c, x.1 = (endpoint, frag i)) → x.2 = none) ∧
      (∀ x ∈ post.zip rsPost, (∃ i < c, x.1 = (endpoint, frag i)) → x.2 = none) := by
  -- before `j`: the other fragments are held
  have hpre' : ∀ d ∈ pre, (∃ i < c, i ≠ j ∧ d = (endpoint, frag i)) ∨
      OtherMessage endpoint m d := by
    intro d hd
    rcases hothers d (List.mem_append_left _ hd) with ⟨i, hi, rfl⟩ | hother
    · exact .inl ⟨i, hi, fun hij => hnew (hij ▸ hd), rfl⟩
    · exact .inr hother
  obtain ⟨hnone₁, ks, hh, hjks, -, hall⟩ := receiveRun_missing hl hc hmax hj pre pps []
    (Holding.of_lookup_eq_none (AList.lookup_eq_none.mpr hfresh)) List.not_mem_nil hpre'
  have hlen : ks.length + 1 = c := Slots.length_add_one_of_forall_ne hh.nodup hh.lt hj hjks
    fun i hi hij => hall i hi (hpre i hi hij)
  -- `j` completes the message
  have hcomplete : ∀ i < c, i ∈ ks ++ [j] := by
    intro i hi
    by_cases hij : i = j
    · simp [hij]
    · exact List.mem_append_left _ (hall i hi (hpre i hi hij))
  obtain ⟨hidx, hcount, hseq⟩ := hl j hj
  have hdo : (PartialPacket.received c (partsOf frag) (ks ++ [j])).doReassembly = some netPkt := by
    rw [PartialPacket.doReassembly, PartialPacket.reassembled_received hcomplete]
    exact hblock
  have hstep := receiveFragment_received hc hmax hj hjks hidx hcount hseq hh.lookup
  rw [if_pos hlen, completeMessage, hdo,
    PartialPacket.firstPkt_received (by omega) (hcomplete 0 (by omega))] at hstep
  simp only [partsOf] at hstep
  -- after it: fragment `i₀` does not come again, so nothing completes
  have hpost' : ∀ d ∈ post, (∃ i < c, i ≠ i₀ ∧ d = (endpoint, frag i)) ∨
      OtherMessage endpoint m d := by
    intro d hd
    rcases hothers d (List.mem_append_right _ hd) with ⟨i, hi, rfl⟩ | hother
    · exact .inl ⟨i, hi, fun hii => hpost (hii ▸ hd), rfl⟩
    · exact .inr hother
  obtain ⟨hnone₂, -⟩ := receiveRun_missing hl hc hmax hi₀ post _ []
    (Holding.of_lookup_eq_none (AList.lookup_erase _ _)) List.not_mem_nil hpost'
  refine ⟨_, _, ?_, length_receiveRun nMax pre pps, hnone₁, hnone₂⟩
  rw [receiveRun_append, receiveRun_cons, hstep]

end Labelled

end Message

/-! ## The fragments of a packet -/

section Fragments

open LpFragmenter GenericLinkService

variable {packet : LpPacket} {ps : List (List UInt8)} {lastSeqNo : UInt64}

/-- Fragment `i` of a packet cut into `ps`, with its Sequence. -/
theorem getElem?_assignSequences_fragmentsOf (i : Nat) :
    (assignSequences lastSeqNo (fragmentsOf packet ps)).1[i]? = ps[i]?.map fun piece =>
      LpPacket.setSequence { (((if i = 0 then packet else ⟨[], []⟩).add (.fragIndex i)).add
        (.fragCount ps.length)) with fragment := piece } (lastSeqNo + i.toUInt64) := by
  rw [getElem?_assignSequences, getElem?_fragmentsOf, Option.map_map]
  rfl

theorem length_assignSequences_fragmentsOf :
    (assignSequences lastSeqNo (fragmentsOf packet ps)).1.length = ps.length := by
  simp [assignSequences, fragmentsOf]

/-- The fragments carry the FragIndex, FragCount and Sequence the reassembler keys them by. -/
theorem labelled_assignSequences_fragmentsOf (hidx : lpFragIndex packet.headers = none)
    (hcount : lpFragCount packet.headers = none) :
    Labelled lastSeqNo ps.length (partsOf fun i =>
      (assignSequences lastSeqNo (fragmentsOf packet ps)).1.getD i ⟨[], []⟩) := by
  intro i hi
  -- the packet the loop starts fragment `i` from has no FragIndex or FragCount
  have hx : lpFragIndex (if i = 0 then packet else ⟨[], []⟩).headers = none ∧
      lpFragCount (if i = 0 then packet else ⟨[], []⟩).headers = none := by
    split_ifs
    · exact ⟨hidx, hcount⟩
    · exact ⟨rfl, rfl⟩
  simp only [partsOf, List.getD_eq_getElem?_getD, getElem?_assignSequences_fragmentsOf,
    List.getElem?_eq_getElem hi, Option.map_some, Option.getD_some]
  refine ⟨?_, ?_, lpSequence_setSequence _ _⟩
  · rw [lpFragIndex_setSequence]
    exact lpFragIndex_add_add hx.1 i _
  · rw [lpFragCount_setSequence]
    exact lpFragCount_add_add hx.2 i _

theorem fragment_assignSequences_fragmentsOf {i : Nat} (hi : i < ps.length) :
    ((assignSequences lastSeqNo (fragmentsOf packet ps)).1.getD i ⟨[], []⟩).fragment = ps[i] := by
  simp only [List.getD_eq_getElem?_getD, getElem?_assignSequences_fragmentsOf,
    List.getElem?_eq_getElem hi, Option.map_some, Option.getD_some]
  rfl

/-- The first fragment keeps the packet's header fields, a Sequence apart. -/
theorem filter_sublist_assignSequences_fragmentsOf (hps : ps ≠ []) :
    (packet.headers.filter (·.tlvType ≠ lp.tlv.sequence)).Sublist
      ((assignSequences lastSeqNo (fragmentsOf packet ps)).1.getD 0 ⟨[], []⟩).headers := by
  obtain ⟨piece, rest, rfl⟩ := List.exists_cons_of_ne_nil hps
  simp only [List.getD_eq_getElem?_getD, getElem?_assignSequences_fragmentsOf,
    List.getElem?_cons_zero, Option.map_some, Option.getD_some, if_true]
  refine List.Sublist.trans (List.Sublist.filter _ ?_) (filter_sublist_setSequence _ _)
  exact (sublist_headers_add _ _).trans (sublist_headers_add _ _)

theorem getD_mem_assignSequences_fragmentsOf {i : Nat} (hi : i < ps.length) :
    (assignSequences lastSeqNo (fragmentsOf packet ps)).1.getD i ⟨[], []⟩ ∈
      (assignSequences lastSeqNo (fragmentsOf packet ps)).1 := by
  rw [← List.getElem_eq_getD]
  · exact List.getElem_mem _
  · rwa [length_assignSequences_fragmentsOf]

/-- The Fragments of the fragments, in FragIndex order, are the pieces. -/
theorem map_range_fragment_assignSequences_fragmentsOf :
    (List.range ps.length).map (fun i =>
      ((assignSequences lastSeqNo (fragmentsOf packet ps)).1.getD i ⟨[], []⟩).fragment) = ps := by
  apply List.ext_getElem (by simp)
  intro i _ hi
  rw [List.getElem_map, List.getElem_range, fragment_assignSequences_fragmentsOf hi]

theorem mem_assignSequences_fragmentsOf {f : LpPacket}
    (hf : f ∈ (assignSequences lastSeqNo (fragmentsOf packet ps)).1) :
    ∃ i < ps.length, f = (assignSequences lastSeqNo (fragmentsOf packet ps)).1.getD i ⟨[], []⟩ := by
  obtain ⟨i, hi, rfl⟩ := List.mem_iff_getElem.mp hf
  exact ⟨i, length_assignSequences_fragmentsOf ▸ hi, List.getElem_eq_getD _⟩

end Fragments

/-! ## The round trip -/

theorem fragments_reassembled_once {nMaxFragments mtu nMax endpoint : Nat} {packet : LpPacket}
    {frags fs : List LpPacket} {lastSeqNo : UInt64} {pps : PartialPackets} {last : LpPacket}
    {pre post : List (Nat × LpPacket)} {netPkt : Block}
    (hidx : lpFragIndex packet.headers = none) (hcount : lpFragCount packet.headers = none)
    (hblock : Block.ofBuffer packet.fragment = some netPkt)
    (hfrag : LpFragmenter.fragmentPacket nMaxFragments packet mtu = some frags)
    (hfs : (GenericLinkService.assignSequences lastSeqNo frags).1 = fs)
    (hmax : frags.length ≤ nMax) (hfresh : (endpoint, lastSeqNo) ∉ pps)
    (hlast : last ∈ fs) (hpre : ∀ f ∈ fs, f ≠ last → (endpoint, f) ∈ pre)
    (hnew : (endpoint, last) ∉ pre) (hpost : ∃ f ∈ fs, (endpoint, f) ∉ post)
    (hothers : ∀ d ∈ pre ++ post,
      (d.1 = endpoint ∧ d.2 ∈ fs) ∨ OtherMessage endpoint lastSeqNo d) :
    ∃ rsPre rsPost firstPkt,
      (receiveRun nMax pps (pre ++ (endpoint, last) :: post)).1 =
        rsPre ++ some (netPkt, firstPkt) :: rsPost ∧
      rsPre.length = pre.length ∧
      (∀ x ∈ pre.zip rsPre, x.1.1 = endpoint → x.1.2 ∈ fs → x.2 = none) ∧
      (∀ x ∈ post.zip rsPost, x.1.1 = endpoint → x.1.2 ∈ fs → x.2 = none) ∧
      (packet.headers.filter (·.tlvType ≠ lp.tlv.sequence)).Sublist firstPkt := by
  subst hfs
  rcases LpFragmenter.fragmentPacket_eq_some hfrag with rfl | ⟨ps, hk, hflat, rfl⟩
  · -- the fast path: one packet, which the reassembler hands on whole
    have hone : (GenericLinkService.assignSequences lastSeqNo [packet]).1 =
        [packet.setSequence (lastSeqNo + (0 : Nat).toUInt64)] := rfl
    rw [hone, List.mem_singleton] at hlast
    obtain ⟨f, hf, hpost⟩ := hpost
    rw [hone, List.mem_singleton] at hf
    subst hlast hf
    rw [hone]
    -- a run the packet does not come in hands nothing of it on
    have hout : ∀ (g : LpPacket) (ds : List (Nat × LpPacket))
        (rs : List (Option (Block × List LpHeader))),
        (endpoint, g) ∉ ds → ∀ x ∈ ds.zip rs, x.1.1 = endpoint → x.1.2 ∈ [g] → x.2 = none := by
      intro g ds rs hds x hx he hg
      have hx' : x.1 = (endpoint, g) := Prod.ext he (List.mem_singleton.mp hg)
      exact absurd (hx' ▸ (List.of_mem_zip hx).1) hds
    have hstep := receiveFragment_whole (Nat.lt_of_lt_of_le Nat.one_pos hmax)
      (receiveRun nMax pps pre).2 endpoint
      (show lpFragIndex (packet.setSequence (lastSeqNo + (0 : Nat).toUInt64)).headers = none by
        rw [LpFragmenter.lpFragIndex_setSequence, hidx])
      (show lpFragCount (packet.setSequence (lastSeqNo + (0 : Nat).toUInt64)).headers = none by
        rw [LpFragmenter.lpFragCount_setSequence, hcount])
      (packet.setSequence (lastSeqNo + (0 : Nat).toUInt64)).fragment
    refine ⟨(receiveRun nMax pps pre).1, (receiveRun nMax (receiveRun nMax pps pre).2 post).1,
      (packet.setSequence (lastSeqNo + (0 : Nat).toUInt64)).headers, ?_,
      length_receiveRun nMax pre pps, hout _ pre _ hnew, hout _ post _ hpost,
      LpFragmenter.filter_sublist_setSequence _ _⟩
    rw [receiveRun_append, receiveRun_cons, hstep]
    -- `setSequence` keeps the Fragment, whose Block is `netPkt`
    have hfragment : (packet.setSequence (lastSeqNo + (0 : Nat).toUInt64)).fragment =
        packet.fragment := rfl
    rw [hfragment, hblock]
    rfl
  · -- fragments of at least two pieces, each keyed under `lastSeqNo`
    have hl := @labelled_assignSequences_fragmentsOf packet ps lastSeqNo hidx hcount
    have hlen : (LpFragmenter.fragmentsOf packet ps).length = ps.length := by
      simp [LpFragmenter.fragmentsOf]
    rw [hlen] at hmax
    obtain ⟨j, hj, rfl⟩ := mem_assignSequences_fragmentsOf hlast
    obtain ⟨f₀, hf₀, hpost⟩ := hpost
    obtain ⟨i₀, hi₀, rfl⟩ := mem_assignSequences_fragmentsOf hf₀
    -- a packet of ours is fragment `i` for some `i`
    have hours : ∀ d : Nat × LpPacket, d.1 = endpoint →
        d.2 ∈ (GenericLinkService.assignSequences lastSeqNo (LpFragmenter.fragmentsOf packet ps)).1 →
        ∃ i < ps.length, d = (endpoint, (GenericLinkService.assignSequences lastSeqNo
          (LpFragmenter.fragmentsOf packet ps)).1.getD i ⟨[], []⟩) := by
      intro d he hd
      obtain ⟨i, hi, hfi⟩ := mem_assignSequences_fragmentsOf hd
      exact ⟨i, hi, Prod.ext he hfi⟩
    -- the pieces join into the packet's Fragment
    have hjoin : ((List.range ps.length).map fun i =>
        ((GenericLinkService.assignSequences lastSeqNo (LpFragmenter.fragmentsOf packet ps)).1.getD
          i ⟨[], []⟩).fragment).flatten = packet.fragment := by
      rw [map_range_fragment_assignSequences_fragmentsOf, hflat]
    obtain ⟨rsPre, rsPost, hrun, hlenPre, hnone₁, hnone₂⟩ := receiveRun_once hl hk hmax hfresh
      (hjoin ▸ hblock) hj
      (fun i hi hij => hpre _ (getD_mem_assignSequences_fragmentsOf hi)
        fun heq => hij (eq_of_frag_eq hl hi hj heq))
      hnew hi₀ hpost
      (fun d hd => (hothers d hd).imp (fun h => hours d h.1 h.2) id)
    refine ⟨rsPre, rsPost, _, ?_, hlenPre, fun x hx he hf => hnone₁ x hx (hours x.1 he hf),
      fun x hx he hf => hnone₂ x hx (hours x.1 he hf),
      @filter_sublist_assignSequences_fragmentsOf packet ps lastSeqNo
        (List.ne_nil_of_length_pos (by omega))⟩
    rw [hrun]

/-- The Interest of 55 octets `5 53 7 ... 7`, cut for an MTU of 80 into pieces of 30 and 25: the
second fragment comes before the first, and again after it. -/
theorem fragments_reassembled_once_dup :
    ∃ rsPre rsPost firstPkt,
      (receiveRun 2 ∅
          ([(0, (⟨[.sequence 1, .fragIndex 1, .fragCount 2], List.replicate 25 7⟩ : LpPacket))] ++
            (0, ⟨[.sequence 0, .fragIndex 0, .fragCount 2], [5, 53] ++ List.replicate 28 7⟩) ::
              [(0, ⟨[.sequence 1, .fragIndex 1, .fragCount 2], List.replicate 25 7⟩)])).1 =
        rsPre ++ some (⟨5, List.replicate 53 7, [5, 53] ++ List.replicate 53 7⟩, firstPkt) ::
          rsPost ∧
      rsPre.length = 1 ∧
      (∀ x ∈ [(0, (⟨[.sequence 1, .fragIndex 1, .fragCount 2], List.replicate 25 7⟩ :
          LpPacket))].zip rsPre, x.1.1 = 0 →
        x.1.2 ∈ [(⟨[.sequence 0, .fragIndex 0, .fragCount 2], [5, 53] ++ List.replicate 28 7⟩ :
            LpPacket), ⟨[.sequence 1, .fragIndex 1, .fragCount 2], List.replicate 25 7⟩] →
          x.2 = none) ∧
      (∀ x ∈ [(0, (⟨[.sequence 1, .fragIndex 1, .fragCount 2], List.replicate 25 7⟩ :
          LpPacket))].zip rsPost, x.1.1 = 0 →
        x.1.2 ∈ [(⟨[.sequence 0, .fragIndex 0, .fragCount 2], [5, 53] ++ List.replicate 28 7⟩ :
            LpPacket), ⟨[.sequence 1, .fragIndex 1, .fragCount 2], List.replicate 25 7⟩] →
          x.2 = none) ∧
      (([] : List LpHeader).filter (·.tlvType ≠ lp.tlv.sequence)).Sublist firstPkt := by
  have hfrag : LpFragmenter.fragmentPacket 2 ⟨[], [5, 53] ++ List.replicate 53 7⟩ 80 =
      some [⟨[.fragIndex 0, .fragCount 2], [5, 53] ++ List.replicate 28 7⟩,
        ⟨[.fragIndex 1, .fragCount 2], List.replicate 25 7⟩] := by
    simp [LpFragmenter.fragmentPacket, LpFragmenter.pieces, LpFragmenter.cut,
      LpFragmenter.maxSingleFragOverhead, LpFragmenter.maxFragOverhead, LpPacket.wireEncode,
      LpFragmenter.headersSize]
    decide
  exact fragments_reassembled_once rfl rfl (by decide) hfrag (by decide) (by decide)
    (show ((0 : Nat), (0 : UInt64)) ∉ (∅ : PartialPackets) by simp) (by decide) (by decide)
    (by decide) (by decide) fun d hd => .inl (by revert d; decide)

/-- A packet that fits whole is one fragment, which the reassembler hands on at once; a copy of
it is handed on again. -/
theorem fragment_copy_reassembled_twice :
    LpFragmenter.fragmentPacket 1 ⟨[], [5, 0]⟩ 100 = some [⟨[], [5, 0]⟩] ∧
      (GenericLinkService.assignSequences 0 [⟨[], [5, 0]⟩]).1 = [⟨[.sequence 0], [5, 0]⟩] ∧
      (receiveRun 1 ∅ [(0, ⟨[.sequence 0], [5, 0]⟩), (0, ⟨[.sequence 0], [5, 0]⟩)]).1 =
        [some (⟨5, [], [5, 0]⟩, [.sequence 0]), some (⟨5, [], [5, 0]⟩, [.sequence 0])] := by
  decide

end MwNfd
