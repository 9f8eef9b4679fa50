import MwNfd.Face.LinkService
import MwNfd.Lib.Slots

/-!
# Reassembly in the face's own link service (`lp-fragmenter.cpp`, `lp-reassembler.cpp`)

A link service that fragments a network packet (`LpFragmenter::fragmentPacket`) sends
`FragCount` LpPackets with FragIndex 0 to `FragCount - 1`, the first keeping the packet's other
header fields, and `assignSequences` numbers them with consecutive Sequences, so that
`Sequence - FragIndex` is the same for all of them. The receiving link service, with
reassembly on, collects them under that message identifier and the endpoint, and hands the
Block of the network packet on when the last one has come. Where the joined Fragments do not
start with a whole element, `Block` throws before the message is erased, so it stays.

* `receiveFragment_received`: one new fragment of a message being collected.
* `ownRun_received`: the fragments still to come, in any order, complete the message once.
* `ownRun_fragmentPacket`: the fragments of a network packet, in any order, deliver it once.
-/

namespace MwNfd

/-- Fragment `i` of the fragments `LpFragmenter::fragmentPacket` makes of a network packet cut
into `pieces`, numbered from the Sequence `m` by `assignSequences`; the first keeps the
packet's other header fields `others`. How the cuts follow from the MTU is not modelled. -/
def fragmentOf (m : UInt64) (others : List LpHeader) (pieces : List (List UInt8)) (i : Nat) :
    LinkFrame :=
  .lp ([.sequence (m + i.toUInt64), .fragIndex i, .fragCount pieces.length] ++
      if i = 0 then others else [])
    (some (pieces.getD i []))

/-- The fragments of a network packet cut into `pieces`, in the order they are sent. -/
def fragmentPacket (m : UInt64) (others : List LpHeader) (pieces : List (List UInt8)) :
    List LinkFrame :=
  (List.range pieces.length).map (fragmentOf m others pieces)

/-- The partial packet the reassembler holds for a message of `c` fragments once the fragments
`ks` have come, fragment `i` being the header fields and Fragment `frag i`. -/
def PartialPacket.received (c : Nat) (frag : Nat → List LpHeader × List UInt8) (ks : List Nat) :
    PartialPacket :=
  ⟨c, ks.length, Slots.received c frag ks⟩

/-- `frag` labels the fragments of message `m` of `c` fragments: fragment `i` carries the
FragIndex `i`, the FragCount `c` and the Sequence `m + i`. -/
def Labelled (m : UInt64) (c : Nat) (frag : Nat → List LpHeader × List UInt8) : Prop :=
  ∀ i < c, lpFragIndex (frag i).1 = some i ∧ lpFragCount (frag i).1 = some c ∧
    lpSequence (frag i).1 = some (m + i.toUInt64)

/-- Fragment `i` as the reassembler stores it: its header fields and its Fragment. -/
def fragmentParts (m : UInt64) (others : List LpHeader) (pieces : List (List UInt8)) (i : Nat) :
    List LpHeader × List UInt8 :=
  ((fragmentOf m others pieces i).headers, pieces.getD i [])

/-! ## One fragment -/

theorem fragmentOf_headers (m : UInt64) (others : List LpHeader) (pieces : List (List UInt8))
    (i : Nat) :
    lpFragIndex (fragmentOf m others pieces i).headers = some i ∧
      lpFragCount (fragmentOf m others pieces i).headers = some pieces.length ∧
      lpSequence (fragmentOf m others pieces i).headers = some (m + i.toUInt64) := by
  simp [fragmentOf, LinkFrame.headers, lpFragIndex, lpFragCount, lpSequence, List.findSome?]

theorem labelled_fragmentParts (m : UInt64) (others : List LpHeader) (pieces : List (List UInt8)) :
    Labelled m pieces.length (fragmentParts m others pieces) := by
  intro i _
  exact fragmentOf_headers m others pieces i

theorem map_range_fragmentParts (m : UInt64) (others : List LpHeader)
    (pieces : List (List UInt8)) :
    (List.range pieces.length).map (fun i => (fragmentParts m others pieces i).2) = pieces := by
  apply List.ext_getElem (by simp)
  intro i _ hi
  simp [fragmentParts, hi]

theorem fragmentParts_zero (m : UInt64) (others : List LpHeader) (pieces : List (List UInt8)) :
    (fragmentParts m others pieces 0).1 =
      [.sequence m, .fragIndex 0, .fragCount pieces.length] ++ others := by
  simp [fragmentParts, fragmentOf, LinkFrame.headers]

/-- Once every fragment has come, the message is the Fragments in FragIndex order. -/
theorem PartialPacket.reassembled_received {c : Nat} {frag : Nat → List LpHeader × List UInt8}
    {ks : List Nat} (h : ∀ i < c, i ∈ ks) :
    (PartialPacket.received c frag ks).reassembled =
      ((List.range c).map fun i => (frag i).2).flatten := by
  simp [PartialPacket.received, PartialPacket.reassembled, Slots.received_of_forall_mem frag h,
    Function.comp_def]

theorem PartialPacket.firstPkt_received {c : Nat} {frag : Nat → List LpHeader × List UInt8}
    {ks : List Nat} (hc : 0 < c) (h : 0 ∈ ks) :
    (PartialPacket.received c frag ks).firstPkt = (frag 0).1 := by
  simp [PartialPacket.received, PartialPacket.firstPkt, List.head?_eq_getElem?,
    Slots.getElem?_received frag ks hc, h]

/-- The partial packet of a message depends only on which fragments have come. -/
theorem PartialPacket.received_of_perm {c : Nat} {frag : Nat → List LpHeader × List UInt8}
    {ks : List Nat} (h : ks.Perm (List.range c)) :
    PartialPacket.received c frag ks = PartialPacket.received c frag (List.range c) := by
  simp only [PartialPacket.received, Slots.received, h.length_eq, h.mem_iff]

/-- A new fragment `i` of a message of `c` fragments, while the fragments `ks` have come: the
reassembler stores it, or, when it is the last, hands the Block of the message on and forgets
it, or keeps the complete message where `Block` throws. -/
theorem receiveFragment_received {nMax : Nat} {pps : PartialPackets} {endpoint : Nat}
    {m : UInt64} {c i : Nat} {frag : Nat → List LpHeader × List UInt8} {ks : List Nat}
    (hc : 1 < c) (hmax : c ≤ nMax) (hi : i < c) (hnew : i ∉ ks)
    (hidx : lpFragIndex (frag i).1 = some i) (hcount : lpFragCount (frag i).1 = some c)
    (hseq : lpSequence (frag i).1 = some (m + i.toUInt64))
    (hpp : (pps.lookup (endpoint, m)).getD ⟨c, 0, List.replicate c none⟩ =
      PartialPacket.received c frag ks) :
    receiveFragment nMax pps endpoint (frag i).1 (frag i).2 =
      if ks.length + 1 = c then
        completeMessage pps (endpoint, m) (PartialPacket.received c frag (ks ++ [i]))
      else (none, pps.insert (endpoint, m) (PartialPacket.received c frag (ks ++ [i]))) := by
  have hkey : m + i.toUInt64 - i.toUInt64 = m := by simp
  unfold receiveFragment
  rw [hidx, hcount, Option.getD_some, Option.getD_some, if_neg (by omega), if_neg (by omega),
    if_neg (by omega), hseq]
  dsimp only
  rw [hkey, hpp]
  -- the entry is the partial packet of the fragments `ks`, whose slot `i` is still empty
  have hslot : ((Slots.received c frag ks)[i]?.bind id).isSome = false := by
    simp [Slots.getElem?_received frag ks hi, hnew]
  simp only [PartialPacket.received, ne_eq, not_true_eq_false, if_false, hslot,
    Bool.false_eq_true, Prod.mk.eta, Slots.received_set, List.length_append,
    List.length_singleton]

/-- With reassembly on and reliability off, the face's own link service hands the fragment of an
LpPacket to the reassembler and decodes the message it completes. -/
theorem doReceivePacket_lp {opts : LinkServiceOptions} (hre : opts.allowReassembly = true)
    (hrel : opts.reliabilityEnabled = false) (st : LinkServiceState) (headers : List LpHeader)
    (fragment : List UInt8) (endpoint : Nat) :
    doReceivePacket opts st (.lp headers (some fragment)) endpoint =
      ((receiveFragment opts.nMaxFragments st.partialPackets endpoint headers fragment).1.bind
          fun msg => decodeNetPacket opts msg.1 msg.2 endpoint,
        { st with partialPackets := (receiveFragment opts.nMaxFragments st.partialPackets endpoint
            headers fragment).2 }) := by
  simp only [doReceivePacket, hrel, hre, LinkFrame.headers, LinkFrame.fragment,
    Bool.false_eq_true, if_false, Bool.not_true, and_false]
  cases receiveFragment opts.nMaxFragments st.partialPackets endpoint headers fragment with
  | mk msg pps => cases msg <;> rfl

/-! ## A whole message -/

section Run

variable {opts : LinkServiceOptions} {endpoint : Nat} {m : UInt64} {c : Nat}
  {frag : Nat → List LpHeader × List UInt8}

/-- The reassembler's table while the fragments `ks` of message `m` have come, from a table `pps`
that did not hold it. -/
def collecting (pps : PartialPackets) (endpoint : Nat) (m : UInt64) (c : Nat)
    (frag : Nat → List LpHeader × List UInt8) (ks : List Nat) : PartialPackets :=
  if ks = [] then pps else pps.insert (endpoint, m) (PartialPacket.received c frag ks)

theorem lookup_collecting {pps : PartialPackets} (hfresh : (endpoint, m) ∉ pps) (ks : List Nat) :
    ((collecting pps endpoint m c frag ks).lookup (endpoint, m)).getD
        ⟨c, 0, List.replicate c none⟩ =
      PartialPacket.received c frag ks := by
  by_cases hks : ks = []
  · subst hks
    simp [collecting, AList.lookup_eq_none.mpr hfresh, PartialPacket.received, Slots.received_nil]
  · simp [collecting, hks]

theorem insert_collecting (pps : PartialPackets) (ks : List Nat) (i : Nat) :
    (collecting pps endpoint m c frag ks).insert (endpoint, m)
        (PartialPacket.received c frag (ks ++ [i])) =
      collecting pps endpoint m c frag (ks ++ [i]) := by
  by_cases hks : ks = []
  · simp [collecting, hks]
  · simp [collecting, hks, AList.insert_insert]

theorem erase_collecting {pps : PartialPackets} (hfresh : (endpoint, m) ∉ pps) (ks : List Nat) :
    (collecting pps endpoint m c frag ks).erase (endpoint, m) = pps := by
  by_cases hks : ks = []
  · simp only [collecting, hks, if_true]
    exact AList.erase_of_notMem hfresh
  · simp only [collecting, hks, if_false]
    exact AList.erase_insert_of_notMem _ hfresh

/-- What the face's own link service ends with once every fragment of message `m` has come:
the decoded Block of the message, with the table as it was, or, where `Block` throws, nothing,
with the table keeping the complete message. -/
def completeRun (opts : LinkServiceOptions) (endpoint : Nat) (st : LinkServiceState) (m : UInt64)
    (c : Nat) (frag : Nat → List LpHeader × List UInt8) : List Delivery × LinkServiceState :=
  match Block.ofBuffer ((List.range c).map fun i => (frag i).2).flatten with
  | some netPkt => ((decodeNetPacket opts netPkt (frag 0).1 endpoint).toList, st)
  | none => ([], { st with
      partialPackets := collecting st.partialPackets endpoint m c frag (List.range c) })

/-- Once every fragment has come, the table holds the complete message, whatever the order. -/
theorem collecting_of_perm (pps : PartialPackets) {ks : List Nat} (hc : 0 < c)
    (h : ks.Perm (List.range c)) :
    collecting pps endpoint m c frag ks = collecting pps endpoint m c frag (List.range c) := by
  have hne : ∀ {l : List Nat}, l.Perm (List.range c) → l ≠ [] := fun hl hnil => by
    have := hl.length_eq
    simp [hnil] at this
    omega
  simp only [collecting, if_neg (hne h), if_neg (hne (List.Perm.refl _)),
    PartialPacket.received_of_perm h]

/-- The fragments `js` still to come of a message whose fragments `ks` have come, in any order:
the last one completes the message. Where its Fragments start with an element, the Block is
decoded once and the table is left as it was; where `Block` throws, nothing is decoded and the
table keeps the complete message. -/
theorem ownRun_received (hre : opts.allowReassembly = true) (hrel : opts.reliabilityEnabled = false)
    (hc : 1 < c) (hmax : c ≤ opts.nMaxFragments) (hl : Labelled m c frag) (st : LinkServiceState)
    (hfresh : (endpoint, m) ∉ st.partialPackets) (js : List Nat) :
    ∀ ks : List Nat, js ≠ [] → (ks ++ js).Perm (List.range c) →
      ownRun opts endpoint
          { st with partialPackets := collecting st.partialPackets endpoint m c frag ks }
          (js.map fun i => .lp (frag i).1 (some (frag i).2)) =
        completeRun opts endpoint st m c frag := by
  induction js with
  | nil => intro ks h; exact absurd rfl h
  | cons j js ih =>
    intro ks _ hperm
    have hmem : ∀ i, i ∈ ks ++ j :: js ↔ i < c := fun i => by
      rw [hperm.mem_iff, List.mem_range]
    have hj : j < c := (hmem j).mp (by simp)
    have hnew : j ∉ ks := by
      have hnd := hperm.nodup_iff.mpr List.nodup_range
      simp only [List.nodup_append, List.nodup_cons] at hnd
      exact fun hk => hnd.2.2 j hk j (by simp) rfl
    have hlen : ks.length + 1 + js.length = c := by
      simpa [Nat.add_comm, Nat.add_left_comm] using hperm.length_eq
    obtain ⟨hidx, hcount, hseq⟩ := hl j hj
    rw [List.map_cons, ownRun, doReceivePacket_lp hre hrel,
      receiveFragment_received hc hmax hj hnew hidx hcount hseq (lookup_collecting hfresh ks)]
    cases js with
    | nil =>
      -- the last fragment: the message is complete
      have hall : ∀ i < c, i ∈ ks ++ [j] := fun i hi => (hmem i).mpr hi
      have hfirst : (PartialPacket.received c frag (ks ++ [j])).firstPkt = (frag 0).1 :=
        PartialPacket.firstPkt_received (by omega) (hall 0 (by omega))
      have hblock : (PartialPacket.received c frag (ks ++ [j])).doReassembly =
          Block.ofBuffer ((List.range c).map fun i => (frag i).2).flatten := by
        rw [PartialPacket.doReassembly, PartialPacket.reassembled_received hall]
      rw [if_pos (by simpa using hlen), completeMessage, completeRun, hblock]
      cases Block.ofBuffer ((List.range c).map fun i => (frag i).2).flatten with
      | some netPkt =>
        -- its Block is decoded, and the message leaves the table
        simp [ownRun, erase_collecting hfresh, hfirst]
      | none =>
        -- `Block` throws: the complete message stays in the table
        simp only [Option.bind_none, Option.toList_none, List.nil_append]
        rw [insert_collecting, collecting_of_perm _ (by omega) (by simpa using hperm)]
        rfl
    | cons j' js =>
      rw [if_neg (by simp at hlen; omega)]
      simp only [Option.bind_none, Option.toList_none, List.nil_append]
      rw [insert_collecting]
      exact ih (ks ++ [j]) (by simp) (by simpa using hperm)

theorem collecting_nil (pps : PartialPackets) :
    collecting pps endpoint m c frag [] = pps := by
  simp [collecting]

end Run

/-- The fragments of a network packet, received in any order by a link service with reassembly on
and reliability off. Where the pieces joined in FragIndex order start with an element, its Block
is decoded once, with the first fragment's header fields, and the reassembler is left as it was.
Where they do not, `Block` throws: nothing is decoded, and the reassembler keeps the complete
message. -/
theorem ownRun_fragmentPacket {opts : LinkServiceOptions} (hre : opts.allowReassembly = true)
    (hrel : opts.reliabilityEnabled = false) {m : UInt64} {others : List LpHeader}
    {pieces : List (List UInt8)} {endpoint : Nat} (hc : 1 < pieces.length)
    (hmax : pieces.length ≤ opts.nMaxFragments) (st : LinkServiceState)
    (hfresh : (endpoint, m) ∉ st.partialPackets) {order : List Nat}
    (horder : order.Perm (List.range pieces.length)) :
    (∀ netPkt, Block.ofBuffer pieces.flatten = some netPkt →
      ownRun opts endpoint st (order.map (fragmentOf m others pieces)) =
        ((decodeNetPacket opts netPkt
          ([.sequence m, .fragIndex 0, .fragCount pieces.length] ++ others) endpoint).toList,
          st)) ∧
    (Block.ofBuffer pieces.flatten = none →
      ownRun opts endpoint st (order.map (fragmentOf m others pieces)) =
        ([], { st with
          partialPackets := st.partialPackets.insert (endpoint, m)
            (PartialPacket.received pieces.length (fragmentParts m others pieces)
              (List.range pieces.length)) })) := by
  have hne : order ≠ [] := by
    rintro rfl
    have := horder.length_eq
    simp at this
    omega
  have hrun := ownRun_received hre hrel hc hmax (labelled_fragmentParts m others pieces) st hfresh
    order [] hne (by simpa using horder)
  have hcol : collecting st.partialPackets endpoint m pieces.length (fragmentParts m others pieces)
      (List.range pieces.length) = st.partialPackets.insert (endpoint, m)
        (PartialPacket.received pieces.length (fragmentParts m others pieces)
          (List.range pieces.length)) :=
    if_neg (List.ne_nil_of_length_pos (by rw [List.length_range]; omega))
  rw [collecting_nil, completeRun, map_range_fragmentParts, fragmentParts_zero, hcol] at hrun
  constructor
  · intro netPkt hblock
    rw [hblock] at hrun
    exact hrun
  · intro hblock
    rw [hblock] at hrun
    exact hrun

/-- The Interest `/a` with a Nonce, cut in two and received second piece first on a UDP face. -/
theorem ownRun_fragmentPacket_swapped :
    ownRun (udpChannelOptions false) 0 LinkServiceState.init
        ([1, 0].map (fragmentOf 100 [] [[5, 11, 7, 3, 8, 1, 97], [10, 4, 1, 2, 3, 4]])) =
      ([⟨.interest, [5, 11, 7, 3, 8, 1, 97, 10, 4, 1, 2, 3, 4], [], 0⟩],
        LinkServiceState.init) := by
  rw [(ownRun_fragmentPacket rfl rfl (by decide) (by decide) LinkServiceState.init (by decide)
    (by decide)).1 ⟨5, [7, 3, 8, 1, 97, 10, 4, 1, 2, 3, 4], [5, 11, 7, 3, 8, 1, 97, 10, 4, 1, 2, 3,
      4]⟩ rfl]
  rfl

end MwNfd
