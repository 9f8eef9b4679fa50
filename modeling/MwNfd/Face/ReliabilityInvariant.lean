import MwNfd.Face.Reliability

/-!
# The bookkeeping invariant of `LpReliability`

`State.Inv` is what the send window keeps from call to call while TxSequences do not wrap: the
map is sorted, every key is below the count of TxSequences given out, and the window starts at the
least key (`m_firstUnackedFrag` is `end()` exactly when the map is empty); every entry has a
NetPkt, and a NetPkt with an entry holds the iterators of exactly its entries; no entry has been
sent again more than `maxRetx` times; and no Interest reported dropped has an entry left.

The map changes in two ways only: entries go (`Inv.restrict`), or an entry goes in last under the
next TxSequence (`Inv.push`). Each function is one or two of these, so each keeps the invariant or
stops at the wrap (`step_post`), and the invariant holds in every reachable state
(`Inv.of_reachable`). From such a state no step fails but at the wrap; in particular
`onLpPacketLost` is called only for a TxSequence in the map, since the loop over the lost
TxSequences of an Ack skips those an earlier loss removed (`onLostLpPackets_post`).

* `bookkeeping_invariant`: the invariant in the terms of the source, over every run.
-/

namespace MwNfd

namespace Reliability

open SortedMap

/-- The TxSequences of the entries of the NetPkt named `n`, in map order. -/
def fragsOf (m : List (UInt64 × UnackedFrag)) (n : Nat) : List UInt64 :=
  keys (m.filter fun e => e.2.netPkt == some n)

/-- The iterators the NetPkt named `n` holds; none if there is no such NetPkt. -/
def netPktFrags (ps : List NetPkt) (n : Nat) : List UInt64 :=
  ((ps[n]?).map (·.unackedFrags)).getD []

section FragsOf

variable {m m' : List (UInt64 × UnackedFrag)} {n n' : Nat}

theorem mem_fragsOf {k : UInt64} : k ∈ fragsOf m n ↔ ∃ f, (k, f) ∈ m ∧ f.netPkt = some n := by
  simp [fragsOf, mem_keys]

theorem fragsOf_eq_nil : fragsOf m n = [] ↔ ∀ e ∈ m, e.2.netPkt ≠ some n := by
  simp [fragsOf, keys, List.filter_eq_nil_iff]

theorem fragsOf_filter (q : UInt64 → Bool) :
    fragsOf (m.filter fun e => q e.1) n = (fragsOf m n).filter q := by
  simp only [fragsOf, keys, List.filter_map, List.filter_filter]
  congr 1
  apply List.filter_congr
  intro e _
  exact Bool.and_comm _ _

theorem fragsOf_erase (k : UInt64) : fragsOf (erase m k) n = (fragsOf m n).filter (· != k) :=
  fragsOf_filter (· != k)

theorem fragsOf_append_single (k : UInt64) (f : UnackedFrag) :
    fragsOf (m ++ [(k, f)]) n = fragsOf m n ++ if f.netPkt = some n then [k] else [] := by
  by_cases h : f.netPkt = some n <;> simp [fragsOf, List.filter_append, h]

theorem fragsOf_map_val (g : UInt64 × UnackedFrag → UnackedFrag)
    (hg : ∀ e : UInt64 × UnackedFrag, (g e).netPkt = e.2.netPkt) :
    fragsOf (m.map fun e => (e.1, g e)) n = fragsOf m n := by
  simp only [fragsOf, List.filter_map, Function.comp_def, hg, keys_map_val]

/-- Dropping the entries of one NetPkt leaves the others' alone. -/
theorem fragsOf_filter_netPkt :
    fragsOf (m.filter fun e => e.2.netPkt != some n) n' = if n' = n then [] else fragsOf m n' := by
  by_cases h : n' = n
  · subst h
    simp [fragsOf, keys, List.filter_filter, bne]
  · simp only [fragsOf, List.filter_filter, if_neg h]
    congr 1
    apply List.filter_congr
    intro e _
    by_cases he : e.2.netPkt = some n' <;> simp [he, h]

theorem fragsOf_ne_nil {k : UInt64} {f : UnackedFrag} (he : (k, f) ∈ m) (hf : f.netPkt = some n) :
    fragsOf m n ≠ [] :=
  List.ne_nil_of_mem (mem_fragsOf.mpr ⟨f, he, hf⟩)

theorem fragsOf_sublist (h : m'.Sublist m) (n : Nat) : (fragsOf m' n).Sublist (fragsOf m n) :=
  (h.filter _).map _

theorem nodup_fragsOf (h : Sorted m) (n : Nat) : (fragsOf m n).Nodup :=
  (h.sublist List.filter_sublist).nodup_keys

/-- A key has one entry, so the key of an entry of another NetPkt is none of this one's. -/
theorem not_mem_fragsOf (h : Sorted m) {k : UInt64} {f : UnackedFrag} (he : (k, f) ∈ m)
    (hf : f.netPkt = some n') (hne : n ≠ n') : k ∉ fragsOf m n := by
  rw [mem_fragsOf]
  rintro ⟨f', hf', hn⟩
  rw [h.eq_of_mem he hf', hn] at hf
  exact hne (Option.some.inj hf)

theorem fragsOf_erase_of_ne (h : Sorted m) {k : UInt64} {f : UnackedFrag}
    (he : (k, f) ∈ m) (hf : f.netPkt = some n') (hne : n ≠ n') :
    fragsOf (erase m k) n = fragsOf m n := by
  rw [fragsOf_erase]
  refine List.filter_eq_self.mpr fun k' hk' => ?_
  have hne' : k' ≠ k := fun heq => not_mem_fragsOf h he hf hne (heq ▸ hk')
  simpa using hne'

end FragsOf

section NetPktFrags

variable {ps : List NetPkt} {n n' : Nat}

theorem netPktFrags_of_getElem? {p : NetPkt} (h : ps[n]? = some p) :
    netPktFrags ps n = p.unackedFrags := by
  simp [netPktFrags, h]

theorem netPktFrags_modify_self {p : NetPkt} (h : ps[n]? = some p) (g : NetPkt → NetPkt) :
    netPktFrags (ps.modify n g) n = (g p).unackedFrags := by
  simp [netPktFrags, h]

theorem netPktFrags_modify_of_ne (h : n' ≠ n) (g : NetPkt → NetPkt) :
    netPktFrags (ps.modify n g) n' = netPktFrags ps n' := by
  simp [netPktFrags, Ne.symm h]

theorem netPktFrags_modify_of_lt (h : n < ps.length) (g : NetPkt → NetPkt) :
    netPktFrags (ps.modify n g) n = (g ps[n]).unackedFrags :=
  netPktFrags_modify_self (List.getElem?_eq_getElem h) g

theorem netPktFrags_of_lt (h : n < ps.length) : netPktFrags ps n = ps[n].unackedFrags :=
  netPktFrags_of_getElem? (List.getElem?_eq_getElem h)

theorem netPktFrags_append_of_lt (h : n < ps.length) (p : NetPkt) :
    netPktFrags (ps ++ [p]) n = netPktFrags ps n := by
  simp [netPktFrags, List.getElem?_append_left h]

end NetPktFrags

namespace State

/-- The bookkeeping invariant of the send window. -/
structure Inv (o : Options) (s : State) : Prop where
  sorted : Sorted s.unackedFrags
  first : s.firstUnackedFrag = first? s.unackedFrags
  lt_assigned : ∀ k ∈ keys s.unackedFrags, k.toNat < s.nAssigned
  assigned_le : s.nAssigned ≤ 2 ^ 64
  counter : s.lastTxSeqNo + 1 = UInt64.ofNat s.nAssigned
  netPkt_lt : ∀ e ∈ s.unackedFrags, ∃ n < s.netPkts.length, e.2.netPkt = some n
  frags : ∀ n, fragsOf s.unackedFrags n ≠ [] →
    (netPktFrags s.netPkts n).Perm (fragsOf s.unackedFrags n)
  retx_le : ∀ e ∈ s.unackedFrags, e.2.retxCount ≤ o.maxRetx
  dropped_lt : ∀ n ∈ s.droppedInterests, n < s.netPkts.length
  dropped_nodup : s.droppedInterests.Nodup
  dropped_gone : ∀ n ∈ s.droppedInterests, fragsOf s.unackedFrags n = []

theorem inv_init (o : Options) : init.Inv o where
  sorted := List.Pairwise.nil
  first := rfl
  lt_assigned := by simp [init]
  assigned_le := by simp [init]
  counter := by decide
  netPkt_lt := by simp [init]
  frags := by simp [init, fragsOf]
  retx_le := by simp [init]
  dropped_lt := by simp [init]
  dropped_nodup := List.nodup_nil
  dropped_gone := by simp [init]

section Writes

variable {o : Options} {s : State}

/-- The TxSequence the counter gives out next is above every key. -/
theorem Inv.lt_next (hi : s.Inv o) (hw : s.nAssigned < 2 ^ 64) :
    ∀ k ∈ keys s.unackedFrags, k < UInt64.ofNat s.nAssigned := by
  intro k hk
  rw [UInt64.lt_iff_toNat_lt, toNat_ofNat_of_lt hw]
  exact hi.lt_assigned k hk

/-- An entry's NetPkt exists, and its iterators are its entries'. -/
theorem Inv.entry (hi : s.Inv o) {k : UInt64} {f : UnackedFrag} (he : (k, f) ∈ s.unackedFrags) :
    ∃ n p, f.netPkt = some n ∧ s.netPkts[n]? = some p ∧
      p.unackedFrags.Perm (fragsOf s.unackedFrags n) ∧ k ∈ fragsOf s.unackedFrags n := by
  obtain ⟨n, hn, hf⟩ := hi.netPkt_lt _ he
  have hk : k ∈ fragsOf s.unackedFrags n := mem_fragsOf.mpr ⟨f, he, hf⟩
  have hp : s.netPkts[n]? = some s.netPkts[n] := List.getElem?_eq_getElem hn
  refine ⟨n, s.netPkts[n], hf, hp, ?_, hk⟩
  rw [← netPktFrags_of_getElem? hp]
  exact hi.frags n (List.ne_nil_of_mem hk)

theorem Inv.netPkt_lt_of_mem (hi : s.Inv o) {e : UInt64 × UnackedFrag} {n : Nat}
    (he : e ∈ s.unackedFrags) (hf : e.2.netPkt = some n) : n < s.netPkts.length := by
  obtain ⟨n', hn', hf'⟩ := hi.netPkt_lt e he
  rw [hf, Option.some.injEq] at hf'
  exact hf' ▸ hn'

theorem Inv.next_not_mem (hi : s.Inv o) (hw : s.nAssigned < 2 ^ 64) :
    UInt64.ofNat s.nAssigned ∉ keys s.unackedFrags :=
  fun h => ne_of_lt' (hi.lt_next hw _ h) rfl

/-- A write to the NetPkt `n` that leaves the entries of the NetPkt `n'` alone keeps its
iterators. -/
theorem Inv.frags_of_ne (hi : s.Inv o) {m : List (UInt64 × UnackedFrag)} {n n' : Nat}
    (h : n' ≠ n) (hm : fragsOf m n' = fragsOf s.unackedFrags n') (g : NetPkt → NetPkt)
    (hn' : fragsOf m n' ≠ []) : (netPktFrags (s.netPkts.modify n g) n').Perm (fragsOf m n') := by
  rw [hm] at hn' ⊢
  rw [netPktFrags_modify_of_ne h]
  exact hi.frags n' hn'

theorem Inv.gone_of_sublist (hi : s.Inv o) {m : List (UInt64 × UnackedFrag)}
    (hsub : m.Sublist s.unackedFrags) : ∀ n ∈ s.droppedInterests, fragsOf m n = [] := by
  intro n hn
  have h := fragsOf_sublist hsub n
  rw [hi.dropped_gone n hn] at h
  exact List.sublist_nil.mp h

/-- Values changed in place, with their NetPkt and retransmission count. -/
theorem Inv.mapVal (hi : s.Inv o) (g : UInt64 × UnackedFrag → UnackedFrag)
    (hn : ∀ e : UInt64 × UnackedFrag, (g e).netPkt = e.2.netPkt)
    (hr : ∀ e : UInt64 × UnackedFrag, (g e).retxCount = e.2.retxCount) :
    { s with unackedFrags := s.unackedFrags.map fun e : UInt64 × UnackedFrag => (e.1, g e) }.Inv o
    where
  sorted := hi.sorted.map_val g
  first := by simpa using hi.first
  lt_assigned := by simpa using hi.lt_assigned
  assigned_le := hi.assigned_le
  counter := hi.counter
  netPkt_lt := by
    simp only [List.mem_map]
    rintro _ ⟨e, he, rfl⟩
    simpa [hn] using hi.netPkt_lt e he
  frags := by simpa [fragsOf_map_val g hn] using hi.frags
  retx_le := by
    simp only [List.mem_map]
    rintro _ ⟨e, he, rfl⟩
    simpa [hr] using hi.retx_le e he
  dropped_lt := hi.dropped_lt
  dropped_nodup := hi.dropped_nodup
  dropped_gone := by simpa [fragsOf_map_val g hn] using hi.dropped_gone

/-- Entries gone: the invariant holds again once the NetPkts and the dropped Interests agree with
the entries left. -/
theorem Inv.restrict (hi : s.Inv o) {m : List (UInt64 × UnackedFrag)}
    (hsub : m.Sublist s.unackedFrags) {ps : List NetPkt} (hlen : ps.length = s.netPkts.length)
    (hfrags : ∀ n, fragsOf m n ≠ [] → (netPktFrags ps n).Perm (fragsOf m n))
    {d : List Nat} (hd_lt : ∀ n ∈ d, n < s.netPkts.length) (hd_nodup : d.Nodup)
    (hd_gone : ∀ n ∈ d, fragsOf m n = []) :
    { s with
      unackedFrags := m
      firstUnackedFrag := first? m
      netPkts := ps
      droppedInterests := d }.Inv o where
  sorted := hi.sorted.sublist hsub
  first := rfl
  lt_assigned := fun k hk => hi.lt_assigned k ((hsub.map Prod.fst).subset hk)
  assigned_le := hi.assigned_le
  counter := hi.counter
  netPkt_lt := fun e he => hlen ▸ hi.netPkt_lt e (hsub.subset he)
  frags := hfrags
  retx_le := fun e he => hi.retx_le e (hsub.subset he)
  dropped_lt := hlen ▸ hd_lt
  dropped_nodup := hd_nodup
  dropped_gone := hd_gone

/-- An entry of a live NetPkt goes in last, under the next TxSequence, and its iterator last in
the NetPkt. -/
theorem Inv.push (hi : s.Inv o) (hw : s.nAssigned < 2 ^ 64) (f : UnackedFrag) {n : Nat}
    (hn : f.netPkt = some n) (hnl : n < s.netPkts.length) (hnd : n ∉ s.droppedInterests)
    (hr : f.retxCount ≤ o.maxRetx)
    (hperm : (netPktFrags s.netPkts n).Perm (fragsOf s.unackedFrags n)) :
    { s with
      lastTxSeqNo := UInt64.ofNat s.nAssigned
      nAssigned := s.nAssigned + 1
      unackedFrags := s.unackedFrags ++ [(UInt64.ofNat s.nAssigned, f)]
      firstUnackedFrag := first? (s.unackedFrags ++ [(UInt64.ofNat s.nAssigned, f)])
      netPkts := s.netPkts.modify n fun p =>
        { p with unackedFrags := p.unackedFrags ++ [UInt64.ofNat s.nAssigned] } }.Inv o where
  sorted := hi.sorted.append_single (hi.lt_next hw) f
  first := rfl
  lt_assigned := by
    intro k hk
    simp only [keys_append, keys_cons, keys_nil, List.mem_append, List.mem_singleton] at hk
    rcases hk with hk | rfl
    · exact Nat.lt_succ_of_lt (hi.lt_assigned k hk)
    · rw [toNat_ofNat_of_lt hw]
      exact Nat.lt_succ_self _
  assigned_le := hw
  counter := by rw [UInt64.ofNat_add]; rfl
  netPkt_lt := by
    intro e he
    rw [List.length_modify]
    rcases List.mem_append.mp he with he | he
    · exact hi.netPkt_lt e he
    · rw [List.mem_singleton] at he
      exact ⟨n, hnl, he ▸ hn⟩
  frags := by
    intro n' hn'
    by_cases h : n' = n
    · subst h
      rw [netPktFrags_modify_of_lt hnl, fragsOf_append_single, hn, if_pos rfl,
        ← netPktFrags_of_lt hnl]
      exact hperm.append_right _
    · refine hi.frags_of_ne h ?_ _ hn'
      have hne : some n ≠ some n' := by simpa using Ne.symm h
      rw [fragsOf_append_single, hn, if_neg hne, List.append_nil]
  retx_le := by
    intro e he
    rcases List.mem_append.mp he with he | he
    · exact hi.retx_le e he
    · rw [List.mem_singleton] at he
      exact he ▸ hr
  dropped_lt := by
    rw [List.length_modify]
    exact hi.dropped_lt
  dropped_nodup := hi.dropped_nodup
  dropped_gone := by
    intro n' hn'
    have hne : n ≠ n' := fun h => hnd (h ▸ hn')
    rw [fragsOf_append_single, hi.dropped_gone n' hn', hn]
    simp [hne]

/-- A new NetPkt, with no entry yet. -/
theorem Inv.newNetPkt (hi : s.Inv o) (p : NetPkt) :
    { s with netPkts := s.netPkts ++ [p] }.Inv o where
  sorted := hi.sorted
  first := hi.first
  lt_assigned := hi.lt_assigned
  assigned_le := hi.assigned_le
  counter := hi.counter
  netPkt_lt := by
    intro e he
    obtain ⟨n, hn, hf⟩ := hi.netPkt_lt e he
    exact ⟨n, by simp; omega, hf⟩
  frags := by
    intro n hn
    obtain ⟨k, hk⟩ := List.exists_mem_of_ne_nil _ hn
    obtain ⟨f, he, hf⟩ := mem_fragsOf.mp hk
    rw [netPktFrags_append_of_lt (hi.netPkt_lt_of_mem he hf)]
    exact hi.frags n hn
  retx_le := hi.retx_le
  dropped_lt := fun n hn => by simpa using Nat.lt_succ_of_lt (hi.dropped_lt n hn)
  dropped_nodup := hi.dropped_nodup
  dropped_gone := hi.dropped_gone

end Writes

/-! ## Each function keeps the invariant -/

/-- The entry a retransmission makes under `newTxSeq`, of the NetPkt named `n`. -/
def resent (f : UnackedFrag) (n : Nat) (newTxSeq : UInt64) : UnackedFrag :=
  { UnackedFrag.ofPkt (f.pkt.setTxSequence newTxSeq) with
    retxCount := f.retxCount + 1
    netPkt := some n }

@[simp] theorem resent_netPkt (f : UnackedFrag) (n : Nat) (newTxSeq : UInt64) :
    (resent f n newTxSeq).netPkt = some n := rfl

@[simp] theorem resent_retxCount (f : UnackedFrag) (n : Nat) (newTxSeq : UInt64) :
    (resent f n newTxSeq).retxCount = f.retxCount + 1 := rfl

/-- Storing a fragment last: `m_firstUnackedFrag` is set only when the map had no entry. -/
theorem ite_first?_append {m : List (UInt64 × UnackedFrag)} {first : Option UInt64}
    (hf : first = first? m) (x : UInt64 × UnackedFrag) :
    (if (m ++ [x]).length = 1 then first? (m ++ [x]) else first) = first? (m ++ [x]) := by
  cases m with
  | nil => simp
  | cons e m => simp [hf]

section Calls

variable {o : Options} {s : State} {txSeq : UInt64} {f : UnackedFrag} {n : Nat} {p : NetPkt}

theorem onLpPacketAcknowledged_eq (hi : s.Inv o) (he : (txSeq, f) ∈ s.unackedFrags)
    (hn : f.netPkt = some n) (hp : s.netPkts[n]? = some p) (hk : txSeq ∈ p.unackedFrags) :
    s.onLpPacketAcknowledged txSeq = .ok { s with
      unackedFrags := erase s.unackedFrags txSeq
      firstUnackedFrag := first? (erase s.unackedFrags txSeq)
      netPkts := s.netPkts.modify n fun p =>
        { p with unackedFrags := swapRemove p.unackedFrags txSeq } } := by
  rw [onLpPacketAcknowledged, lookupFrag_eq hi.sorted he hn hp, Except.ok_bind']
  dsimp only
  rw [if_pos hk]
  refine deleteUnackedFrag_eq ?_ ?_ ?_
  · exact hi.sorted
  · exact hi.first
  · exact mem_keys_of_mem he

theorem Inv.acknowledge (hi : s.Inv o) (he : (txSeq, f) ∈ s.unackedFrags)
    (hn : f.netPkt = some n) (hp : s.netPkts[n]? = some p) (hk : txSeq ∈ p.unackedFrags) :
    { s with
      unackedFrags := erase s.unackedFrags txSeq
      firstUnackedFrag := first? (erase s.unackedFrags txSeq)
      netPkts := s.netPkts.modify n fun p =>
        { p with unackedFrags := swapRemove p.unackedFrags txSeq } }.Inv o := by
  refine hi.restrict (erase_sublist _ _) (List.length_modify _ _ _) ?_ hi.dropped_lt
    hi.dropped_nodup (hi.gone_of_sublist (erase_sublist _ _))
  intro n' hn'
  by_cases h : n' = n
  · -- the acknowledged iterator leaves its NetPkt
    subst h
    have hperm := hi.frags n' (fragsOf_ne_nil he hn)
    rw [netPktFrags_of_getElem? hp] at hperm
    rw [netPktFrags_modify_self hp, fragsOf_erase, ← (nodup_fragsOf hi.sorted n').erase_eq_filter]
    exact (perm_swapRemove hk).trans (hperm.erase txSeq)
  · exact hi.frags_of_ne h (fragsOf_erase_of_ne hi.sorted he hn h) _ hn'

theorem onLpPacketAcknowledged_post (hi : s.Inv o) (hk : txSeq ∈ keys s.unackedFrags) :
    ∃ s', s.onLpPacketAcknowledged txSeq = .ok s' ∧ s'.Inv o ∧
      ∀ k ∈ keys s.unackedFrags, k ≠ txSeq → k ∈ keys s'.unackedFrags := by
  obtain ⟨f, he⟩ := mem_keys.mp hk
  obtain ⟨n, p, hn, hp, hperm, hkn⟩ := hi.entry he
  have hkp : txSeq ∈ p.unackedFrags := hperm.mem_iff.mpr hkn
  exact ⟨_, onLpPacketAcknowledged_eq hi he hn hp hkp, hi.acknowledge he hn hp hkp,
    fun k hk' hne => mem_keys_erase.mpr ⟨hk', hne⟩⟩

theorem Inv.findLostLpPackets (hi : s.Inv o) (ackTxSeq : UInt64) :
    (s.findLostLpPackets o ackTxSeq).1.Inv o :=
  hi.mapVal (fun e => if e.1 ∈ s.lossWindow ackTxSeq then
      { e.2 with nGreaterSeqAcks := e.2.nGreaterSeqAcks + 1 } else e.2)
    (fun e => by dsimp only; split <;> rfl) (fun e => by dsimp only; split <;> rfl)

/-- After a drop, the entries left are those of the other NetPkts. -/
theorem erase_filter_others (hi : s.Inv o) (he : (txSeq, f) ∈ s.unackedFrags)
    (hn : f.netPkt = some n) (hperm : p.unackedFrags.Perm (fragsOf s.unackedFrags n)) :
    erase (s.unackedFrags.filter fun e => e.1 ∉ p.unackedFrags.filter (· != txSeq)) txSeq =
      s.unackedFrags.filter fun e => e.2.netPkt != some n := by
  rw [erase, List.filter_filter]
  apply List.filter_congr
  rintro ⟨k, v⟩ he'
  -- a key is one of the NetPkt's iterators exactly when its entry is the NetPkt's
  have hiff : k ∈ p.unackedFrags ↔ v.netPkt = some n := by
    rw [hperm.mem_iff, mem_fragsOf]
    constructor
    · rintro ⟨f', hf', hn'⟩
      rwa [hi.sorted.eq_of_mem he' hf']
    · intro h
      exact ⟨v, he', h⟩
  by_cases hk : k = txSeq
  · subst hk
    have hv : v = f := hi.sorted.eq_of_mem he' he
    simp [hv, hn]
  · by_cases hkp : k ∈ p.unackedFrags
    · simp [hk, hkp, hiff.mp hkp]
    · have hv : v.netPkt ≠ some n := fun h => hkp (hiff.mpr h)
      rw [Bool.eq_iff_iff]
      simp [hk, hkp, hv]

theorem onLpPacketLost_of_drop (hi : s.Inv o) (he : (txSeq, f) ∈ s.unackedFrags)
    (hn : f.netPkt = some n) (hp : s.netPkts[n]? = some p)
    (hperm : p.unackedFrags.Perm (fragsOf s.unackedFrags n)) (hr : o.maxRetx ≤ f.retxCount) :
    s.onLpPacketLost o txSeq = .ok ({ s with
      unackedFrags := s.unackedFrags.filter fun e => e.2.netPkt != some n
      firstUnackedFrag := first? (s.unackedFrags.filter fun e => e.2.netPkt != some n)
      droppedInterests :=
        if p.isInterest then s.droppedInterests ++ [n] else s.droppedInterests },
      p.unackedFrags.filter (· != txSeq) ++ [txSeq]) := by
  have hnd : (p.unackedFrags.filter (· != txSeq)).Nodup :=
    (hperm.nodup_iff.mpr (nodup_fragsOf hi.sorted n)).filter _
  have hks : ∀ k ∈ p.unackedFrags.filter (· != txSeq), k ∈ keys s.unackedFrags := by
    intro k hk
    obtain ⟨f', hf', -⟩ := mem_fragsOf.mp (hperm.subset (List.mem_of_mem_filter hk))
    exact mem_keys_of_mem hf'
  have hkeep : txSeq ∈
      keys (s.unackedFrags.filter fun e => e.1 ∉ p.unackedFrags.filter (· != txSeq)) :=
    mem_keys_of_mem (List.mem_filter.mpr ⟨he, by simp⟩)
  have hsorted := hi.sorted.sublist
    (List.filter_sublist : (s.unackedFrags.filter fun e =>
      e.1 ∉ p.unackedFrags.filter (· != txSeq)).Sublist s.unackedFrags)
  rw [onLpPacketLost, lookupFrag_eq hi.sorted he hn hp, Except.ok_bind']
  dsimp only
  rw [if_pos hr, deleteUnackedFrags_eq hnd hi.sorted hi.first hks, Except.ok_bind']
  dsimp only
  -- the Interest is reported before its last fragment goes
  cases p.isInterest
  · simp only [Bool.false_eq_true, if_false]
    rw [deleteUnackedFrag_eq hsorted rfl hkeep, Except.ok_bind', erase_filter_others hi he hn hperm]
  · simp only [if_true]
    rw [deleteUnackedFrag_eq hsorted rfl hkeep, Except.ok_bind', erase_filter_others hi he hn hperm]

theorem Inv.drop (hi : s.Inv o) (he : (txSeq, f) ∈ s.unackedFrags) (hn : f.netPkt = some n)
    (b : Bool) :
    { s with
      unackedFrags := s.unackedFrags.filter fun e : UInt64 × UnackedFrag => e.2.netPkt != some n
      firstUnackedFrag := first? (s.unackedFrags.filter fun e : UInt64 × UnackedFrag => e.2.netPkt != some n)
      droppedInterests := if b then s.droppedInterests ++ [n] else s.droppedInterests }.Inv o := by
  have hlive := fragsOf_ne_nil he hn
  have hnd : n ∉ s.droppedInterests := fun h => hlive (hi.dropped_gone n h)
  have hsub : (s.unackedFrags.filter fun e : UInt64 × UnackedFrag => e.2.netPkt != some n).Sublist s.unackedFrags :=
    List.filter_sublist
  have hfrags : ∀ n', fragsOf (s.unackedFrags.filter fun e : UInt64 × UnackedFrag => e.2.netPkt != some n) n' ≠ [] →
      (netPktFrags s.netPkts n').Perm
        (fragsOf (s.unackedFrags.filter fun e : UInt64 × UnackedFrag => e.2.netPkt != some n) n') := by
    intro n' hn'
    rw [fragsOf_filter_netPkt] at hn' ⊢
    split at hn'
    · exact absurd rfl hn'
    · next h =>
      rw [if_neg h]
      exact hi.frags n' hn'
  have hgone := hi.gone_of_sublist hsub
  cases b
  · exact hi.restrict hsub rfl hfrags hi.dropped_lt hi.dropped_nodup hgone
  · -- the dropped Interest is reported once: it had an entry until now
    have hlt : n < s.netPkts.length := hi.netPkt_lt_of_mem he hn
    refine hi.restrict hsub rfl hfrags ?_ ?_ ?_
    · intro n' hn'
      rcases List.mem_append.mp hn' with hn' | hn'
      · exact hi.dropped_lt n' hn'
      · rw [List.mem_singleton] at hn'
        exact hn' ▸ hlt
    · exact (List.perm_append_singleton n _).nodup_iff.mpr
        (List.nodup_cons.mpr ⟨hnd, hi.dropped_nodup⟩)
    · intro n' hn'
      rcases List.mem_append.mp hn' with hn' | hn'
      · exact hgone n' hn'
      · rw [List.mem_singleton] at hn'
        rw [hn', fragsOf_filter_netPkt, if_pos rfl]

theorem onLpPacketLost_of_wrapped (hi : s.Inv o) (he : (txSeq, f) ∈ s.unackedFrags)
    (hn : f.netPkt = some n) (hp : s.netPkts[n]? = some p) (hr : ¬ o.maxRetx ≤ f.retxCount)
    (hw : s.nAssigned = 2 ^ 64) : s.onLpPacketLost o txSeq = .error .wrapped := by
  rw [onLpPacketLost, lookupFrag_eq hi.sorted he hn hp, Except.ok_bind']
  dsimp only
  rw [if_neg hr, assignTxSequence, if_pos hw]
  rfl

theorem onLpPacketLost_of_retx (hi : s.Inv o) (he : (txSeq, f) ∈ s.unackedFrags)
    (hn : f.netPkt = some n) (hp : s.netPkts[n]? = some p) (hk : txSeq ∈ p.unackedFrags)
    (hr : f.retxCount < o.maxRetx) (hw : s.nAssigned < 2 ^ 64) :
    s.onLpPacketLost o txSeq = .ok ({ s with
      lastTxSeqNo := UInt64.ofNat s.nAssigned
      nAssigned := s.nAssigned + 1
      unackedFrags := erase (s.unackedFrags ++
        [(UInt64.ofNat s.nAssigned, resent f n (UInt64.ofNat s.nAssigned))]) txSeq
      firstUnackedFrag := first? (erase (s.unackedFrags ++
        [(UInt64.ofNat s.nAssigned, resent f n (UInt64.ofNat s.nAssigned))]) txSeq)
      netPkts := s.netPkts.modify n fun p => { p with
        didRetx := true
        unackedFrags := p.unackedFrags.replace txSeq (UInt64.ofNat s.nAssigned) } },
      [txSeq]) := by
  have hK := hi.lt_next hw
  have hnew := hi.next_not_mem hw
  rw [onLpPacketLost, lookupFrag_eq hi.sorted he hn hp, Except.ok_bind']
  dsimp only
  rw [if_neg (Nat.not_le.mpr hr), assignTxSequence_eq hi.first hi.lt_assigned hi.counter hw,
    Except.ok_bind']
  dsimp only
  rw [emplace_of_lt _ hK, modify_append_of_not_mem _ _ hnew, if_pos hk]
  have hfirst : s.firstUnackedFrag = first? (s.unackedFrags ++
      [(UInt64.ofNat s.nAssigned, resent f n (UInt64.ofNat s.nAssigned))]) :=
    hi.first.trans (first?_append_of_ne_nil (List.ne_nil_of_mem he) _).symm
  rw [deleteUnackedFrag_eq (hi.sorted.append_single hK _) hfirst
    (by simp [mem_keys_of_mem he]), Except.ok_bind']
  rfl

theorem Inv.retransmit (hi : s.Inv o) (he : (txSeq, f) ∈ s.unackedFrags)
    (hn : f.netPkt = some n) (hp : s.netPkts[n]? = some p) (hk : txSeq ∈ p.unackedFrags)
    (hr : f.retxCount < o.maxRetx) (hw : s.nAssigned < 2 ^ 64) :
    { s with
      lastTxSeqNo := UInt64.ofNat s.nAssigned
      nAssigned := s.nAssigned + 1
      unackedFrags := erase (s.unackedFrags ++
        [(UInt64.ofNat s.nAssigned, resent f n (UInt64.ofNat s.nAssigned))]) txSeq
      firstUnackedFrag := first? (erase (s.unackedFrags ++
        [(UInt64.ofNat s.nAssigned, resent f n (UInt64.ofNat s.nAssigned))]) txSeq)
      netPkts := s.netPkts.modify n fun p => { p with
        didRetx := true
        unackedFrags := p.unackedFrags.replace txSeq (UInt64.ofNat s.nAssigned) } }.Inv o := by
  have hlive := fragsOf_ne_nil he hn
  have hperm := hi.frags n hlive
  have hKt : UInt64.ofNat s.nAssigned ≠ txSeq :=
    fun h => hi.next_not_mem hw (h ▸ mem_keys_of_mem he)
  -- first the new entry goes in last, and its iterator joins the NetPkt
  have hmid := hi.push hw (resent f n (UInt64.ofNat s.nAssigned)) (resent_netPkt _ _ _)
    (hi.netPkt_lt_of_mem he hn) (fun h => hlive (hi.dropped_gone n h)) hr hperm
  rw [netPktFrags_of_getElem? hp] at hperm
  -- then the old entry goes, and the NetPkt's iterator is the new entry's
  refine hmid.restrict (erase_sublist _ _) (by simp) ?_ hmid.dropped_lt hmid.dropped_nodup
    (hmid.gone_of_sublist (erase_sublist _ _))
  intro n' hn'
  by_cases h : n' = n
  · subst h
    rw [netPktFrags_modify_self hp, fragsOf_erase, fragsOf_append_single, resent_netPkt,
      if_pos rfl, List.filter_append, ← (nodup_fragsOf hi.sorted n').erase_eq_filter]
    have hK : [UInt64.ofNat s.nAssigned].filter (· != txSeq) = [UInt64.ofNat s.nAssigned] := by
      simp [hKt]
    rw [hK]
    exact (perm_replace _ hk).trans (((hperm.erase txSeq).cons _).trans
      (List.perm_append_singleton _ _).symm)
  · refine hi.frags_of_ne h ?_ _ hn'
    have hne : (resent f n (UInt64.ofNat s.nAssigned)).netPkt ≠ some n' := by
      simpa using Ne.symm h
    rw [fragsOf_erase_of_ne hmid.sorted (List.mem_append_left _ he) hn h, fragsOf_append_single,
      if_neg hne, List.append_nil]

/-- A loss removes the TxSequences it returns and keeps every other entry. -/
theorem onLpPacketLost_post (hi : s.Inv o) (hk : txSeq ∈ keys s.unackedFrags) :
    (s.onLpPacketLost o txSeq).Post (· = .wrapped) fun r =>
      r.1.Inv o ∧ ∀ k ∈ keys s.unackedFrags, k ∉ r.2 → k ∈ keys r.1.unackedFrags := by
  obtain ⟨f, he⟩ := mem_keys.mp hk
  obtain ⟨n, p, hn, hp, hperm, hkn⟩ := hi.entry he
  have hkp : txSeq ∈ p.unackedFrags := hperm.mem_iff.mpr hkn
  by_cases hr : o.maxRetx ≤ f.retxCount
  · rw [onLpPacketLost_of_drop hi he hn hp hperm hr]
    refine ⟨hi.drop he hn _, fun k hk' hkr => ?_⟩
    obtain ⟨f', hf'⟩ := mem_keys.mp hk'
    refine mem_keys_of_mem (List.mem_filter.mpr ⟨hf', ?_⟩)
    -- a TxSequence the drop leaves is none of the NetPkt's, so its entry is another NetPkt's
    have hk1 : k ∉ p.unackedFrags := fun h => hkr (by by_cases hkt : k = txSeq <;> simp [hkt, h])
    have hk2 : f'.netPkt ≠ some n :=
      fun h => hk1 (hperm.mem_iff.mpr (mem_fragsOf.mpr ⟨f', hf', h⟩))
    simpa using hk2
  · by_cases hw : s.nAssigned = 2 ^ 64
    · rw [onLpPacketLost_of_wrapped hi he hn hp hr hw]
      rfl
    · have hw' : s.nAssigned < 2 ^ 64 := lt_of_le_of_ne hi.assigned_le hw
      have hr' : f.retxCount < o.maxRetx := Nat.lt_of_not_le hr
      rw [onLpPacketLost_of_retx hi he hn hp hkp hr' hw']
      refine ⟨hi.retransmit he hn hp hkp hr' hw', fun k hk' hkr => ?_⟩
      rw [List.mem_singleton] at hkr
      exact mem_keys_erase.mpr ⟨by simp [hk'], hkr⟩

/-- The loop over the lost TxSequences of an Ack: each one not removed yet is still in the map
when it is lost. -/
theorem onLostLpPackets_post {lost : List UInt64} :
    ∀ {s : State} {removed : List UInt64}, s.Inv o →
      (∀ k ∈ lost, k ∈ removed ∨ k ∈ keys s.unackedFrags) →
      (s.onLostLpPackets o removed lost).Post (· = .wrapped) (Inv o) := by
  induction lost with
  | nil =>
    intro s removed hi _
    exact hi
  | cons txSeq lost ih =>
    intro s removed hi hlost
    have hrest : ∀ k ∈ lost, k ∈ removed ∨ k ∈ keys s.unackedFrags :=
      fun k hk => hlost k (List.mem_cons_of_mem _ hk)
    rw [onLostLpPackets]
    split
    · exact ih hi hrest
    · next hnot =>
      have hk := (hlost txSeq List.mem_cons_self).resolve_left hnot
      refine (onLpPacketLost_post hi hk).bind ?_
      rintro ⟨s', removedTxSeqs⟩ ⟨hi', hkeys⟩
      refine ih hi' fun k hk' => ?_
      rcases hrest k hk' with hk'' | hk''
      · exact .inl (List.mem_append_left _ hk'')
      · by_cases hkr : k ∈ removedTxSeqs
        · exact .inl (List.mem_append_right _ hkr)
        · exact .inr (hkeys k hk'' hkr)

theorem processAck_post (hi : s.Inv o) (ackTxSeq : UInt64) :
    (s.processAck o ackTxSeq).Post (· = .wrapped) (Inv o) := by
  unfold processAck
  split
  · exact hi
  · next frag hfind =>
    have hk : ackTxSeq ∈ keys s.unackedFrags := mem_keys.mpr ⟨frag, mem_of_find?_eq_some hfind⟩
    have hi1 := hi.findLostLpPackets ackTxSeq
    have hlost := fun k (h : k ∈ (s.findLostLpPackets o ackTxSeq).2) => mem_findLostLpPackets h
    have hkeys1 : keys (s.findLostLpPackets o ackTxSeq).1.unackedFrags = keys s.unackedFrags :=
      keys_map_val _ _
    rcases hfl : s.findLostLpPackets o ackTxSeq with ⟨s1, lost⟩
    rw [hfl] at hi1 hlost hkeys1
    dsimp only at hi1 hlost hkeys1 ⊢
    obtain ⟨s2, hack, hi2, hkeys2⟩ := onLpPacketAcknowledged_post hi1 (hkeys1 ▸ hk)
    rw [hack, Except.ok_bind']
    -- every lost TxSequence is an entry before the acknowledged one, which is the only one gone
    refine onLostLpPackets_post hi2 fun k hk' => .inr ?_
    obtain ⟨hks, hne⟩ := hlost k hk'
    exact hkeys2 k (hkeys1 ▸ hks) hne

theorem processIncomingPacket_post (acks : List UInt64) :
    ∀ {s : State}, s.Inv o → (s.processIncomingPacket o acks).Post (· = .wrapped) (Inv o) := by
  induction acks with
  | nil =>
    intro s hi
    exact hi
  | cons ackTxSeq acks ih =>
    intro s hi
    exact (processAck_post hi ackTxSeq).bind fun s' hi' => ih hi'

/-- The loop of `handleOutgoing` keeps the invariant, and the new NetPkt's iterators are its
entries even while it has none. -/
theorem handleOutgoingFrags_post (frags : List LpPacket) :
    ∀ {s : State}, s.Inv o → n < s.netPkts.length → n ∉ s.droppedInterests →
      (netPktFrags s.netPkts n).Perm (fragsOf s.unackedFrags n) →
      (s.handleOutgoingFrags n frags).Post (· = .wrapped) (Inv o) := by
  induction frags with
  | nil =>
    intro s hi _ _ _
    exact hi
  | cons frag frags ih =>
    intro s hi hnl hnd hperm
    by_cases hw : s.nAssigned = 2 ^ 64
    · rw [handleOutgoingFrags, assignTxSequence, if_pos hw]
      rfl
    have hw' : s.nAssigned < 2 ^ 64 := lt_of_le_of_ne hi.assigned_le hw
    have hK := hi.lt_next hw'
    have hnew := hi.next_not_mem hw'
    rw [handleOutgoingFrags, assignTxSequence_eq hi.first hi.lt_assigned hi.counter hw',
      Except.ok_bind']
    dsimp only
    rw [emplace_of_lt _ hK, modify_append_of_not_mem _ _ hnew, ite_first?_append hi.first]
    -- the fragment's entry goes in last, and its iterator last in the NetPkt
    have hi' := hi.push hw' { UnackedFrag.ofPkt (frag.setTxSequence (UInt64.ofNat s.nAssigned)) with
        netPkt := some n } rfl hnl hnd (Nat.zero_le _) hperm
    exact ih hi' (by simpa using hnl) hnd
      (hi'.frags n (fragsOf_ne_nil (List.mem_append_right _ (List.mem_singleton_self _)) rfl))

theorem handleOutgoing_post (hi : s.Inv o) (frags : List LpPacket) (isInterest : Bool) :
    (s.handleOutgoing frags isInterest).Post (· = .wrapped) (Inv o) := by
  -- no entry has the new NetPkt yet
  have hfresh : fragsOf s.unackedFrags s.netPkts.length = [] := by
    refine fragsOf_eq_nil.mpr fun e he h => ?_
    exact Nat.lt_irrefl _ (hi.netPkt_lt_of_mem he h)
  refine handleOutgoingFrags_post frags (hi.newNetPkt _) (by simp)
    (fun h => Nat.lt_irrefl _ (hi.dropped_lt _ h)) ?_
  show (netPktFrags (s.netPkts ++ [⟨[], isInterest, false⟩]) s.netPkts.length).Perm
    (fragsOf s.unackedFrags s.netPkts.length)
  rw [hfresh]
  simp [netPktFrags]

theorem step_post (hi : s.Inv o) : ∀ op : Op, (s.step o op).Post (· = .wrapped) (Inv o)
  | .handleOutgoing frags isInterest => handleOutgoing_post hi frags isInterest
  | .processIncomingPacket acks => processIncomingPacket_post acks hi
  | .rtoExpired txSeq => by
    rw [step]
    split
    · next hk => exact (onLpPacketLost_post hi hk).map fun r h => h.1
    · exact hi

end Calls

/-- The invariant holds in every state a run reaches. -/
theorem Inv.of_reachable {o : Options} {s : State}
    (hs : Steps.Reachable (fun s op => (s.step o op).toOption) init s) : s.Inv o := by
  refine hs.induction_on (inv_init o) ?_
  intro s op s' hi h
  have hpost := step_post hi op
  cases hstep : s.step o op with
  | error e => simp [hstep, Except.toOption] at h
  | ok s'' =>
    rw [hstep] at hpost
    simp only [hstep, Except.toOption, Option.some.injEq] at h
    exact h ▸ hpost

/-- The bookkeeping of the send window over every run while TxSequences do not wrap: the window
starts at the least TxSequence, and at `end()` exactly when the map is empty; every entry's NetPkt
holds the iterators of exactly its entries, each once; no entry has been sent again more than
`maxRetx` times; no step fails but where the counter would wrap, so in particular
`onLpPacketLost` is only called on a TxSequence in the map; and a network packet is reported to
`onDroppedInterest` at most once, with none of its fragments left. -/
theorem bookkeeping_invariant (o : Options) {s : State}
    (hs : Steps.Reachable (fun s op => (s.step o op).toOption) init s) :
    ((s.firstUnackedFrag = none ↔ s.unackedFrags = []) ∧
      ∀ k, s.firstUnackedFrag = some k →
        k ∈ keys s.unackedFrags ∧ ∀ k' ∈ keys s.unackedFrags, k ≤ k') ∧
    (∀ e ∈ s.unackedFrags, ∃ n p, e.2.netPkt = some n ∧ s.netPkts[n]? = some p ∧
      p.unackedFrags.Nodup ∧
      ∀ k, k ∈ p.unackedFrags ↔ ∃ f, (k, f) ∈ s.unackedFrags ∧ f.netPkt = some n) ∧
    (∀ e ∈ s.unackedFrags, e.2.retxCount ≤ o.maxRetx) ∧
    (∀ op e, s.step o op = .error e → e = .wrapped) ∧
    s.droppedInterests.Nodup ∧
    ∀ n ∈ s.droppedInterests, ∀ e ∈ s.unackedFrags, e.2.netPkt ≠ some n := by
  have hi := Inv.of_reachable hs
  refine ⟨⟨?_, ?_⟩, ?_, hi.retx_le, ?_, hi.dropped_nodup, ?_⟩
  · rw [hi.first, first?_eq_none_iff]
  · intro k hk
    rw [hi.first] at hk
    refine ⟨mem_keys_of_first?_eq_some hk, fun k' hk' => ?_⟩
    rcases hi.sorted.first?_le hk hk' with rfl | hlt
    · exact UInt64.le_refl k
    · exact UInt64.le_of_lt hlt
  · intro e he
    obtain ⟨n, p, hn, hp, hperm, -⟩ := hi.entry he
    exact ⟨n, p, hn, hp, hperm.nodup_iff.mpr (nodup_fragsOf hi.sorted n),
      fun k => hperm.mem_iff.trans mem_fragsOf⟩
  · intro op e h
    have hpost := step_post hi op
    rw [h] at hpost
    exact hpost
  · intro n hn e he
    exact fragsOf_eq_nil.mp (hi.dropped_gone n hn) e he

theorem bookkeeping_invariant_sent :
    ((init.step {} (.handleOutgoing [⟨[], []⟩, ⟨[], [1]⟩] true)).toOption.getD init).step {}
      (.rtoExpired 0) ≠ .error (.lostNotInMap 0) := fun h =>
  Fault.noConfusion ((bookkeeping_invariant {} (Steps.Reachable.step
    (.handleOutgoing [⟨[], []⟩, ⟨[], [1]⟩] true) Steps.Reachable.init rfl)).2.2.2.1 _ _ h)

end State

end Reliability

end MwNfd
