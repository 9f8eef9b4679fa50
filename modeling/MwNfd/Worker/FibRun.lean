import MwNfd.Table.Cleanup

/-!
# A forwarding worker's FIB over runs (`mw-nfd-worker.cpp`)

A forwarding worker's FIB changes on four events. A FIB `ADD` of the manager is taken by
`processNfdcCommand` when the face exists, the prefix is within `Fib::getMaxDepth()` and the
sharding test keeps it: `insert(prefix)`, then `addOrUpdateNextHop`. A FIB `REMOVE` is taken when
the face exists: `findExactMatch(prefix)`, then `removeNextHop`. The removal of a face runs
`cleanupOnFaceRemoval`. The PIT, the measurements and the strategy choice table call the
NameTree they share with the FIB.

`RunInv` is what holds between events: the FIB invariant `Fib.State.Inv`, and no FIB prefix
deeper than `Fib::getMaxDepth()`. Every event keeps it (`RunInv.step`, from the inversion lemma
`step_cases`), so it holds of every state a worker reaches from an empty FIB.

* `reachable_findLongestPrefixMatch`: the search answers the longest prefix of the name that has
  a FIB entry, with its nexthops, and `s_emptyEntry` when there is none.
* `reachable_fibEntries`: the FIB entries keep a nexthop and distinct faces, sit on the
  well-formed NameTree, and `m_nItems` counts them.
* `reachable_getRange`: `Fib::getRange` lists every FIB entry once.
* `reachable_add_findExactMatch`, `reachable_remove_findExactMatch`: an `ADD` puts the nexthop on
  the prefix's entry, a `REMOVE` takes the face's nexthop off it, and other prefixes keep theirs.
* `reachable_add_remove`: a `REMOVE` of the nexthop that an `ADD` made a new entry with gives
  the FIB back, and the NameTree keeps the prefix's entry.
-/

namespace MwNfd

namespace Fib

/-- What changes a forwarding worker's FIB. -/
inductive Op where
  /-- `processNfdcCommand` on `MW_NFDC_VERB_ADD`, with the nexthop's face and cost. -/
  | add (cmd : FibAddCommand) (face cost : Nat)
  /-- `processNfdcCommand` on `MW_NFDC_VERB_REMOVE`; `faceExists` is whether
  `m_faceTable->get(faceId)` finds the face. -/
  | remove (prefix_ : Name) (face : Nat) (faceExists : Bool)
  /-- The removal of a face, which runs `cleanupOnFaceRemoval`; `hasOtherEntries` says which
  NameTree entries have a measurements or strategy choice entry then. -/
  | removeFace (face : Nat) (hasOtherEntries : Name → Bool)
  /-- A call of another table on the shared NameTree. -/
  | tree (op : NameTree.State.Op)

namespace State

variable (cfg : DispatchConfig) (sharding : Bool) (workerId : Nat) (sort : CostSort)

/-- One event on the worker `workerId`. An `ADD` that `processFibAdd` refuses, and a `REMOVE`
on a face that does not exist, answer `MW_NFDC_CMD_NOK` and leave the FIB as it is; an `ADD`
whose sharding test faults is not taken. -/
def step (st : State) : Op → Option State
  | .add cmd face cost =>
    match processFibAdd cfg sharding workerId cmd with
    | .ok true => some (FibManager.addNextHop sort st cmd.name face cost).1
    | .ok false => some st
    | .error _ => none
  | .remove prefix_ face faceExists =>
    some (if faceExists then FibManager.removeNextHop st prefix_ face else st)
  | .removeFace face hasOtherEntries => some (cleanupOnFaceRemoval st hasOtherEntries face)
  | .tree op => st.treeStep op

/-- What holds of a worker's FIB between events. -/
structure RunInv (st : State) : Prop where
  inv : st.Inv
  depth : ∀ p ∈ st.entries, p.length ≤ fibMaxDepth

variable {cfg sharding workerId sort} {st st' : State}

/-- What one event can do. -/
theorem step_cases {op : Op} (h : st.step cfg sharding workerId sort op = some st') :
    (∃ cmd face cost, processFibAdd cfg sharding workerId cmd = .ok true ∧
        st' = (FibManager.addNextHop sort st cmd.name face cost).1) ∨
      st' = st ∨
      (∃ prefix_ face, st' = FibManager.removeNextHop st prefix_ face) ∨
      (∃ face hasOtherEntries, st' = cleanupOnFaceRemoval st hasOtherEntries face) ∨
      ∃ op', st.treeStep op' = some st' := by
  cases op with
  | add cmd face cost =>
    simp only [step] at h
    split at h
    · next hacc => exact .inl ⟨cmd, face, cost, hacc, (Option.some.inj h).symm⟩
    · exact .inr (.inl (Option.some.inj h).symm)
    · cases h
  | remove prefix_ face faceExists =>
    simp only [step, Option.some.injEq] at h
    split_ifs at h
    · exact .inr (.inr (.inl ⟨prefix_, face, h.symm⟩))
    · exact .inr (.inl h.symm)
  | removeFace face hasOtherEntries =>
    exact .inr (.inr (.inr (.inl ⟨face, hasOtherEntries, (Option.some.inj h).symm⟩)))
  | tree op => exact .inr (.inr (.inr (.inr ⟨op, h⟩)))

variable (sort st) in
/-- A taken `ADD`: `insert(prefix)`, then `addOrUpdateNextHop`. -/
theorem step_add {cmd : FibAddCommand} (hacc : processFibAdd cfg sharding workerId cmd = .ok true)
    (face cost : Nat) : st.step cfg sharding workerId sort (.add cmd face cost) =
      some (FibManager.addNextHop sort st cmd.name face cost).1 := by
  simp [step, hacc]

variable (st) in
/-- A `REMOVE` on a face that exists: `findExactMatch(prefix)`, then `removeNextHop`. -/
theorem step_remove (prefix_ : Name) (face : Nat) :
    st.step cfg sharding workerId sort (.remove prefix_ face true) =
      some (FibManager.removeNextHop st prefix_ face) := rfl

/-- A taken `ADD` is within `Fib::getMaxDepth()`. -/
theorem processFibAdd_depth {cmd : FibAddCommand}
    (h : processFibAdd cfg sharding workerId cmd = .ok true) : cmd.name.length ≤ fibMaxDepth := by
  by_contra hgt
  have hgt' : cmd.name.length > fibMaxDepth := Nat.lt_of_not_le hgt
  simp [processFibAdd, hgt'] at h

theorem treeStep_entries {op : NameTree.State.Op} (h : st.treeStep op = some st') :
    st'.entries = st.entries := by
  cases op <;>
  · obtain ⟨tree, -, rfl⟩ := Option.map_eq_some_iff.mp h
    rfl

theorem runInv_init (nBuckets : Nat) (h : 0 < nBuckets) : (init nBuckets h).RunInv :=
  ⟨inv_init nBuckets h, fun _ hp => by simp [init] at hp⟩

/-- A FIB search by exact prefix finds the prefix's entry. A prefix deeper than
`getMaxDepth()` is not searched, and has no entry. -/
theorem RunInv.findExactMatch_eq (h : st.RunInv) (p : Name) :
    st.findExactMatch p = (st.entries.lookup p).map (⟨p, ·⟩) := by
  rw [findExactMatch, h.inv.wf.findExactMatch_eq]
  split_ifs with hp
  · rfl
  · -- a prefix with no NameTree entry within the depth has no FIB entry
    have hq : p ∉ st.entries := fun hq => hp ⟨h.depth p hq, h.inv.mem_names p hq⟩
    rw [AList.lookup_eq_none.mpr hq]
    rfl

/-- The FIB after a `REMOVE`: the prefix's entry without the face's nexthop, and gone when that
was its last; the other entries as they were. -/
theorem RunInv.lookup_removeNextHop (h : st.RunInv) (prefix_ : Name) (face : Nat) (q : Name) :
    (FibManager.removeNextHop st prefix_ face).entries.lookup q =
      if q = prefix_ then (st.entries.lookup q).bind (nextHopsAfterRemoval face)
      else st.entries.lookup q := by
  unfold FibManager.removeNextHop
  rw [h.findExactMatch_eq]
  cases hp : st.entries.lookup prefix_ with
  | none =>
    -- no entry: the command changes nothing
    simp only [Option.map_none]
    split_ifs with hq
    · rw [hq, hp]
      rfl
    · rfl
  | some nhs =>
    simp only [Option.map_some]
    rw [Fib.State.lookup_removeNextHop hp (h.inv.nextHops _ _ hp).2 face q]
    split_ifs with hq
    · rw [hq, hp]
      rfl
    · rfl

/-- A prefix whose entry after an event is a `bind` of its entry before had one before. -/
theorem mem_of_lookup_bind (f : Name → List NextHop → Option (List NextHop))
    (hl : ∀ q, st'.entries.lookup q = (st.entries.lookup q).bind (f q)) {q : Name}
    (hq : q ∈ st'.entries) : q ∈ st.entries := by
  rw [← AList.lookup_isSome, hl] at hq
  rw [← AList.lookup_isSome]
  cases hs : st.entries.lookup q with
  | none => simp [hs] at hq
  | some _ => rfl

theorem removeNextHopCommand_tree (st : State) (prefix_ : Name) (face : Nat) :
    (FibManager.removeNextHop st prefix_ face).tree = st.tree := by
  unfold FibManager.removeNextHop
  split
  · exact Fib.State.removeNextHop_tree _ _
  · rfl

/-- The nexthops a new entry gets from `addOrUpdateNextHop` are all on the face, so removing the
face's nexthop takes the entry away. -/
theorem nextHopsAfterRemoval_addOrUpdateNextHop_nil (face cost : Nat) :
    nextHopsAfterRemoval face (FibEntry.addOrUpdateNextHop sort [] face cost).1 = none := by
  refine nextHopsAfterRemoval_eq_none
    (List.ne_nil_of_mem (FibEntry.mem_addOrUpdateNextHop_self sort [] face cost)) fun nh hnh => ?_
  by_contra hne
  exact List.not_mem_nil ((FibEntry.mem_addOrUpdateNextHop_of_ne sort [] face cost hne).mp hnh)

/-- Every event keeps `RunInv`: an `ADD` adds a prefix that passed the depth test, and the
other events only take entries away. -/
theorem RunInv.step (h : st.RunInv) {op : Op}
    (hs : st.step cfg sharding workerId sort op = some st') : st'.RunInv := by
  rcases step_cases hs with ⟨cmd, face, cost, hacc, rfl⟩ | rfl | ⟨p, face, rfl⟩ |
    ⟨face, o, rfl⟩ | ⟨op', hop⟩
  · refine ⟨h.inv.addNextHop sort cmd.name face cost, fun q hq => ?_⟩
    rw [addNextHop_eq] at hq
    rcases (AList.mem_insert _).mp hq with rfl | hq
    · exact processFibAdd_depth hacc
    · exact h.depth q hq
  · exact h
  · refine ⟨h.inv.removeNextHopCommand p face, fun q hq => h.depth q
      (mem_of_lookup_bind (fun r => if r = p then nextHopsAfterRemoval face else some) ?_ hq)⟩
    intro r
    rw [h.lookup_removeNextHop p face r]
    split_ifs
    · rfl
    · simp
  · refine ⟨h.inv.cleanup o face, fun q hq => h.depth q
      (mem_of_lookup_bind (fun _ => nextHopsAfterRemoval face) (fun r => ?_) hq)⟩
    exact lookup_cleanupOnFaceRemoval o face h.inv r
  · refine ⟨h.inv.treeStep hop, ?_⟩
    rw [treeStep_entries hop]
    exact h.depth

/-- `RunInv` holds in every state a worker reaches from an empty FIB. -/
theorem RunInv.of_reachable {nBuckets : Nat} {hpos : 0 < nBuckets}
    (hs : Steps.Reachable (State.step cfg sharding workerId sort) (init nBuckets hpos) st) :
    st.RunInv :=
  hs.induction_on (runInv_init nBuckets hpos) fun _ _ _ hi h => hi.step h

/-- The FIB after `ADD /a` on face 1 with cost 10 is reached from an empty FIB. -/
theorem reachable_add_a :
    Steps.Reachable (State.step ⟨1, 2, by decide⟩ false 0 .merge) (init 8 (by decide))
      (FibManager.addNextHop .merge (init 8 (by decide)) [.generic [0x61]] 1 10).1 :=
  .step (.add ⟨[.generic [0x61]], true, false⟩ 1 10) .init (step_add .merge _ rfl 1 10)

variable {nBuckets : Nat} {hpos : 0 < nBuckets}

/-- In every state a worker reaches, `Fib::findLongestPrefixMatch` answers the longest prefix of
the name that has a FIB entry, with that entry's nexthops, and `s_emptyEntry` when no prefix of
the name has one. -/
theorem reachable_findLongestPrefixMatch
    (hs : Steps.Reachable (State.step cfg sharding workerId sort) (init nBuckets hpos) st)
    (name : Name) :
    (∃ p nhs, st.findLongestPrefixMatch name = ⟨p, nhs⟩ ∧ st.entries.lookup p = some nhs ∧
        p <+: name ∧ ∀ q ∈ st.entries, q <+: name → q.length ≤ p.length) ∨
      (st.findLongestPrefixMatch name = emptyEntry ∧ ∀ q ∈ st.entries, ¬q <+: name) := by
  have h := RunInv.of_reachable hs
  rw [h.inv.findLongestPrefixMatch_eq]
  cases hm : Fib.findLongestPrefixMatch st.entries.keys name with
  | some p =>
    obtain ⟨hpre, -, hsel, hmax⟩ := PrefixMatch.longestPrefixMatch_eq_some_iff.mp hm
    have hp : p ∈ st.entries := AList.mem_keys.mpr (by simpa using hsel)
    obtain ⟨nhs, hnhs⟩ := Option.isSome_iff_exists.mp (AList.lookup_isSome.mpr hp)
    refine .inl ⟨p, nhs, by simp [hnhs], hnhs, hpre, fun q hq hqn => ?_⟩
    -- a longer prefix with an entry is within the depth, so the search would have met it first
    by_contra hlt
    have := hmax q hqn (h.depth q hq) (Nat.lt_of_not_le hlt)
    simp only [decide_eq_false_iff_not] at this
    exact this (AList.mem_keys.mp hq)
  | none =>
    refine .inr ⟨rfl, fun q hq hqn => ?_⟩
    have := PrefixMatch.longestPrefixMatch_eq_none_iff.mp hm q hqn (h.depth q hq)
    simp only [decide_eq_false_iff_not] at this
    exact this (AList.mem_keys.mp hq)

/-- After `ADD /a`, the search for /a/b finds /a. -/
theorem reachable_findLongestPrefixMatch_ab :
    (∃ p nhs, (FibManager.addNextHop .merge (init 8 (by decide)) [.generic [0x61]] 1 10).1.findLongestPrefixMatch [.generic [0x61], .generic [0x62]] = ⟨p, nhs⟩ ∧
        (FibManager.addNextHop .merge (init 8 (by decide)) [.generic [0x61]] 1 10).1.entries.lookup p = some nhs ∧ p <+: [.generic [0x61], .generic [0x62]] ∧
        ∀ q ∈ (FibManager.addNextHop .merge (init 8 (by decide)) [.generic [0x61]] 1 10).1.entries, q <+: [.generic [0x61], .generic [0x62]] → q.length ≤ p.length) ∨
      ((FibManager.addNextHop .merge (init 8 (by decide)) [.generic [0x61]] 1 10).1.findLongestPrefixMatch [.generic [0x61], .generic [0x62]] = emptyEntry ∧
        ∀ q ∈ (FibManager.addNextHop .merge (init 8 (by decide)) [.generic [0x61]] 1 10).1.entries, ¬q <+: [.generic [0x61], .generic [0x62]]) :=
  reachable_findLongestPrefixMatch reachable_add_a [.generic [0x61], .generic [0x62]]

/-- In every state a worker reaches, the NameTree is well formed, `m_nItems` counts the FIB
entries, and each FIB entry has a nexthop, no two on one face, is within `getMaxDepth()` and
sits on a NameTree entry. -/
theorem reachable_fibEntries
    (hs : Steps.Reachable (State.step cfg sharding workerId sort) (init nBuckets hpos) st) :
    st.tree.Wf ∧ st.nItems = st.entries.keys.length ∧
      ∀ p nhs, st.entries.lookup p = some nhs →
        nhs ≠ [] ∧ (nhs.map NextHop.face).Nodup ∧ p.length ≤ fibMaxDepth ∧ p ∈ st.tree.names := by
  have h := RunInv.of_reachable hs
  refine ⟨h.inv.wf, h.inv.nItems, fun p nhs hp => ?_⟩
  have hmem : p ∈ st.entries := AList.lookup_isSome.mp (by simp [hp])
  obtain ⟨hne, hnd⟩ := h.inv.nextHops p nhs hp
  exact ⟨hne, hnd, h.depth p hmem, h.inv.mem_names p hmem⟩

/-- The FIB after `ADD /a`. -/
theorem reachable_fibEntries_a :
    (FibManager.addNextHop .merge (init 8 (by decide)) [.generic [0x61]] 1 10).1.tree.Wf ∧ (FibManager.addNextHop .merge (init 8 (by decide)) [.generic [0x61]] 1 10).1.nItems = (FibManager.addNextHop .merge (init 8 (by decide)) [.generic [0x61]] 1 10).1.entries.keys.length ∧
      ∀ p nhs, (FibManager.addNextHop .merge (init 8 (by decide)) [.generic [0x61]] 1 10).1.entries.lookup p = some nhs →
        nhs ≠ [] ∧ (nhs.map NextHop.face).Nodup ∧ p.length ≤ fibMaxDepth ∧ p ∈ (FibManager.addNextHop .merge (init 8 (by decide)) [.generic [0x61]] 1 10).1.tree.names :=
  reachable_fibEntries reachable_add_a

/-- `Fib::getRange` on a FIB that keeps its invariant lists each FIB entry once: the full
enumeration visits the NameTree entries that have one. -/
theorem Inv.getRange_perm (hi : st.Inv) :
    st.getRange.Perm (st.entries.entries.map fun e => (⟨e.1, e.2⟩ : FibEntry)) := by
  have hw := hi.wf
  -- the names visited are the FIB's prefixes, each once
  have hnames : ((st.tree.ht.nodes.filter fun nte => nteHasFibEntry st.entries nte.name).map
      Node.name).Perm st.entries.keys := by
    refine (List.perm_ext_iff_of_nodup ((List.filter_sublist.map Node.name).nodup hw.ht.nodup)
      st.entries.keys_nodup).mpr fun q => ?_
    simp only [List.mem_map, List.mem_filter, nteHasFibEntry_eq, decide_eq_true_eq]
    constructor
    · rintro ⟨x, ⟨-, hx⟩, rfl⟩
      exact AList.mem_keys.mp hx
    · intro hq
      obtain ⟨x, hx, rfl⟩ := NameTree.State.mem_names.mp (hi.mem_names q (AList.mem_keys.mpr hq))
      exact ⟨x, ⟨hx, AList.mem_keys.mpr hq⟩, rfl⟩
  -- an entry is its prefix with the nexthops `lookup` gives
  have hentries : st.entries.entries.map (fun e => (⟨e.1, e.2⟩ : FibEntry)) =
      st.entries.keys.map fun k => ⟨k, (st.entries.lookup k).getD []⟩ := by
    simp only [AList.keys, List.keys, List.map_map]
    refine List.map_congr_left fun e he => ?_
    have hl : st.entries.lookup e.1 = some e.2 := AList.mem_lookup_iff.mpr he
    simp [hl]
  rw [getRange, hw.ht.fullEnumerate_eq (Nat.lt_succ_self _), Option.getD_some, hentries]
  have := hnames.map fun k => (⟨k, (st.entries.lookup k).getD []⟩ : FibEntry)
  rwa [List.map_map] at this

/-- In every state a worker reaches, `Fib::getRange` lists every FIB entry once, with its
nexthops. -/
theorem reachable_getRange
    (hs : Steps.Reachable (State.step cfg sharding workerId sort) (init nBuckets hpos) st) :
    st.getRange.Perm (st.entries.entries.map fun e => (⟨e.1, e.2⟩ : FibEntry)) :=
  (RunInv.of_reachable hs).inv.getRange_perm

/-- The FIB after `ADD /a`. -/
theorem reachable_getRange_a :
    (FibManager.addNextHop .merge (init 8 (by decide)) [.generic [0x61]] 1 10).1.getRange.Perm ((FibManager.addNextHop .merge (init 8 (by decide)) [.generic [0x61]] 1 10).1.entries.entries.map fun e => (⟨e.1, e.2⟩ : FibEntry)) :=
  reachable_getRange reachable_add_a

/-- From every state a worker reaches, a taken `ADD` leaves on the prefix's entry the nexthop on
its face with its cost, and the nexthops on other faces that the entry had; other prefixes keep
their entries. -/
theorem reachable_add_findExactMatch
    (hs : Steps.Reachable (State.step cfg sharding workerId sort) (init nBuckets hpos) st)
    {cmd : FibAddCommand} (hacc : processFibAdd cfg sharding workerId cmd = .ok true)
    (face cost : Nat) :
    ∃ st' nhs, st.step cfg sharding workerId sort (.add cmd face cost) = some st' ∧
      st'.findExactMatch cmd.name = some ⟨cmd.name, nhs⟩ ∧ ⟨face, cost⟩ ∈ nhs ∧
      (∀ nh : NextHop, nh.face ≠ face →
        (nh ∈ nhs ↔ ∃ e, st.findExactMatch cmd.name = some e ∧ nh ∈ e.nextHops)) ∧
      ∀ q, q ≠ cmd.name → st'.findExactMatch q = st.findExactMatch q := by
  have h := RunInv.of_reachable hs
  have hstep := step_add sort st hacc face cost
  have h' := h.step hstep
  set old := (st.entries.lookup cmd.name).getD []
  refine ⟨_, (FibEntry.addOrUpdateNextHop sort old face cost).1, hstep, ?_,
    FibEntry.mem_addOrUpdateNextHop_self sort old face cost, fun nh hne => ?_, fun q hq => ?_⟩
  · rw [h'.findExactMatch_eq, addNextHop_eq, AList.lookup_insert]
    rfl
  · rw [FibEntry.mem_addOrUpdateNextHop_of_ne sort old face cost hne, h.findExactMatch_eq]
    cases hl : st.entries.lookup cmd.name <;> simp [old, hl]
  · rw [h'.findExactMatch_eq, h.findExactMatch_eq, addNextHop_eq, AList.lookup_insert_ne hq]

/-- `ADD /a` on face 1 with cost 10 at a worker that has taken no event yet. -/
theorem reachable_add_findExactMatch_a :
    ∃ st' nhs, (init 8 (by decide)).step ⟨1, 2, by decide⟩ false 0 .merge
        (.add ⟨[.generic [0x61]], true, false⟩ 1 10) = some st' ∧
      st'.findExactMatch [.generic [0x61]] = some ⟨[.generic [0x61]], nhs⟩ ∧ ⟨1, 10⟩ ∈ nhs ∧
      (∀ nh : NextHop, nh.face ≠ 1 →
        (nh ∈ nhs ↔ ∃ e, (init 8 (by decide)).findExactMatch [.generic [0x61]] = some e ∧
          nh ∈ e.nextHops)) ∧
      ∀ q, q ≠ [.generic [0x61]] →
        st'.findExactMatch q = (init 8 (by decide)).findExactMatch q :=
  reachable_add_findExactMatch Steps.Reachable.init rfl 1 10

/-- From every state a worker reaches, a `REMOVE` on an existing face leaves on the prefix's entry
exactly the nexthops it had on other faces, and no entry once its last nexthop goes; other
prefixes keep their entries. -/
theorem reachable_remove_findExactMatch
    (hs : Steps.Reachable (State.step cfg sharding workerId sort) (init nBuckets hpos) st)
    (prefix_ : Name) (face : Nat) :
    ∃ st', st.step cfg sharding workerId sort (.remove prefix_ face true) = some st' ∧
      (∀ nh : NextHop, (∃ e, st'.findExactMatch prefix_ = some e ∧ nh ∈ e.nextHops) ↔
        (∃ e, st.findExactMatch prefix_ = some e ∧ nh ∈ e.nextHops) ∧ nh.face ≠ face) ∧
      ((∃ e, st.findExactMatch prefix_ = some e ∧ ∀ nh ∈ e.nextHops, nh.face = face) →
        st'.findExactMatch prefix_ = none) ∧
      ∀ q, q ≠ prefix_ → st'.findExactMatch q = st.findExactMatch q := by
  have h := RunInv.of_reachable hs
  have hstep : st.step cfg sharding workerId sort (.remove prefix_ face true) = _ :=
    step_remove st prefix_ face
  have h' := h.step hstep
  refine ⟨_, hstep, fun nh => ?_, ?_, fun q hq => ?_⟩
  · rw [h'.findExactMatch_eq, h.findExactMatch_eq, h.lookup_removeNextHop prefix_ face prefix_,
      if_pos rfl]
    cases st.entries.lookup prefix_ with
    | none => simp
    | some nhs => simpa using mem_nextHopsAfterRemoval
  · -- the face's nexthop was the entry's last: the entry goes
    rintro ⟨e, he, hall⟩
    rw [h.findExactMatch_eq] at he
    obtain ⟨nhs, hnhs, rfl⟩ := Option.map_eq_some_iff.mp he
    rw [h'.findExactMatch_eq, h.lookup_removeNextHop prefix_ face prefix_, if_pos rfl, hnhs,
      Option.bind_some, nextHopsAfterRemoval_eq_none (h.inv.nextHops _ _ hnhs).1 hall]
    rfl
  · rw [h'.findExactMatch_eq, h.findExactMatch_eq, h.lookup_removeNextHop prefix_ face q,
      if_neg hq]

/-- `REMOVE /a` on face 1 after `ADD /a` on face 1: the entry goes with its only nexthop. -/
theorem reachable_remove_findExactMatch_a :
    ∃ st', (FibManager.addNextHop .merge (init 8 (by decide)) [.generic [0x61]] 1 10).1.step ⟨1, 2, by decide⟩ false 0 .merge (.remove [.generic [0x61]] 1 true) = some st' ∧
      (∀ nh : NextHop, (∃ e, st'.findExactMatch [.generic [0x61]] = some e ∧ nh ∈ e.nextHops) ↔
        (∃ e, (FibManager.addNextHop .merge (init 8 (by decide)) [.generic [0x61]] 1 10).1.findExactMatch [.generic [0x61]] = some e ∧ nh ∈ e.nextHops) ∧ nh.face ≠ 1) ∧
      ((∃ e, (FibManager.addNextHop .merge (init 8 (by decide)) [.generic [0x61]] 1 10).1.findExactMatch [.generic [0x61]] = some e ∧ ∀ nh ∈ e.nextHops, nh.face = 1) →
        st'.findExactMatch [.generic [0x61]] = none) ∧
      ∀ q, q ≠ [.generic [0x61]] → st'.findExactMatch q = (FibManager.addNextHop .merge (init 8 (by decide)) [.generic [0x61]] 1 10).1.findExactMatch q :=
  reachable_remove_findExactMatch reachable_add_a [.generic [0x61]] 1

/-- From every state a worker reaches, a `REMOVE` of the nexthop that a taken `ADD` made a new
entry with gives every prefix its FIB entry back and `m_nItems` its count, while the NameTree
keeps the prefix's entry: `Fib::removeNextHop` erases the FIB entry with `canDeleteNte` false. -/
theorem reachable_add_remove
    (hs : Steps.Reachable (State.step cfg sharding workerId sort) (init nBuckets hpos) st)
    {cmd : FibAddCommand} (hacc : processFibAdd cfg sharding workerId cmd = .ok true)
    (hnew : st.findExactMatch cmd.name = none) (face cost : Nat) :
    ∃ st'', ((st.step cfg sharding workerId sort (.add cmd face cost)).bind fun st' =>
        st'.step cfg sharding workerId sort (.remove cmd.name face true)) = some st'' ∧
      (∀ q, st''.findExactMatch q = st.findExactMatch q) ∧ st''.nItems = st.nItems ∧
      cmd.name ∈ st''.tree.names := by
  have h := RunInv.of_reachable hs
  have hstep := step_add sort st hacc face cost
  have h' := h.step hstep
  have hstep' : State.step cfg sharding workerId sort _ (.remove cmd.name face true) = _ :=
    step_remove (FibManager.addNextHop sort st cmd.name face cost).1 cmd.name face
  have h'' := h'.step hstep'
  have hold : st.entries.lookup cmd.name = none := by
    rw [h.findExactMatch_eq, Option.map_eq_none_iff] at hnew
    exact hnew
  -- the two commands give every prefix its entry back
  have hlook : ∀ q, (FibManager.removeNextHop (FibManager.addNextHop sort st cmd.name face cost).1
      cmd.name face).entries.lookup q = st.entries.lookup q := by
    intro q
    rw [h'.lookup_removeNextHop, addNextHop_eq]
    by_cases hq : q = cmd.name
    · rw [if_pos hq, hq, AList.lookup_insert, hold, Option.getD_none]
      exact nextHopsAfterRemoval_addOrUpdateNextHop_nil face cost
    · rw [if_neg hq]
      exact AList.lookup_insert_ne hq
  have hkeys : (FibManager.removeNextHop (FibManager.addNextHop sort st cmd.name face cost).1
      cmd.name face).entries.keys.Perm st.entries.keys := by
    refine (List.perm_ext_iff_of_nodup (AList.keys_nodup _) (AList.keys_nodup _)).mpr fun q => ?_
    rw [← AList.mem_keys, ← AList.mem_keys, ← AList.lookup_isSome, ← AList.lookup_isSome, hlook]
  refine ⟨_, by rw [hstep]; exact hstep', fun q => ?_, ?_, ?_⟩
  · rw [h''.findExactMatch_eq, h.findExactMatch_eq, hlook]
  · rw [h''.inv.nItems, h.inv.nItems, hkeys.length_eq]
  · rw [removeNextHopCommand_tree, addNextHop_eq]
    exact (h.inv.wf.mem_names_lookup le_rfl).mpr (.inr ⟨_, le_rfl, List.take_length.symm⟩)

/-- `ADD /a` on face 1 with cost 10, then `REMOVE /a` on face 1, at a worker that has taken no
event yet. -/
theorem reachable_add_remove_a :
    ∃ st'', (((init 8 (by decide)).step ⟨1, 2, by decide⟩ false 0 .merge
        (.add ⟨[.generic [0x61]], true, false⟩ 1 10)).bind fun st' =>
          st'.step ⟨1, 2, by decide⟩ false 0 .merge (.remove [.generic [0x61]] 1 true)) =
        some st'' ∧
      (∀ q, st''.findExactMatch q = (init 8 (by decide)).findExactMatch q) ∧
      st''.nItems = (init 8 (by decide)).nItems ∧ [.generic [0x61]] ∈ st''.tree.names :=
  reachable_add_remove Steps.Reachable.init rfl rfl 1 10

end State

end Fib

end MwNfd
