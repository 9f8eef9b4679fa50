import MwNfd.Lib.Walk
import MwNfd.Table.FibEntry
import MwNfd.Worker.Fib
import MwNfd.Table.StrategyChoice

/-!
# The FIB on the NameTree (`fib.cpp`, `fib-entry.cpp`, `name-tree-iterator.cpp`)

A FIB entry hangs on the NameTree entry of its prefix, which the FIB shares with the PIT, the
measurements and the strategy choice table. `Fib::insert` looks the prefix up in the NameTree and
attaches a new entry; `Fib::removeNextHop` erases the entry with its last nexthop but leaves the
NameTree entry in place (`erase(nte, false)`); `Fib::findLongestPrefixMatch` asks the NameTree for
the longest prefix that has a FIB entry, and answers `s_emptyEntry` when there is none.
`FullEnumerationImpl::advance` walks the NameTree bucket by bucket, which is the order of
`Fib::getRange` and of a range-for over the NameTree.

* `Hashtable.Wf.fullEnumerate_eq`: the full enumeration visits the nodes the selector takes,
  each once, in bucket order.
* `FibEntry.removeNextHop_eq`: with distinct faces, the call drops the face's nexthop.
* `State.Inv`: the FIB entries sit on NameTree entries, each has a nexthop and no two on one
  face, and `m_nItems` counts them; `addNextHop`, `removeNextHop` and the other tables' calls on
  the NameTree keep it (`Inv.addNextHop`, `Inv.removeNextHop`, `Inv.treeStep`).
* `State.Inv.findLongestPrefixMatch_eq`: the search on the NameTree is the longest prefix match
  over the FIB's prefixes that `Worker.Fib` states.
-/

namespace MwNfd

namespace Hashtable

/-- The search of `FullEnumerationImpl::advance` after the current node: the nodes after it in
its bucket (`getNode(*i.m_entry)->next` onwards), then the later buckets. -/
def fullNext (ht : Hashtable) (pred : Node → Bool) (node : Node) : Option Node :=
  let bucket := ht.computeBucketIndex node.hash
  match (Walk.after node (ht.buckets.getD bucket [])).find? pred with
  | some next => some next
  | none => (ht.buckets.drop (bucket + 1)).flatten.find? pred

/-- `FullEnumerationImpl::advance` from the current node (`none` before the first call): the
first call starts at the head of the first bucket that has one, and visits it when the selector
takes it; `none` is `Iterator()`. -/
def fullAdvance (ht : Hashtable) (pred : Node → Bool) : Option Node → Option Node
  | some node => ht.fullNext pred node
  | none =>
    match ht.buckets.findSome? List.head? with
    | none => none
    | some first => if pred first then some first else ht.fullNext pred first

/-- `NameTree::fullEnumerate(pred)` walked by a range-for: the begin iterator, then `++` until
`end()`; `none` if `rounds` runs out first. -/
def fullEnumerate (ht : Hashtable) (pred : Node → Bool) (rounds : Nat) : Option (List Node) :=
  Walk.run (fun node => ht.fullAdvance pred (some node)) rounds (ht.fullAdvance pred none)

theorem findSome?_head? (buckets : List (List Node)) :
    buckets.findSome? List.head? = buckets.flatten.head? := by
  induction buckets with
  | nil => rfl
  | cons b bs ih => cases b <;> simp [List.findSome?_cons, ih]

variable {ht : Hashtable} {pred : Node → Bool}

/-- In a placed index, the nodes after a node, bucket by bucket, are the rest of its bucket and
the later buckets. -/
theorem Placed.after_nodes (hp : ht.Placed) {x : Node} (hx : x ∈ ht.nodes) :
    Walk.after x ht.nodes = Walk.after x (ht.buckets.getD (ht.computeBucketIndex x.hash) []) ++
      (ht.buckets.drop (ht.computeBucketIndex x.hash + 1)).flatten := by
  set b := ht.computeBucketIndex x.hash
  have hxb : x ∈ ht.buckets.getD b [] := mem_getD_of_placed hp hx
  have hb : b < ht.buckets.length := by
    by_contra h
    rw [List.getD_eq_getElem?_getD, List.getElem?_eq_none (by omega)] at hxb
    simp at hxb
  have hsplit : ht.nodes = (ht.buckets.take b).flatten ++
      (ht.buckets.getD b [] ++ (ht.buckets.drop (b + 1)).flatten) := by
    rw [nodes, ← List.flatten_cons, ← List.flatten_append, List.getD_eq_getElem?_getD,
      List.getElem?_eq_getElem hb, Option.getD_some, ← List.drop_eq_getElem_cons hb,
      List.take_append_drop]
  -- the earlier buckets do not hold `x`: a node lies in the bucket of its hash only
  have hnot : x ∉ (ht.buckets.take b).flatten := by
    intro h
    obtain ⟨l, hl, hxl⟩ := List.mem_flatten.mp h
    obtain ⟨j, hj, rfl⟩ := List.getElem_of_mem hl
    have hjb : j < b ∧ j < ht.buckets.length := by
      simp only [List.length_take] at hj
      omega
    rw [List.getElem_take] at hxl
    have := hp j x (by rwa [List.getD_eq_getElem?_getD, List.getElem?_eq_getElem hjb.2,
      Option.getD_some])
    omega
  rw [hsplit, Walk.after_append_of_not_mem hnot, Walk.after_append_of_mem hxb]

theorem Placed.fullNext_eq (hp : ht.Placed) {x : Node} (hx : x ∈ ht.nodes) :
    ht.fullNext pred x = (Walk.after x ht.nodes).find? pred := by
  rw [hp.after_nodes hx, List.find?_append, fullNext]
  cases (Walk.after x (ht.buckets.getD (ht.computeBucketIndex x.hash) [])).find? pred <;> rfl

theorem Placed.fullAdvance_none (hp : ht.Placed) :
    ht.fullAdvance pred none = ht.nodes.find? pred := by
  rw [fullAdvance, findSome?_head?, ← nodes]
  cases hn : ht.nodes with
  | nil => rfl
  | cons first rest =>
    have hfirst : first ∈ ht.nodes := hn ▸ List.mem_cons_self
    simp only [List.head?_cons]
    cases hpf : pred first with
    | true => simp [List.find?_cons_of_pos hpf]
    | false =>
      rw [List.find?_cons_of_neg (by simp [hpf]), hp.fullNext_eq hfirst, hn, Walk.after_cons_self]
      rfl

/-- The full enumeration of a well-formed index visits the nodes the selector takes, each once,
in bucket order. -/
theorem Wf.fullEnumerate_eq (hw : ht.Wf) {rounds : Nat} (h : ht.nodes.length < rounds) :
    ht.fullEnumerate pred rounds = some (ht.nodes.filter pred) := by
  rw [fullEnumerate, hw.placed.fullAdvance_none]
  exact Walk.run_find? hw.nodup_nodes (fun x hx _ => hw.placed.fullNext_eq hx) h

end Hashtable

namespace FibEntry

/-- `fib::Entry::removeNextHop(face)`: the nexthops after the call, and whether one was
removed. -/
def removeNextHop (nhs : List NextHop) (face : Nat) : List NextHop × Bool :=
  match findNextHop nhs face with
  | some i => (nhs.eraseIdx i, true)
  | none => (nhs, false)

theorem removeNextHop_cons (nh : NextHop) (nhs : List NextHop) (face : Nat) :
    removeNextHop (nh :: nhs) face =
      if nh.face = face then (nhs, true)
      else ((nh :: (removeNextHop nhs face).1), (removeNextHop nhs face).2) := by
  simp only [removeNextHop, findNextHop, List.findIdx?_cons, decide_eq_true_eq]
  split_ifs with h
  · rfl
  · cases List.findIdx? (fun nh => decide (nh.face = face)) nhs <;> rfl

/-- With distinct faces, the call drops the face's nexthop, and says whether there was one. -/
theorem removeNextHop_eq {nhs : List NextHop} {face : Nat} (hnd : (nhs.map NextHop.face).Nodup) :
    removeNextHop nhs face = (nhs.filter (·.face ≠ face), nhs.any (·.face = face)) := by
  induction nhs with
  | nil => rfl
  | cons nh nhs ih =>
    rw [List.map_cons, List.nodup_cons] at hnd
    rw [removeNextHop_cons, ih hnd.2]
    by_cases h : nh.face = face
    · -- the other nexthops are on other faces
      have hrest : nhs.filter (fun x => !decide (x.face = face)) = nhs :=
        List.filter_eq_self.mpr fun x hx => by
          have hne : x.face ≠ nh.face := fun hx' => hnd.1 (hx' ▸ List.mem_map_of_mem hx)
          simpa [← h] using hne
      simp [h, hrest]
    · simp [h]

end FibEntry

namespace Fib

/-- The FIB entries, by prefix, with their nexthops in vector order. -/
abbrev Entries := AList (fun _ : Name => List NextHop)

/-- `Fib`: the NameTree it shares with the other tables, the FIB entries hung on the NameTree's
entries, and the count `m_nItems`. -/
structure State where
  tree : NameTree.State
  entries : Entries
  nItems : Nat

/-- `nteHasFibEntry`. -/
def nteHasFibEntry (entries : Entries) (nte : Name) : Bool := (entries.lookup nte).isSome

/-- `Fib::s_emptyEntry`: the entry of the empty name with no nexthop, on no NameTree entry. -/
def emptyEntry : FibEntry := ⟨[], []⟩

/-- `RemoveNextHopResult`. -/
inductive RemoveNextHopResult where
  | noSuchNexthop
  | fibEntryRemoved
  | nexthopRemoved
  deriving DecidableEq

namespace State

/-- `Fib::findLongestPrefixMatch(prefix)`. -/
def findLongestPrefixMatch (st : State) (prefix_ : Name) : FibEntry :=
  match st.tree.findLongestPrefixMatch prefix_ (nteHasFibEntry st.entries) with
  | some nte => ⟨nte, (st.entries.lookup nte).getD []⟩
  | none => emptyEntry

/-- `Fib::findExactMatch(prefix)`. -/
def findExactMatch (st : State) (prefix_ : Name) : Option FibEntry :=
  (st.tree.findExactMatch prefix_).bind fun nte => (st.entries.lookup nte).map (⟨nte, ·⟩)

/-- `Fib::insert(prefix)`: the entry, and whether it is new. -/
def insert (st : State) (prefix_ : Name) : State × FibEntry × Bool :=
  let tree := (st.tree.lookup prefix_ prefix_.length).1
  match st.entries.lookup prefix_ with
  | some nhs => (⟨tree, st.entries, st.nItems⟩, ⟨prefix_, nhs⟩, false)
  | none => (⟨tree, st.entries.insert prefix_ [], st.nItems + 1⟩, ⟨prefix_, []⟩, true)

/-- `Fib::erase(nte, canDeleteNte)`: the FIB entry goes, then the NameTree entry and its empty
ancestors when allowed. `hasOtherEntries` says which entries have a measurements or strategy
choice entry. -/
def erase (st : State) (hasOtherEntries : Name → Bool) (nte : Name) (canDeleteNte : Bool) :
    State :=
  let entries := st.entries.erase nte
  let tree :=
    if canDeleteNte then
      (st.tree.eraseIfEmpty (fun e => nteHasFibEntry entries e || hasOtherEntries e) nte true).1
    else st.tree
  ⟨tree, entries, st.nItems - 1⟩

/-- `Fib::removeNextHop(entry, face)`, on the table's own entry. The FIB entry that loses its
last nexthop is erased with `canDeleteNte` false, so the NameTree is not touched. -/
def removeNextHop (st : State) (entry : FibEntry) (face : Nat) : State × RemoveNextHopResult :=
  let (nhs, isRemoved) := FibEntry.removeNextHop entry.nextHops face
  if !isRemoved then (st, .noSuchNexthop)
  else if nhs.isEmpty then (st.erase (fun _ => false) entry.prefix_ false, .fibEntryRemoved)
  else (⟨st.tree, st.entries.insert entry.prefix_ nhs, st.nItems⟩, .nexthopRemoved)

/-- `Fib::getRange()`: the FIB entries in the order of `fullEnumerate(nteHasFibEntry)`. -/
def getRange (st : State) : List FibEntry :=
  ((st.tree.ht.fullEnumerate (fun nte => nteHasFibEntry st.entries nte.name)
    (st.tree.ht.nodes.length + 1)).getD []).map
    fun nte => ⟨nte.name, (st.entries.lookup nte.name).getD []⟩

end State

end Fib

namespace FibManager

/-- The FIB `ADD` command once accepted (`FibManager::addNextHop`, and the worker's
`MW_NFDC_VERB_ADD`): `insert(prefix)`, then `addOrUpdateNextHop` on the entry, with the
`afterNewNextHop` it emits. -/
def addNextHop (sort : CostSort) (st : Fib.State) (prefix_ : Name) (face cost : Nat) :
    Fib.State × Option (Name × NextHop) :=
  let (st, entry, _) := st.insert prefix_
  let (entry, signal) := Fib.addOrUpdateNextHop sort entry face cost
  (⟨st.tree, st.entries.insert prefix_ entry.nextHops, st.nItems⟩, signal)

/-- The FIB `REMOVE` command (`FibManager::removeNextHop`, and the worker's
`MW_NFDC_VERB_REMOVE`): `findExactMatch(prefix)`, then `removeNextHop` on the entry found. -/
def removeNextHop (st : Fib.State) (prefix_ : Name) (face : Nat) : Fib.State :=
  match st.findExactMatch prefix_ with
  | some entry => (st.removeNextHop entry face).1
  | none => st

end FibManager

namespace Fib

namespace State

/-- A call of another table on the shared NameTree: `lookup`, or `eraseIfEmpty`, whose
`isEmpty` sees the FIB entries. -/
def treeStep (st : State) : NameTree.State.Op → Option State
  | .lookup name prefixLen => (st.tree.step (.lookup name prefixLen)).map (⟨·, st.entries, st.nItems⟩)
  | .eraseIfEmpty entry canEraseAncestors hasOtherEntries =>
    (st.tree.step (.eraseIfEmpty entry canEraseAncestors
      fun e => nteHasFibEntry st.entries e || hasOtherEntries e)).map (⟨·, st.entries, st.nItems⟩)

/-- The FIB agrees with its NameTree: the NameTree is well formed, each FIB entry sits on a
NameTree entry, has a nexthop and no two on one face, and `m_nItems` counts the entries. -/
structure Inv (st : State) : Prop where
  wf : st.tree.Wf
  mem_names : ∀ p ∈ st.entries, p ∈ st.tree.names
  nextHops : ∀ p nhs, st.entries.lookup p = some nhs → nhs ≠ [] ∧ (nhs.map NextHop.face).Nodup
  nItems : st.nItems = st.entries.keys.length

theorem nteHasFibEntry_eq (entries : Entries) (p : Name) :
    nteHasFibEntry entries p = decide (p ∈ entries) := by
  rw [nteHasFibEntry, Bool.eq_iff_iff, AList.lookup_isSome, decide_eq_true_iff]

/-- `Fib::Fib(nt)` on a new NameTree: no entry. -/
def init (nBuckets : Nat) (h : 0 < nBuckets) : State := ⟨NameTree.State.init nBuckets h, ∅, 0⟩

theorem inv_init (nBuckets : Nat) (h : 0 < nBuckets) : (init nBuckets h).Inv where
  wf := NameTree.State.wf_init nBuckets h
  mem_names _ hp := by simp [init] at hp
  nextHops _ _ hp := by simp [init] at hp
  nItems := rfl

variable {st : State}

/-- The search on the NameTree is the longest prefix match over the FIB's prefixes. -/
theorem Inv.findLongestPrefixMatch_eq (hi : st.Inv) (name : Name) :
    st.findLongestPrefixMatch name =
      match Fib.findLongestPrefixMatch st.entries.keys name with
      | some p => ⟨p, (st.entries.lookup p).getD []⟩
      | none => emptyEntry := by
  have hsel : (fun p => decide (p ∈ st.tree.names) && nteHasFibEntry st.entries p) =
      fun p => decide (p ∈ st.entries.keys) := by
    funext p
    rw [nteHasFibEntry_eq]
    by_cases hp : p ∈ st.entries
    · simp [hp, AList.mem_keys.mp hp, hi.mem_names p hp]
    · have hk : p ∉ st.entries.keys := fun h => hp (AList.mem_keys.mpr h)
      simp [hp, hk]
  rw [findLongestPrefixMatch, hi.wf.findLongestPrefixMatch_eq, hsel]
  rfl

section Count

variable {κ : Type _} [DecidableEq κ] {β : κ → Type _}

/-- The count after a key gets a value: one more when the key is new. -/
theorem length_keys_insert (s : AList β) (a : κ) (b : β a) :
    (s.insert a b).keys.length = if a ∈ s then s.keys.length else s.keys.length + 1 := by
  rw [AList.keys_insert, List.length_cons]
  by_cases ha : a ∈ s
  · have hk := AList.mem_keys.mp ha
    rw [List.length_erase_of_mem hk, if_pos ha]
    have := List.length_pos_of_mem hk
    omega
  · rw [List.erase_of_not_mem fun h => ha (AList.mem_keys.mpr h), if_neg ha]

theorem length_keys_erase {s : AList β} {a : κ} (ha : a ∈ s) :
    (s.erase a).keys.length = s.keys.length - 1 := by
  rw [AList.keys_erase, List.length_erase_of_mem (AList.mem_keys.mp ha)]

end Count

/-- What `addNextHop` leaves: the prefix looked up in the NameTree, and its entry's nexthops
updated. -/
theorem addNextHop_eq (sort : CostSort) (st : State) (prefix_ : Name) (face cost : Nat) :
    (FibManager.addNextHop sort st prefix_ face cost).1 =
      ⟨(st.tree.lookup prefix_ prefix_.length).1,
        st.entries.insert prefix_
          (FibEntry.addOrUpdateNextHop sort ((st.entries.lookup prefix_).getD []) face cost).1,
        if prefix_ ∈ st.entries then st.nItems else st.nItems + 1⟩ := by
  unfold FibManager.addNextHop insert Fib.addOrUpdateNextHop
  cases h : st.entries.lookup prefix_ with
  | none =>
    have hp : prefix_ ∉ st.entries := AList.lookup_eq_none.mp h
    simp [hp, AList.insert_insert]
  | some nhs =>
    have hp : prefix_ ∈ st.entries := AList.lookup_isSome.mp (by simp [h])
    simp [hp]

theorem Inv.addNextHop (hi : st.Inv) (sort : CostSort) (prefix_ : Name) (face cost : Nat) :
    (FibManager.addNextHop sort st prefix_ face cost).1.Inv := by
  rw [addNextHop_eq]
  have hk : prefix_.length ≤ prefix_.length := le_rfl
  set nhs := (st.entries.lookup prefix_).getD []
  have hnd : (nhs.map NextHop.face).Nodup := by
    cases h : st.entries.lookup prefix_ with
    | none => simp [nhs, h]
    | some v => simpa [nhs, h] using (hi.nextHops prefix_ v h).2
  refine ⟨(hi.wf.lookup hk).1, ?_, ?_, ?_⟩
  · intro q hq
    rcases (AList.mem_insert _).mp hq with rfl | hq
    · exact (hi.wf.mem_names_lookup hk).mpr (.inr ⟨_, le_rfl, List.take_length.symm⟩)
    · exact (hi.wf.mem_names_lookup hk).mpr (.inl (hi.mem_names q hq))
  · intro q v hv
    by_cases hq : q = prefix_
    · subst hq
      rw [AList.lookup_insert, Option.some.injEq] at hv
      subst hv
      exact ⟨List.ne_nil_of_mem (FibEntry.mem_addOrUpdateNextHop_self sort nhs face cost),
        FibEntry.nodup_faces_addOrUpdateNextHop sort nhs face cost hnd⟩
    · rw [AList.lookup_insert_ne hq] at hv
      exact hi.nextHops q v hv
  · rw [length_keys_insert, hi.nItems]

/-- What `removeNextHop` does to an entry of the table whose faces are distinct: nothing when
the face has no nexthop, else the face's nexthop goes, and the entry with it when it was the
last. -/
theorem removeNextHop_eq {p : Name} {nhs : List NextHop} (hnd : (nhs.map NextHop.face).Nodup)
    (face : Nat) :
    (st.removeNextHop ⟨p, nhs⟩ face).1 =
      if nhs.any (·.face = face) then
        if (nhs.filter (·.face ≠ face)).isEmpty then ⟨st.tree, st.entries.erase p, st.nItems - 1⟩
        else ⟨st.tree, st.entries.insert p (nhs.filter (·.face ≠ face)), st.nItems⟩
      else st := by
  simp only [removeNextHop, FibEntry.removeNextHop_eq hnd]
  split_ifs <;> simp_all [erase]

theorem Inv.removeNextHop (hi : st.Inv) {p : Name} {nhs : List NextHop}
    (hp : st.entries.lookup p = some nhs) (face : Nat) :
    (st.removeNextHop ⟨p, nhs⟩ face).1.Inv := by
  have hmem : p ∈ st.entries := AList.lookup_isSome.mp (by simp [hp])
  obtain ⟨-, hnd⟩ := hi.nextHops p nhs hp
  rw [removeNextHop_eq hnd]
  split_ifs with hany hempty
  · refine ⟨hi.wf, fun q hq => hi.mem_names q (AList.mem_erase.mp hq).2, fun q v hv => ?_, ?_⟩
    · by_cases hq : q = p
      · rw [hq, AList.lookup_erase] at hv
        cases hv
      · exact hi.nextHops q v (by rwa [AList.lookup_erase_ne hq] at hv)
    · rw [length_keys_erase hmem, hi.nItems]
  · refine ⟨hi.wf, fun q hq => ?_, fun q v hv => ?_, ?_⟩
    · rcases (AList.mem_insert _).mp hq with rfl | hq
      · exact hi.mem_names q hmem
      · exact hi.mem_names q hq
    · by_cases hq : q = p
      · subst hq
        rw [AList.lookup_insert, Option.some.injEq] at hv
        subst hv
        exact ⟨by simpa using hempty,
          (List.filter_sublist.map NextHop.face).nodup hnd⟩
      · exact hi.nextHops q v (by rwa [AList.lookup_insert_ne hq] at hv)
    · rw [length_keys_insert, if_pos hmem, hi.nItems]
  · exact hi

theorem Inv.removeNextHopCommand (hi : st.Inv) (prefix_ : Name) (face : Nat) :
    (FibManager.removeNextHop st prefix_ face).Inv := by
  unfold FibManager.removeNextHop findExactMatch
  rw [hi.wf.findExactMatch_eq]
  split_ifs
  · cases hp : st.entries.lookup prefix_ with
    | none => simpa [hp] using hi
    | some nhs => simpa [hp] using hi.removeNextHop hp face
  · exact hi

/-- Another table's call on the NameTree keeps the FIB's invariant: a `lookup` only adds
entries, and `eraseIfEmpty` sees the FIB entries, so it erases none of theirs. -/
theorem Inv.treeStep (hi : st.Inv) {op : NameTree.State.Op} {st' : State}
    (h : st.treeStep op = some st') : st'.Inv := by
  rw [treeStep.eq_def] at h
  cases op with
  | lookup name prefixLen =>
    obtain ⟨tree, htree, rfl⟩ := Option.map_eq_some_iff.mp h
    simp only [NameTree.State.step] at htree
    split_ifs at htree with hk
    cases htree
    exact ⟨(hi.wf.lookup hk.1).1,
      fun q hq => (hi.wf.mem_names_lookup hk.1).mpr (.inl (hi.mem_names q hq)),
      hi.nextHops, hi.nItems⟩
  | eraseIfEmpty entry canEraseAncestors hasOtherEntries =>
    obtain ⟨tree, htree, rfl⟩ := Option.map_eq_some_iff.mp h
    simp only [NameTree.State.step] at htree
    split_ifs at htree
    cases htree
    exact ⟨hi.wf.eraseIfEmpty _ _ _,
      fun q hq => (hi.wf.mem_names_eraseIfEmpty entry q).2 (hi.mem_names q hq)
        (by simp [nteHasFibEntry_eq, hq]),
      hi.nextHops, hi.nItems⟩

end State

end Fib

end MwNfd
