import MwNfd.Table.NameTreeIterator
import MwNfd.Mgmt.StrategyChoice
import MwNfd.Fw.Strategy

/-!
# Strategy choice on the NameTree (`strategy-choice.cpp`)

A strategy choice entry hangs on the NameTree entry of its prefix. The strategy of a name is the
one of the longest prefix that has an entry (`findEffectiveStrategy`, a longest-prefix match on
the NameTree). When the strategy of an entry changes to one of another type,
`StrategyChoice::changeStrategy` resets the StrategyInfo "on a portion of NameTree, where entry's
effective strategy is covered by the changing StrategyChoice entry": a partial enumeration below
the entry that does not go below another strategy choice entry.

The entries are the table `StrategyChoiceTable` of the management model, keyed by prefix; here
it is read together with the NameTree that holds them, which the FIB, the PIT and the
measurements share (`State.step`).

* `Wf.findLongestPrefixMatch_eq`: on a well-formed tree the search from `getMaxDepth()` down is
  the longest-prefix match over the entries.
* `StrategyChoice.changeStrategy_eq`: the enumeration of `changeStrategy` visits, each once, the
  entries whose effective strategy is the changed entry's, and no other.
* `State.Inv`: every strategy choice entry sits on an entry of the tree and the root has one;
  every call keeps it (`State.Inv.step`), so every name has an effective strategy.
* `State.Inv.insert`, `State.Inv.erase`: the StrategyInfo is reset on exactly the entries whose
  effective strategy the call changes to one of another type.
-/

namespace MwNfd

namespace NameTree

namespace State

/-- `NameTree::findLongestPrefixMatch(name, entrySelector)`: the prefixes of `name` from
`min(name.size(), getMaxDepth())` components down to none, the first whose entry exists and the
selector picks. -/
def findLongestPrefixMatch (s : State) (name : Name) (entrySelector : Name → Bool) :
    Option Name :=
  (List.range (min name.length maxDepth + 1)).reverse.findSome? fun i =>
    ((s.ht.findPrefix name i).map (·.name)).filter entrySelector

variable {s : State}

/-- `Hashtable::find` of a prefix gives its entry when there is one. -/
theorem Wf.findPrefix_name (hw : s.Wf) (name : Name) (i : Nat) :
    (s.ht.findPrefix name i).map (·.name) =
      Option.guard (fun p => decide (p ∈ s.names)) (name.take i) := by
  rw [hw.ht.findPrefix]
  cases h : s.ht.nodes.find? (fun x => x.name == name.take i) with
  | none =>
    have hn : name.take i ∉ s.names := fun hn => by
      obtain ⟨x, hx, hxn⟩ := mem_names.mp hn
      simpa [hxn] using List.find?_eq_none.mp h x hx
    simp [Option.guard, hn]
  | some x =>
    have hx : x.name = name.take i := by simpa using List.find?_some h
    have hn : name.take i ∈ s.names := mem_names.mpr ⟨x, List.mem_of_find?_eq_some h, hx⟩
    simp [Option.guard, hn, hx]

/-- On a well-formed tree the search is the longest-prefix match over the entries. -/
theorem Wf.findLongestPrefixMatch_eq (hw : s.Wf) (name : Name) (sel : Name → Bool) :
    s.findLongestPrefixMatch name sel =
      PrefixMatch.longestPrefixMatch (fun p => decide (p ∈ s.names) && sel p) maxDepth name := by
  unfold findLongestPrefixMatch PrefixMatch.longestPrefixMatch PrefixMatch.prefixesDesc
  simp only [hw.findPrefix_name, Option.filter_guard]
  rw [← List.findSome?_guard, List.findSome?_map]
  rfl

variable (f : Name → Bool × Bool)

/-- A range-for over `partialEnumerate(name, f)` of an entry within the depth visits the entries
of its subtree that `f` picks. -/
theorem Wf.visitAll_partialEnumerate (hw : s.Wf) {name : Name} (hname : name ∈ s.names)
    (hd : name.length ≤ maxDepth) {fuel rounds : Nat} (hfuel : s.enumFuel name ≤ fuel)
    (hrounds : s.names.length + 2 ≤ rounds) :
    visitAll s f fuel rounds (s.partialEnumerate name f fuel) =
      some (subtree s f (s.height + 1) name) := by
  have hfind : s.findExactMatch name = some name := by
    rw [hw.findExactMatch_eq, if_pos ⟨hd, hname⟩]
  have hsub := hw.subtree_self f hname
  have hlen := hw.length_subtree_le f hname
  unfold partialEnumerate advance
  rw [hfind]
  dsimp only
  by_cases h1 : (f name).1 = true
  · -- the entry itself comes first
    rw [if_pos h1, hw.visitAll_pending f hfuel hname List.prefix_rfl, hsub, if_pos h1]
    · rfl
    · rw [hsub, if_pos h1, List.length_append] at hlen
      simp only [List.length_singleton] at hlen
      omega
  · rw [if_neg h1]
    rw [if_neg h1, List.nil_append] at hsub
    rcases hw.advanceLoop_pending f length_lt_height_succ hname
        List.prefix_rfl ((loopMeasure_lt_enumFuel hname _).trans_le hfuel) with
      ⟨hnil, hend⟩ | ⟨x, hx, hxn, hrefx, hpend⟩
    · rw [hend, visitAll_endIterator f (by omega), hsub, hnil]
    · rw [hx, hw.visitAll_pending f hfuel hxn hrefx, hsub, hpend]
      rw [hsub, hpend, List.length_cons] at hlen
      omega

/-! ### What `lookup` and `eraseIfEmpty` do to the entries -/

/-- `lookup` adds the prefixes of the name up to `prefixLen` to the entries. -/
theorem Wf.mem_names_lookup (hw : s.Wf) {name : Name} {k : Nat} (hk : k ≤ name.length)
    {m : Name} : m ∈ (s.lookup name k).1.names ↔ m ∈ s.names ∨ ∃ i ≤ k, m = name.take i := by
  have hht : (s.lookup name k).1.ht = (NameTree.lookup s.ht name k).1 :=
    congrArg Prod.fst (lookup_ht s name k)
  constructor
  · intro hm
    obtain ⟨x, hx, rfl⟩ := mem_names.mp hm
    rw [hht] at hx
    rcases mem_nodes_lookup hk hx with hold | ⟨i, hi, rfl⟩
    · exact .inl (mem_names.mpr ⟨x, hold, rfl⟩)
    · exact .inr ⟨i, hi, rfl⟩
  · rintro (hm | ⟨i, hi, rfl⟩)
    · obtain ⟨x, hx, rfl⟩ := mem_names.mp hm
      exact mem_names.mpr ⟨x, hht ▸ nodes_subset_lookup hk hx, rfl⟩
    · obtain ⟨hw', x, hx, -, hxn⟩ := hw.lookup hk
      have := hw'.take_mem (mem_names.mpr ⟨x, hx, hxn⟩) i
      rwa [List.take_take, Nat.min_eq_left hi] at this

section EraseIfEmpty

variable {hasOtherEntries : Name → Bool} {canEraseAncestors : Bool} {fuel nErased : Nat}

/-- `eraseIfEmpty` only erases, and never an entry another table has an entry on. -/
theorem Wf.mem_names_eraseIfEmptyLoop (hw : s.Wf) (entry : Option Name) (m : Name) :
    (m ∈ (State.eraseIfEmptyLoop hasOtherEntries canEraseAncestors fuel s entry nErased).1.names →
        m ∈ s.names) ∧
      (m ∈ s.names → hasOtherEntries m = true → m ∈
        (State.eraseIfEmptyLoop hasOtherEntries canEraseAncestors fuel s entry nErased).1.names) := by
  induction fuel generalizing s entry nErased with
  | zero => exact ⟨id, fun h _ => h⟩
  | succ fuel ih =>
    rcases entry with _ | e
    · rw [eraseIfEmptyLoop_none]
      exact ⟨id, fun h _ => h⟩
    cases hnode : s.getNode e with
    | none =>
      rw [eraseIfEmptyLoop_of_getNode_none hnode]
      exact ⟨id, fun h _ => h⟩
    | some nte =>
      cases hempty : s.isEmpty hasOtherEntries nte with
      | false =>
        rw [eraseIfEmptyLoop_of_not_isEmpty hnode hempty]
        exact ⟨id, fun h _ => h⟩
      | true =>
        have hx := (getNode_eq_some hnode).1
        have hw' := hw.eraseEntry hx (children_eq_nil_of_isEmpty hempty)
        -- the erased entry has no other table's entry
        have hother : hasOtherEntries nte.name = false := by
          simp only [isEmpty, Bool.and_eq_true, Bool.not_eq_true'] at hempty
          exact hempty.2
        have hstep : (m ∈ (s.eraseEntry nte).names → m ∈ s.names) ∧
            (m ∈ s.names → hasOtherEntries m = true → m ∈ (s.eraseEntry nte).names) :=
          ⟨fun h => ((hw.mem_names_eraseEntry hx).mp h).2, fun h ho =>
            (hw.mem_names_eraseEntry hx).mpr ⟨fun he => absurd (he ▸ ho) (by rw [hother]; decide), h⟩⟩
        rw [eraseIfEmptyLoop_of_isEmpty hnode hempty]
        split
        · exact hstep
        · obtain ⟨h1, h2⟩ := ih hw' (s.links.parent nte.name)
          exact ⟨fun h => hstep.1 (h1 h), fun h ho => h2 (hstep.2 h ho) ho⟩

theorem Wf.mem_names_eraseIfEmpty (hw : s.Wf) (entry m : Name) :
    (m ∈ (s.eraseIfEmpty hasOtherEntries entry canEraseAncestors).1.names → m ∈ s.names) ∧
      (m ∈ s.names → hasOtherEntries m = true →
        m ∈ (s.eraseIfEmpty hasOtherEntries entry canEraseAncestors).1.names) :=
  hw.mem_names_eraseIfEmptyLoop _ m

end EraseIfEmpty

end State

end NameTree

namespace StrategyChoice

open NameTree.State

variable (t : StrategyChoiceTable)

/-- `nteHasStrategyChoiceEntry`. -/
def nteHasStrategyChoiceEntry (nte : Name) : Bool :=
  (t.lookup nte).isSome

/-- `StrategyChoice::findEffectiveStrategy(prefix)`: the entry whose strategy governs `prefix`,
the longest prefix with a strategy choice entry; `none` where the source asserts. -/
def findEffectiveStrategy (s : NameTree.State) (prefix_ : Name) : Option Name :=
  s.findLongestPrefixMatch prefix_ (nteHasStrategyChoiceEntry t)

/-- The selector of `changeStrategy`'s enumeration: the entry itself, and below it each entry
that has no strategy choice entry. -/
def changeStrategySelector (rootNte nte : Name) : Bool × Bool :=
  if nte = rootNte then (true, true)
  else if nteHasStrategyChoiceEntry t nte then (false, false)
  else (true, true)

/-- `StrategyChoice::changeStrategy(entry, oldStrategy, newStrategy)`: the entries whose
StrategyInfo `clearStrategyInfo` resets, none when the two strategies are of the same type. The
enumeration's loops get the fuel `enumFuel` and a round for each entry. -/
def changeStrategy (areSameType : Name → Name → Bool) (s : NameTree.State)
    (entry oldInstanceName newInstanceName : Name) : Option (List Name) :=
  if areSameType oldInstanceName newInstanceName then some []
  else
    s.visitAll (changeStrategySelector t entry) (s.enumFuel entry) (s.names.length + 2)
      (s.partialEnumerate entry (changeStrategySelector t entry) (s.enumFuel entry))

/-- The NameTree and the strategy choice entries on it. -/
structure State where
  tree : NameTree.State
  choice : StrategyChoiceTable

/-- The instance name of the strategy `findEffectiveStrategy` returns for `name`. -/
def State.effectiveStrategy (st : State) (name : Name) : Option Name :=
  (findEffectiveStrategy st.choice st.tree name).bind st.choice.lookup

section Operations

variable (areSameType : Name → Name → Bool)

/-- `StrategyChoice::insert(prefix, strategyName)`: the result, the tables after, and the entries
whose StrategyInfo is reset; `none` where the source asserts. `create` is what `Strategy::create`
does with the strategy name. -/
def State.insert (create : Name → CreateResult) (st : State) (prefix_ strategyName : Name) :
    Option (InsertResult × State × List Name) :=
  if prefix_.length > maxDepth then some (.depthExceeded, st, [])
  else
    match create strategyName with
    | .nullptr => some (.notRegistered, st, [])
    -- `catch (const std::invalid_argument& e)`
    | .invalidArgument => some (.exception, st, [])
    | .strategy instanceName =>
      let tree := (st.tree.lookup prefix_ prefix_.length).1
      match st.choice.lookup prefix_ with
      | some oldInstanceName =>
        if oldInstanceName = instanceName then some (.ok, ⟨tree, st.choice⟩, [])
        else (changeStrategy st.choice areSameType tree prefix_ oldInstanceName instanceName).map
          fun cleared => (.ok, ⟨tree, st.choice.insert prefix_ instanceName⟩, cleared)
      | none =>
        -- the old strategy is the prefix's effective one; the new entry is attached before the
        -- change, its strategy after
        match (findEffectiveStrategy st.choice tree prefix_).bind st.choice.lookup with
        | none => none
        | some oldInstanceName =>
          let choice := st.choice.insert prefix_ instanceName
          (changeStrategy choice areSameType tree prefix_ oldInstanceName instanceName).map
            fun cleared => (.ok, ⟨tree, choice⟩, cleared)

/-- `StrategyChoice::erase(prefix)`: the tables after and the entries whose StrategyInfo is reset;
`none` where the source asserts. `hasOtherEntries` says which entries have a FIB or measurements
entry when `eraseIfEmpty` runs. -/
def State.erase (hasOtherEntries : Name → Bool) (st : State) (prefix_ : Name) :
    Option (State × List Name) :=
  if prefix_ = [] then none
  else
    match st.tree.findExactMatch prefix_ with
    | none => some (st, [])
    | some nte =>
      match st.choice.lookup nte with
      | none => some (st, [])
      | some oldInstanceName =>
        match (findEffectiveStrategy st.choice st.tree prefix_.dropLast).bind st.choice.lookup with
        | none => none
        | some parentInstanceName =>
          -- the change runs while the entry is still attached
          (changeStrategy st.choice areSameType st.tree nte oldInstanceName parentInstanceName).map
            fun cleared =>
              let choice := st.choice.erase nte
              (⟨(st.tree.eraseIfEmpty (fun e => hasOtherEntries e || nteHasStrategyChoiceEntry choice e)
                nte true).1, choice⟩, cleared)

end Operations

/-- `StrategyChoice::setDefaultStrategy(strategyName)`: the root's entry, with the instance name
of the strategy `create` makes; `none` where the exception propagates or the null strategy is
read. -/
def State.setDefaultStrategy (create : Name → CreateResult) (st : State) (strategyName : Name) :
    Option State :=
  match create strategyName with
  | .strategy instanceName => some ⟨(st.tree.lookup [] 0).1, st.choice.insert [] instanceName⟩
  | _ => none

/-- A call on the tables: a strategy choice `insert` or `erase`, or another table's call on the
shared NameTree. -/
inductive Op where
  | insert (prefix_ strategyName : Name)
  | erase (prefix_ : Name) (hasOtherEntries : Name → Bool)
  | tree (op : NameTree.State.Op)

/-- A call on the tables, refused where the source asserts. Another table's `eraseIfEmpty` also
sees the strategy choice entries: `Entry::isEmpty` reads `m_strategyChoiceEntry`. -/
def State.step (areSameType : Name → Name → Bool) (create : Name → CreateResult) (st : State) :
    Op → Option State
  | .insert prefix_ strategyName =>
    (st.insert areSameType create prefix_ strategyName).map (·.2.1)
  | .erase prefix_ hasOtherEntries => (st.erase areSameType hasOtherEntries prefix_).map (·.1)
  | .tree (.lookup name prefixLen) =>
    (st.tree.step (.lookup name prefixLen)).map (⟨·, st.choice⟩)
  | .tree (.eraseIfEmpty entry canEraseAncestors hasOtherEntries) =>
    (st.tree.step (.eraseIfEmpty entry canEraseAncestors
      fun e => hasOtherEntries e || nteHasStrategyChoiceEntry st.choice e)).map (⟨·, st.choice⟩)

section Change

variable {t} {s : NameTree.State} {entry : Name}

theorem changeStrategySelector_eq (nte : Name) :
    changeStrategySelector t entry nte =
      (decide (nte = entry) || !nteHasStrategyChoiceEntry t nte,
        decide (nte = entry) || !nteHasStrategyChoiceEntry t nte) := by
  unfold changeStrategySelector
  by_cases h : nte = entry
  · simp [h]
  · cases nteHasStrategyChoiceEntry t nte <;> simp [h]

/-- The effective strategy of an entry under `entry` is `entry`'s exactly when no entry on the
way down from `entry` has a strategy choice entry. -/
theorem findEffectiveStrategy_eq_iff (hw : s.Wf) (hdepth : ∀ n ∈ s.names, n.length ≤ maxDepth)
    (hentry : entry ∈ s.names) (hsc : nteHasStrategyChoiceEntry t entry = true) {e : Name}
    (he : e ∈ s.names) :
    findEffectiveStrategy t s e = some entry ↔ entry <+: e ∧
      ∀ i, entry.length < i → i ≤ e.length → nteHasStrategyChoiceEntry t (e.take i) = false := by
  unfold findEffectiveStrategy
  rw [hw.findLongestPrefixMatch_eq, PrefixMatch.longestPrefixMatch_eq_some_iff]
  constructor
  · rintro ⟨hpre, -, -, hmax⟩
    refine ⟨hpre, fun i hi hie => ?_⟩
    have hq := hmax (e.take i) (List.take_prefix i e)
      (by rw [List.length_take]; exact (Nat.min_le_right _ _).trans (hdepth e he))
      (by rw [List.length_take]; omega)
    simpa [hw.take_mem he i] using hq
  · rintro ⟨hpre, hmax⟩
    refine ⟨hpre, hdepth entry hentry, by simp [hentry, hsc], fun q hq _ hlt => ?_⟩
    have hqe := List.prefix_iff_eq_take.mp hq
    have := hmax q.length hlt hq.length_le
    rw [← hqe] at this
    simp [this]

/-- On the way down from `entry` to `e`, the enumeration's selector is true exactly where the
prefix is `entry` itself or has no strategy choice entry. -/
theorem changeStrategySelector_take {e : Name} (hpre : entry <+: e) {i : Nat}
    (hi : i ≤ e.length) :
    (changeStrategySelector t entry (e.take i)).2 =
      (decide (i = entry.length) || !nteHasStrategyChoiceEntry t (e.take i)) := by
  have hlen : (e.take i).length = i := by
    rw [List.length_take]
    omega
  have heq : e.take i = entry ↔ i = entry.length := by
    constructor
    · rintro h
      rw [← h, hlen]
    · rintro rfl
      exact (List.prefix_iff_eq_take.mp hpre).symm
  rw [changeStrategySelector_eq]
  simp only [heq]

/-- When the two strategies differ in type, `changeStrategy` resets the StrategyInfo of the
entries whose effective strategy is the changed entry's, each once, and of no other entry. -/
theorem changeStrategy_eq (areSameType : Name → Name → Bool) (hw : s.Wf)
    (hdepth : ∀ n ∈ s.names, n.length ≤ maxDepth) (hentry : entry ∈ s.names)
    (hsc : nteHasStrategyChoiceEntry t entry = true) {oldInstanceName newInstanceName : Name}
    (hdiff : areSameType oldInstanceName newInstanceName = false) :
    ∃ l, changeStrategy t areSameType s entry oldInstanceName newInstanceName = some l ∧
      l.Nodup ∧ ∀ e, e ∈ l ↔ e ∈ s.names ∧ findEffectiveStrategy t s e = some entry := by
  refine ⟨subtree s (changeStrategySelector t entry) (s.height + 1) entry, ?_,
    Links.nodup_select hw.links _ hw.ranked _ _, fun e => ?_⟩
  · rw [changeStrategy, hdiff]
    exact hw.visitAll_partialEnumerate _ hentry (hdepth entry hentry) le_rfl le_rfl
  rw [hw.mem_subtree_iff _ hentry]
  constructor
  · rintro ⟨he, hpre, hself, hpath⟩
    refine ⟨he, (findEffectiveStrategy_eq_iff hw hdepth hentry hsc he).mpr ⟨hpre, fun i hi hie => ?_⟩⟩
    -- the selector's second bit at `e.take i`, for `e` itself from its first bit
    have hsel : (changeStrategySelector t entry (e.take i)).2 = true := by
      rcases Nat.lt_or_ge i e.length with hlt | hge
      · exact hpath i (by omega) hlt
      · rw [List.take_of_length_le hge, changeStrategySelector_eq]
        rw [changeStrategySelector_eq] at hself
        exact hself
    rw [changeStrategySelector_take hpre hie] at hsel
    simpa [show i ≠ entry.length by omega] using hsel
  · rintro ⟨he, hfind⟩
    obtain ⟨hpre, hmax⟩ := (findEffectiveStrategy_eq_iff hw hdepth hentry hsc he).mp hfind
    -- below `entry` no prefix of `e` has a strategy choice entry
    have hbit : ∀ i, entry.length ≤ i → i ≤ e.length →
        (changeStrategySelector t entry (e.take i)).2 = true := by
      intro i hi hie
      rw [changeStrategySelector_take hpre hie]
      rcases Nat.lt_or_ge entry.length i with hlt | hge
      · simp [hmax i hlt hie]
      · simp [show i = entry.length by omega]
    refine ⟨he, hpre, ?_, fun i hi hie => hbit i hi hie.le⟩
    have := hbit e.length hpre.length_le le_rfl
    rw [List.take_length, changeStrategySelector_eq] at this
    rw [changeStrategySelector_eq]
    exact this

/-- What `changeStrategy` resets: nothing for two strategies of one type, and else the entries
whose effective strategy is the changed entry's. -/
theorem changeStrategy_mem (areSameType : Name → Name → Bool) (hw : s.Wf)
    (hdepth : ∀ n ∈ s.names, n.length ≤ maxDepth) (hentry : entry ∈ s.names)
    (hsc : nteHasStrategyChoiceEntry t entry = true) (oldInstanceName newInstanceName : Name) :
    ∃ l, changeStrategy t areSameType s entry oldInstanceName newInstanceName = some l ∧
      l.Nodup ∧ ∀ e, e ∈ l ↔ areSameType oldInstanceName newInstanceName = false ∧
        e ∈ s.names ∧ findEffectiveStrategy t s e = some entry := by
  cases hsame : areSameType oldInstanceName newInstanceName
  · obtain ⟨l, hl, hnd, hmem⟩ := changeStrategy_eq areSameType hw hdepth hentry hsc hsame
    exact ⟨l, hl, hnd, fun e => by simp [hmem e]⟩
  · exact ⟨[], by simp [changeStrategy, hsame], List.nodup_nil, by simp⟩

end Change

/-! ## The invariant of the tables -/

section Tables

@[simp] theorem nteHasStrategyChoiceEntry_insert (t : StrategyChoiceTable) (p v q : Name) :
    nteHasStrategyChoiceEntry (t.insert p v) q =
      (decide (q = p) || nteHasStrategyChoiceEntry t q) := by
  unfold nteHasStrategyChoiceEntry
  by_cases h : q = p
  · subst h
    simp [AList.lookup_insert]
  · simp [AList.lookup_insert_ne h, h]

@[simp] theorem nteHasStrategyChoiceEntry_erase (t : StrategyChoiceTable) (p q : Name) :
    nteHasStrategyChoiceEntry (t.erase p) q =
      (!decide (q = p) && nteHasStrategyChoiceEntry t q) := by
  unfold nteHasStrategyChoiceEntry
  by_cases h : q = p
  · subst h
    simp [AList.lookup_erase]
  · simp [AList.lookup_erase_ne h, h]

/-- With every strategy choice entry on an entry of the tree, the effective strategy's entry is
the longest prefix with a strategy choice entry. -/
theorem findEffectiveStrategy_eq_of_keys {t : StrategyChoiceTable} {s : NameTree.State}
    (hw : s.Wf) (hkeys : ∀ p, nteHasStrategyChoiceEntry t p = true → p ∈ s.names) (name : Name) :
    findEffectiveStrategy t s name =
      PrefixMatch.longestPrefixMatch (nteHasStrategyChoiceEntry t) maxDepth name := by
  unfold findEffectiveStrategy
  rw [hw.findLongestPrefixMatch_eq]
  refine PrefixMatch.longestPrefixMatch_congr fun p _ _ => ?_
  cases h : nteHasStrategyChoiceEntry t p
  · simp
  · simp [hkeys p h]

/-- The invariant of the tables: a well-formed NameTree within the depth, every strategy choice
entry on an entry of the tree, and one at the root, which `setDefaultStrategy` puts there and
`erase` never takes. -/
structure State.Inv (st : State) : Prop where
  wf : st.tree.Wf
  depth : ∀ n ∈ st.tree.names, n.length ≤ maxDepth
  keys : ∀ p, nteHasStrategyChoiceEntry st.choice p = true → p ∈ st.tree.names
  root : nteHasStrategyChoiceEntry st.choice [] = true

variable {st : State}

theorem State.Inv.effectiveStrategy_eq (hinv : st.Inv) (name : Name) :
    st.effectiveStrategy name =
      (PrefixMatch.longestPrefixMatch (nteHasStrategyChoiceEntry st.choice) maxDepth name).bind
        st.choice.lookup := by
  rw [State.effectiveStrategy, findEffectiveStrategy_eq_of_keys hinv.wf hinv.keys]

/-- On the invariant every name has an effective strategy: `findEffectiveStrategy` never meets
its assertion. -/
theorem State.Inv.effectiveStrategy_isSome (hinv : st.Inv) (name : Name) :
    (st.effectiveStrategy name).isSome := by
  rw [hinv.effectiveStrategy_eq]
  obtain ⟨p, hp⟩ := Option.isSome_iff_exists.mp
    (PrefixMatch.longestPrefixMatch_isSome hinv.root maxDepth name)
  rw [hp, Option.bind_some]
  exact PrefixMatch.sel_of_longestPrefixMatch_eq_some hp

/-- Another table's `lookup` within the depth keeps the invariant. -/
theorem State.Inv.lookup (hinv : st.Inv) {name : Name} {k : Nat} (hk : k ≤ name.length)
    (hd : k ≤ maxDepth) : State.Inv ⟨(st.tree.lookup name k).1, st.choice⟩ where
  wf := (hinv.wf.lookup hk).1
  depth n hn := by
    rcases (hinv.wf.mem_names_lookup hk).mp hn with hn | ⟨i, hi, rfl⟩
    · exact hinv.depth n hn
    · rw [List.length_take]
      omega
  keys p hp := (hinv.wf.mem_names_lookup hk).mpr (.inl (hinv.keys p hp))
  root := hinv.root

/-- `eraseIfEmpty` that sees the strategy choice entries of a table with fewer entries, the root's
among them, keeps the invariant with that table. -/
theorem State.Inv.eraseIfEmpty (hinv : st.Inv) {t : StrategyChoiceTable}
    (ht : ∀ p, nteHasStrategyChoiceEntry t p = true → nteHasStrategyChoiceEntry st.choice p = true)
    (hroot : nteHasStrategyChoiceEntry t [] = true) (hasOtherEntries : Name → Bool)
    (entry : Name) (canEraseAncestors : Bool) :
    State.Inv ⟨(st.tree.eraseIfEmpty (fun e => hasOtherEntries e || nteHasStrategyChoiceEntry t e)
      entry canEraseAncestors).1, t⟩ where
  wf := hinv.wf.eraseIfEmpty _ _ _
  depth n hn := hinv.depth n ((hinv.wf.mem_names_eraseIfEmpty entry n).1 hn)
  keys p hp := (hinv.wf.mem_names_eraseIfEmpty entry p).2 (hinv.keys p (ht p hp)) (by simp [hp])
  root := hroot

/-- A strategy choice entry on an entry of the tree keeps the invariant. -/
theorem State.Inv.insertEntry (hinv : st.Inv) {p : Name} (hp : p ∈ st.tree.names) (v : Name) :
    State.Inv ⟨st.tree, st.choice.insert p v⟩ where
  wf := hinv.wf
  depth := hinv.depth
  keys q hq := by
    rw [nteHasStrategyChoiceEntry_insert, Bool.or_eq_true, decide_eq_true_eq] at hq
    rcases hq with rfl | hq
    · exact hp
    · exact hinv.keys q hq
  root := by simp [hinv.root]

end Tables

/-! ## How an entry changes the effective strategies -/

section Effective

open PrefixMatch

variable (t : StrategyChoiceTable) (p v : Name) {e : Name}

/-- After an entry for `p` is set, the names whose longest match is `p` get its strategy, and had
the strategy `p` had before. -/
theorem effective_insert_of_eq (h : longestPrefixMatch (nteHasStrategyChoiceEntry (t.insert p v))
    maxDepth e = some p) :
    (longestPrefixMatch (nteHasStrategyChoiceEntry t) maxDepth e).bind t.lookup =
        (longestPrefixMatch (nteHasStrategyChoiceEntry t) maxDepth p).bind t.lookup ∧
      (longestPrefixMatch (nteHasStrategyChoiceEntry (t.insert p v)) maxDepth e).bind
        (t.insert p v).lookup = some v := by
  obtain ⟨hpre, -, -, hmax⟩ := longestPrefixMatch_eq_some_iff.mp h
  refine ⟨?_, by rw [h, Option.bind_some, AList.lookup_insert]⟩
  -- no longer prefix of `e` has an entry, before as after
  rw [longestPrefixMatch_eq_of_isPrefix hpre fun q hq hqd hlt => ?_]
  have := hmax q hq hqd hlt
  simp only [nteHasStrategyChoiceEntry_insert, Bool.or_eq_false_iff] at this
  exact this.2

/-- The other names keep their strategy. -/
theorem effective_insert_of_ne (h : longestPrefixMatch (nteHasStrategyChoiceEntry (t.insert p v))
    maxDepth e ≠ some p) :
    (longestPrefixMatch (nteHasStrategyChoiceEntry (t.insert p v)) maxDepth e).bind
        (t.insert p v).lookup =
      (longestPrefixMatch (nteHasStrategyChoiceEntry t) maxDepth e).bind t.lookup := by
  have himp : ∀ q, nteHasStrategyChoiceEntry t q = true →
      nteHasStrategyChoiceEntry (t.insert p v) q = true := fun q hq => by simp [hq]
  cases hm : longestPrefixMatch (nteHasStrategyChoiceEntry (t.insert p v)) maxDepth e with
  | none =>
    rw [longestPrefixMatch_eq_none_of_imp himp hm]
    rfl
  | some q =>
    have hqp : q ≠ p := fun hqp => h (hqp ▸ hm)
    have hq := sel_of_longestPrefixMatch_eq_some hm
    simp only [nteHasStrategyChoiceEntry_insert, hqp, decide_false, Bool.false_or] at hq
    rw [longestPrefixMatch_eq_of_imp himp hm hq, Option.bind_some, Option.bind_some,
      AList.lookup_insert_ne hqp]

/-- After the entry of `p` is erased, the names whose longest match was `p` get the strategy of
the longest match of `p` without its last component. -/
theorem effective_erase_of_eq (hp : p ≠ [])
    (h : longestPrefixMatch (nteHasStrategyChoiceEntry t) maxDepth e = some p) :
    (longestPrefixMatch (nteHasStrategyChoiceEntry (t.erase p)) maxDepth e).bind (t.erase p).lookup =
      (longestPrefixMatch (nteHasStrategyChoiceEntry t) maxDepth p.dropLast).bind t.lookup := by
  obtain ⟨hpre, -, -, hmax⟩ := longestPrefixMatch_eq_some_iff.mp h
  have hlen : p.dropLast.length < p.length := by
    rw [List.length_dropLast]
    have := List.length_pos_iff.mpr hp
    omega
  -- a prefix of `p` without its last component is not `p`
  have hne : ∀ q, q <+: p.dropLast → q ≠ p := fun q hq hqp => by
    have := hq.length_le
    rw [hqp] at this
    omega
  have h1 : longestPrefixMatch (nteHasStrategyChoiceEntry (t.erase p)) maxDepth e =
      longestPrefixMatch (nteHasStrategyChoiceEntry (t.erase p)) maxDepth p :=
    longestPrefixMatch_eq_of_isPrefix hpre fun q hq hqd hlt => by simp [hmax q hq hqd hlt]
  have h2 : longestPrefixMatch (nteHasStrategyChoiceEntry (t.erase p)) maxDepth p =
      longestPrefixMatch (nteHasStrategyChoiceEntry (t.erase p)) maxDepth p.dropLast :=
    longestPrefixMatch_eq_of_isPrefix (List.dropLast_prefix p) fun q hq _ hlt => by
      rw [hq.eq_of_length (by have := hq.length_le; rw [List.length_dropLast] at hlt; omega)]
      simp
  have h3 : longestPrefixMatch (nteHasStrategyChoiceEntry (t.erase p)) maxDepth p.dropLast =
      longestPrefixMatch (nteHasStrategyChoiceEntry t) maxDepth p.dropLast :=
    longestPrefixMatch_congr fun q hq _ => by simp [hne q hq]
  rw [h1, h2, h3]
  cases hm : longestPrefixMatch (nteHasStrategyChoiceEntry t) maxDepth p.dropLast with
  | none => rfl
  | some r =>
    have hr := (longestPrefixMatch_eq_some_iff.mp hm).1
    rw [Option.bind_some, Option.bind_some, AList.lookup_erase_ne (hne r hr)]

/-- The other names keep their strategy. -/
theorem effective_erase_of_ne
    (h : longestPrefixMatch (nteHasStrategyChoiceEntry t) maxDepth e ≠ some p) :
    (longestPrefixMatch (nteHasStrategyChoiceEntry (t.erase p)) maxDepth e).bind (t.erase p).lookup =
      (longestPrefixMatch (nteHasStrategyChoiceEntry t) maxDepth e).bind t.lookup := by
  have himp : ∀ q, nteHasStrategyChoiceEntry (t.erase p) q = true →
      nteHasStrategyChoiceEntry t q = true := fun q hq => by
    simp only [nteHasStrategyChoiceEntry_erase, Bool.and_eq_true] at hq
    exact hq.2
  cases hm : longestPrefixMatch (nteHasStrategyChoiceEntry t) maxDepth e with
  | none =>
    rw [longestPrefixMatch_eq_none_of_imp himp hm]
    rfl
  | some q =>
    have hqp : q ≠ p := fun hqp => h (hqp ▸ hm)
    have hq : nteHasStrategyChoiceEntry (t.erase p) q = true := by
      simp [hqp, sel_of_longestPrefixMatch_eq_some hm]
    rw [longestPrefixMatch_eq_of_imp himp hm hq, Option.bind_some, Option.bind_some,
      AList.lookup_erase_ne hqp]

end Effective

/-! ## What `insert` and `erase` reset -/

section Reset

open PrefixMatch

variable {areSameType : Name → Name → Bool} {st : State}

/-- A strategy that stays the same is of the same type. -/
theorem not_reset_of_eq (hrefl : ∀ a, areSameType a a = true) {before after : Option Name}
    (h : before = after) :
    ¬ ∃ a b, before = some a ∧ after = some b ∧ areSameType a b = false := by
  rintro ⟨a, b, ha, hb, hab⟩
  rw [← h, ha, Option.some.injEq] at hb
  rw [← hb, hrefl] at hab
  cases hab

/-- The shape `insert` and `erase` share: the change resets the entries it governs when the two
strategies differ in type; a governed entry goes from `old` to `new`, the others keep their
strategy. Then the entries reset are those whose strategy changes to one of another type. -/
theorem mem_reset_iff (hrefl : ∀ a, areSameType a a = true) {l names : List Name}
    {governs : Name → Prop} {before after : Name → Option Name} {old new : Name}
    (hmem : ∀ e, e ∈ l ↔ areSameType old new = false ∧ e ∈ names ∧ governs e)
    (hgov : ∀ e, governs e → before e = some old ∧ after e = some new)
    (hother : ∀ e, ¬ governs e → before e = after e) :
    ∀ e ∈ names, e ∈ l ↔
      ∃ a b, before e = some a ∧ after e = some b ∧ areSameType a b = false := by
  intro e he
  rw [hmem e]
  by_cases hg : governs e
  · obtain ⟨h1, h2⟩ := hgov e hg
    simp [hg, he, h1, h2]
  · simp only [hg, and_false, false_iff]
    exact not_reset_of_eq hrefl (hother e hg)

/-- `StrategyChoice::insert` of a registered strategy within the depth succeeds, keeps the
invariant, and resets the StrategyInfo of exactly the entries whose effective strategy it changes
to one of another type. -/
theorem State.Inv.insert (hrefl : ∀ a, areSameType a a = true) (hinv : st.Inv)
    {create : Name → CreateResult} {prefix_ strategyName instanceName : Name}
    (hd : prefix_.length ≤ maxDepth) (hinst : create strategyName = .strategy instanceName) :
    ∃ st' cleared, st.insert areSameType create prefix_ strategyName = some (.ok, st', cleared) ∧
      st'.Inv ∧ cleared.Nodup ∧ ∀ e ∈ st'.tree.names, e ∈ cleared ↔ ∃ a b,
        st.effectiveStrategy e = some a ∧ st'.effectiveStrategy e = some b ∧
          areSameType a b = false := by
  have hinv' : State.Inv ⟨(st.tree.lookup prefix_ prefix_.length).1, st.choice⟩ :=
    hinv.lookup le_rfl hd
  have hp : prefix_ ∈ (st.tree.lookup prefix_ prefix_.length).1.names :=
    (hinv.wf.mem_names_lookup le_rfl).mpr (.inr ⟨_, le_rfl, List.take_length.symm⟩)
  have hinv'' : State.Inv ⟨(st.tree.lookup prefix_ prefix_.length).1,
      st.choice.insert prefix_ instanceName⟩ := hinv'.insertEntry hp instanceName
  have hbefore := hinv.effectiveStrategy_eq
  have hafter := hinv''.effectiveStrategy_eq
  simp only [State.insert, show ¬ prefix_.length > maxDepth by omega, if_false, hinst]
  cases hold : st.choice.lookup prefix_ with
  | some oldInstanceName =>
    have hsc : nteHasStrategyChoiceEntry st.choice prefix_ = true := by
      simp [nteHasStrategyChoiceEntry, hold]
    by_cases hsame : oldInstanceName = instanceName
    · -- the same instance name: nothing changes
      refine ⟨_, [], by simp [hsame], hinv', List.nodup_nil, fun e _ => ?_⟩
      simp only [List.not_mem_nil, false_iff]
      exact not_reset_of_eq hrefl (by rw [hbefore, hinv'.effectiveStrategy_eq])
    · -- the prefix keeps its entry: the same names have one
      have hsel : nteHasStrategyChoiceEntry (st.choice.insert prefix_ instanceName) =
          nteHasStrategyChoiceEntry st.choice := funext fun q => by
        by_cases hq : q = prefix_ <;> simp [hq, hsc]
      obtain ⟨l, hl, hnd, hmem⟩ := changeStrategy_mem areSameType hinv'.wf hinv'.depth hp hsc
        oldInstanceName instanceName
      refine ⟨_, l, by simp [hsame, hl], hinv'', hnd, mem_reset_iff hrefl hmem (fun e hg => ?_)
        (fun e hg => ?_)⟩
      · rw [findEffectiveStrategy_eq_of_keys hinv'.wf hinv'.keys, ← hsel] at hg
        obtain ⟨h1, h2⟩ := effective_insert_of_eq st.choice prefix_ instanceName hg
        rw [hbefore, h1, longestPrefixMatch_self hsc hd, Option.bind_some, hold, hafter]
        exact ⟨rfl, h2⟩
      · rw [findEffectiveStrategy_eq_of_keys hinv'.wf hinv'.keys, ← hsel] at hg
        rw [hbefore, hafter, effective_insert_of_ne st.choice prefix_ instanceName hg]
  | none =>
    -- a new entry: the old strategy is the one the prefix had
    obtain ⟨oldInstanceName, hfind⟩ := Option.isSome_iff_exists.mp
      (hinv'.effectiveStrategy_isSome prefix_)
    have hsc : nteHasStrategyChoiceEntry (st.choice.insert prefix_ instanceName) prefix_ = true := by
      simp
    obtain ⟨l, hl, hnd, hmem⟩ := changeStrategy_mem areSameType hinv''.wf hinv''.depth hp hsc
      oldInstanceName instanceName
    refine ⟨_, l, ?_, hinv'', hnd, mem_reset_iff hrefl hmem (fun e hg => ?_) (fun e hg => ?_)⟩
    · simp only [State.effectiveStrategy] at hfind
      simp [hfind, hl]
    · rw [findEffectiveStrategy_eq_of_keys hinv''.wf hinv''.keys] at hg
      obtain ⟨h1, h2⟩ := effective_insert_of_eq st.choice prefix_ instanceName hg
      rw [hinv'.effectiveStrategy_eq] at hfind
      rw [hbefore, h1, hfind, hafter]
      exact ⟨rfl, h2⟩
    · rw [findEffectiveStrategy_eq_of_keys hinv''.wf hinv''.keys] at hg
      rw [hbefore, hafter, effective_insert_of_ne st.choice prefix_ instanceName hg]

/-- `StrategyChoice::erase` of a prefix other than the root succeeds, keeps the invariant, and
resets the StrategyInfo of exactly the entries whose effective strategy it changes to one of
another type. -/
theorem State.Inv.erase (hrefl : ∀ a, areSameType a a = true) (hinv : st.Inv)
    (hasOtherEntries : Name → Bool) {prefix_ : Name} (hp0 : prefix_ ≠ []) :
    ∃ st' cleared, st.erase areSameType hasOtherEntries prefix_ = some (st', cleared) ∧
      st'.Inv ∧ ∀ e ∈ st.tree.names, e ∈ cleared ↔ ∃ a b, st.effectiveStrategy e = some a ∧
        st'.effectiveStrategy e = some b ∧ areSameType a b = false := by
  have hbefore := hinv.effectiveStrategy_eq
  -- with no entry to erase nothing changes
  have hnone : ∀ e ∈ st.tree.names, e ∈ ([] : List Name) ↔ ∃ a b,
      st.effectiveStrategy e = some a ∧ st.effectiveStrategy e = some b ∧
        areSameType a b = false := fun e _ => by
    simp only [List.not_mem_nil, false_iff]
    exact not_reset_of_eq hrefl rfl
  simp only [State.erase, hp0, if_false]
  cases hfind : st.tree.findExactMatch prefix_ with
  | none => exact ⟨st, [], rfl, hinv, hnone⟩
  | some nte =>
    obtain ⟨rfl, hmem⟩ := hinv.wf.eq_of_findExactMatch hfind
    cases hold : st.choice.lookup nte with
    | none => exact ⟨st, [], by simp [hold], hinv, hnone⟩
    | some oldInstanceName =>
      have hsc : nteHasStrategyChoiceEntry st.choice nte = true := by
        simp [nteHasStrategyChoiceEntry, hold]
      obtain ⟨parentInstanceName, hparent⟩ := Option.isSome_iff_exists.mp
        (hinv.effectiveStrategy_isSome nte.dropLast)
      obtain ⟨l, hl, -, hmem'⟩ := changeStrategy_mem areSameType hinv.wf hinv.depth hmem hsc
        oldInstanceName parentInstanceName
      have hinv' : State.Inv ⟨(st.tree.eraseIfEmpty (fun e => hasOtherEntries e ||
          nteHasStrategyChoiceEntry (st.choice.erase nte) e) nte true).1, st.choice.erase nte⟩ :=
        hinv.eraseIfEmpty (fun q hq => by
            simp only [nteHasStrategyChoiceEntry_erase, Bool.and_eq_true] at hq
            exact hq.2)
          (by simp [hinv.root, Ne.symm hp0]) hasOtherEntries nte true
      have hafter := hinv'.effectiveStrategy_eq
      refine ⟨_, l, ?_, hinv', mem_reset_iff hrefl hmem' (fun e hg => ?_) (fun e hg => ?_)⟩
      · simp only [State.effectiveStrategy] at hparent
        simp [hold, hparent, hl]
      · rw [findEffectiveStrategy_eq_of_keys hinv.wf hinv.keys] at hg
        rw [hbefore, hg, Option.bind_some, hold, hafter,
          effective_erase_of_eq st.choice nte hp0 hg, ← hbefore, hparent]
        exact ⟨rfl, rfl⟩
      · rw [findEffectiveStrategy_eq_of_keys hinv.wf hinv.keys] at hg
        rw [hbefore, hafter, effective_erase_of_ne st.choice nte hg]

end Reset

/-! ## Runs of the tables -/

section Runs

variable {areSameType : Name → Name → Bool} {create : Name → CreateResult} {st : State}

/-- `setDefaultStrategy` on a new NameTree sets up the invariant. -/
theorem State.Inv.setDefaultStrategy {nBuckets : Nat} (hpos : 0 < nBuckets)
    {strategyName : Name} {st₀ : State}
    (h : State.setDefaultStrategy create ⟨NameTree.State.init nBuckets hpos, ∅⟩ strategyName =
      some st₀) : st₀.Inv := by
  unfold State.setDefaultStrategy at h
  split at h
  case h_2 => cases h
  rename_i instanceName _
  cases h
  have hw := NameTree.State.wf_init nBuckets hpos
  have hk : 0 ≤ ([] : Name).length := le_rfl
  -- the new tree holds the root only
  have hnames : ∀ n, n ∈ ((NameTree.State.init nBuckets hpos).lookup [] 0).1.names → n = [] :=
    fun n hn => by
      rcases (hw.mem_names_lookup hk).mp hn with hn | ⟨i, -, rfl⟩
      · simp [NameTree.State.names, NameTree.State.init, Hashtable.nodes_init] at hn
      · exact List.take_nil
  refine ⟨(hw.lookup hk).1, fun n hn => by simp [hnames n hn, maxDepth], fun p hp => ?_,
    by rw [nteHasStrategyChoiceEntry_insert]; simp⟩
  simp only [nteHasStrategyChoiceEntry_insert, Bool.or_eq_true, decide_eq_true_eq] at hp
  rcases hp with rfl | hp
  · exact (hw.mem_names_lookup hk).mpr (.inr ⟨0, le_rfl, rfl⟩)
  · simp [nteHasStrategyChoiceEntry] at hp

/-- Every call the source does not refuse keeps the invariant. -/
theorem State.Inv.step (hrefl : ∀ a, areSameType a a = true) (hinv : st.Inv) {op : Op}
    {st' : State} (h : st.step areSameType create op = some st') : st'.Inv := by
  cases op with
  | insert prefix_ strategyName =>
    rw [State.step] at h
    obtain ⟨⟨r, st'', cleared⟩, hins, rfl⟩ := Option.map_eq_some_iff.mp h
    by_cases hd : prefix_.length ≤ maxDepth
    · cases hcreate : create strategyName with
      | strategy instanceName =>
        obtain ⟨st₁, c₁, h₁, hinv₁, -, -⟩ := hinv.insert hrefl hd hcreate
        rw [h₁, Option.some.injEq, Prod.mk.injEq, Prod.mk.injEq] at hins
        rw [← hins.2.1]
        exact hinv₁
      | nullptr | invalidArgument =>
        -- `NOT_REGISTERED` and `EXCEPTION` leave the tables as they were
        simp [State.insert, show ¬ prefix_.length > maxDepth by omega, hcreate] at hins
        rw [← hins.2.1]
        exact hinv
    · simp [State.insert, show prefix_.length > maxDepth by omega] at hins
      rw [← hins.2.1]
      exact hinv
  | erase prefix_ hasOtherEntries =>
    rw [State.step] at h
    obtain ⟨⟨st'', cleared⟩, hera, rfl⟩ := Option.map_eq_some_iff.mp h
    by_cases hp0 : prefix_ = []
    · simp [State.erase, hp0] at hera
    · obtain ⟨st₁, c₁, h₁, hinv₁, -⟩ := hinv.erase hrefl hasOtherEntries hp0
      rw [h₁, Option.some.injEq, Prod.mk.injEq] at hera
      rw [← hera.1]
      exact hinv₁
  | tree op =>
    cases op with
    | lookup name prefixLen =>
      simp only [State.step, NameTree.State.step] at h
      split_ifs at h with hk
      · rw [Option.map_some, Option.some.injEq] at h
        rw [← h]
        exact hinv.lookup hk.1 hk.2
      · simp at h
    | eraseIfEmpty entry canEraseAncestors hasOtherEntries =>
      simp only [State.step, NameTree.State.step] at h
      split_ifs at h
      · rw [Option.map_some, Option.some.injEq] at h
        rw [← h]
        exact hinv.eraseIfEmpty (fun _ hp => hp) hinv.root hasOtherEntries entry canEraseAncestors
      · simp at h

/-- The invariant holds of every state a run from `setDefaultStrategy` reaches. -/
theorem State.Inv.of_reachable (hrefl : ∀ a, areSameType a a = true) {nBuckets : Nat}
    (hpos : 0 < nBuckets) {strategyName : Name} {st₀ : State}
    (h₀ : State.setDefaultStrategy create ⟨NameTree.State.init nBuckets hpos, ∅⟩ strategyName =
      some st₀)
    (hs : Steps.Reachable (State.step areSameType create) st₀ st) : st.Inv :=
  hs.induction_on (State.Inv.setDefaultStrategy hpos h₀) fun _ _ _ hinv h => hinv.step hrefl h

section Registry

variable (w : Bool) (conv : Convention) (registry : List Name)

/-- Over every run from `setDefaultStrategy`, in which strategy choice inserts and erases
interleave with the other tables' NameTree calls, each strategy choice entry sits on a NameTree
entry, the root keeps its entry, and so every name has an effective strategy: the assertion of
`findEffectiveStrategy` never fails. -/
theorem State.reachable_effectiveStrategy_isSome {nBuckets : Nat} (hpos : 0 < nBuckets)
    {strategyName : Name} {st₀ : State}
    (h₀ : State.setDefaultStrategy create ⟨NameTree.State.init nBuckets hpos, ∅⟩ strategyName =
      some st₀)
    (hs : Steps.Reachable (State.step (Strategy.areSameType w conv registry) create) st₀ st) :
    (∀ p, nteHasStrategyChoiceEntry st.choice p = true → p ∈ st.tree.names) ∧
      nteHasStrategyChoiceEntry st.choice [] = true ∧ ∀ name, (st.effectiveStrategy name).isSome := by
  have hinv := State.Inv.of_reachable (Strategy.areSameType_self w conv registry) hpos h₀ hs
  exact ⟨hinv.keys, hinv.root, hinv.effectiveStrategy_isSome⟩

/-- The tables after `setDefaultStrategy(/s/%FD%01)` and `insert(/a, /t/%FD%01)`, where /s and /t
are two registered strategies. -/
theorem State.reachable_insert_a :
    Steps.Reachable
      (State.step (Strategy.areSameType false .either [[.generic [0x73], .generic [0xFD, 1]],
        [.generic [0x74], .generic [0xFD, 1]]]) (fun n => .strategy n))
      ⟨((NameTree.State.init 8 (by decide)).lookup [] 0).1,
        (∅ : StrategyChoiceTable).insert [] [.generic [0x73], .generic [0xFD, 1]]⟩
      (⟨(((NameTree.State.init 8 (by decide)).lookup [] 0).1.lookup [.generic [0x61]] 1).1,
        ((∅ : StrategyChoiceTable).insert [] [.generic [0x73], .generic [0xFD, 1]]).insert
          [.generic [0x61]] [.generic [0x74], .generic [0xFD, 1]]⟩ : State) :=
  .step (.insert [.generic [0x61]] [.generic [0x74], .generic [0xFD, 1]]) .init (by rfl)

/-- Those tables: /a has its own entry beside the root's. -/
theorem State.reachable_effectiveStrategy_isSome_a :
    (∀ p, nteHasStrategyChoiceEntry
        (State.choice (⟨(((NameTree.State.init 8 (by decide)).lookup [] 0).1.lookup [.generic [0x61]] 1).1,
          ((∅ : StrategyChoiceTable).insert [] [.generic [0x73], .generic [0xFD, 1]]).insert
            [.generic [0x61]] [.generic [0x74], .generic [0xFD, 1]]⟩ : State)) p = true →
        p ∈ (State.tree (⟨(((NameTree.State.init 8 (by decide)).lookup [] 0).1.lookup [.generic [0x61]] 1).1,
            ((∅ : StrategyChoiceTable).insert [] [.generic [0x73], .generic [0xFD, 1]]).insert
              [.generic [0x61]] [.generic [0x74], .generic [0xFD, 1]]⟩ : State)).names) ∧
      nteHasStrategyChoiceEntry
        (State.choice (⟨(((NameTree.State.init 8 (by decide)).lookup [] 0).1.lookup [.generic [0x61]] 1).1,
          ((∅ : StrategyChoiceTable).insert [] [.generic [0x73], .generic [0xFD, 1]]).insert
            [.generic [0x61]] [.generic [0x74], .generic [0xFD, 1]]⟩ : State)) [] = true ∧
      ∀ name, (State.effectiveStrategy
        (⟨(((NameTree.State.init 8 (by decide)).lookup [] 0).1.lookup [.generic [0x61]] 1).1,
          ((∅ : StrategyChoiceTable).insert [] [.generic [0x73], .generic [0xFD, 1]]).insert
            [.generic [0x61]] [.generic [0x74], .generic [0xFD, 1]]⟩ : State) name).isSome :=
  State.reachable_effectiveStrategy_isSome false .either
    [[.generic [0x73], .generic [0xFD, 1]],
    [.generic [0x74], .generic [0xFD, 1]]] (by decide : 0 < 8)
    (by rfl : State.setDefaultStrategy (fun n => .strategy n) ⟨NameTree.State.init 8 _, ∅⟩
      [.generic [0x73], .generic [0xFD, 1]] = some ⟨((NameTree.State.init 8 _).lookup [] 0).1,
        (∅ : StrategyChoiceTable).insert [] [.generic [0x73], .generic [0xFD, 1]]⟩)
    State.reachable_insert_a

/-- From every reachable state, `insert` of a registered strategy within the depth succeeds, and
resets the StrategyInfo of exactly the entries of the NameTree after it whose effective strategy
it changes to one of another type, each once. -/
theorem State.insert_resets_changed {nBuckets : Nat} (hpos : 0 < nBuckets)
    {strategyName₀ : Name} {st₀ : State}
    (h₀ : State.setDefaultStrategy create ⟨NameTree.State.init nBuckets hpos, ∅⟩ strategyName₀ =
      some st₀)
    (hs : Steps.Reachable (State.step (Strategy.areSameType w conv registry) create) st₀ st)
    {prefix_ strategyName instanceName : Name} (hd : prefix_.length ≤ maxDepth)
    (hcreate : create strategyName = .strategy instanceName) :
    ∃ st' cleared, st.insert (Strategy.areSameType w conv registry) create prefix_ strategyName =
        some (.ok, st', cleared) ∧ cleared.Nodup ∧
      ∀ e ∈ st'.tree.names, e ∈ cleared ↔ ∃ a b, st.effectiveStrategy e = some a ∧
        st'.effectiveStrategy e = some b ∧ Strategy.areSameType w conv registry a b = false := by
  have hrefl := Strategy.areSameType_self w conv registry
  obtain ⟨st', cleared, h, -, hnd, hreset⟩ :=
    (State.Inv.of_reachable hrefl hpos h₀ hs).insert hrefl hd hcreate
  exact ⟨st', cleared, h, hnd, hreset⟩

/-- Those tables, /a/b given /s: /a/b goes from /t, which it had from /a, to /s, a strategy of
another type, and is reset. -/
theorem State.insert_resets_changed_ab :
    ∃ st' cleared, State.insert
        (Strategy.areSameType false .either [[.generic [0x73], .generic [0xFD, 1]],
          [.generic [0x74], .generic [0xFD, 1]]]) (fun n => .strategy n)
        (⟨(((NameTree.State.init 8 (by decide)).lookup [] 0).1.lookup [.generic [0x61]] 1).1,
          ((∅ : StrategyChoiceTable).insert [] [.generic [0x73], .generic [0xFD, 1]]).insert
            [.generic [0x61]] [.generic [0x74], .generic [0xFD, 1]]⟩ : State)
        [.generic [0x61], .generic [0x62]] [.generic [0x73], .generic [0xFD, 1]] =
          some (.ok, st', cleared) ∧ cleared.Nodup ∧
      (∀ e ∈ st'.tree.names, e ∈ cleared ↔ ∃ a b,
        State.effectiveStrategy (⟨(((NameTree.State.init 8 (by decide)).lookup [] 0).1.lookup [.generic [0x61]] 1).1,
          ((∅ : StrategyChoiceTable).insert [] [.generic [0x73], .generic [0xFD, 1]]).insert
            [.generic [0x61]] [.generic [0x74], .generic [0xFD, 1]]⟩ : State) e = some a ∧
        st'.effectiveStrategy e = some b ∧
        Strategy.areSameType false .either [[.generic [0x73], .generic [0xFD, 1]],
          [.generic [0x74], .generic [0xFD, 1]]] a b = false) ∧
      cleared = [[.generic [0x61], .generic [0x62]]] := by
  obtain ⟨st', cleared, h, hnd, hreset⟩ := State.insert_resets_changed false .either
    [[.generic [0x73], .generic [0xFD, 1]],
    [.generic [0x74], .generic [0xFD, 1]]] (by decide : 0 < 8)
    (by rfl : State.setDefaultStrategy (fun n => .strategy n) ⟨NameTree.State.init 8 _, ∅⟩
      [.generic [0x73], .generic [0xFD, 1]] = some ⟨((NameTree.State.init 8 _).lookup [] 0).1,
        (∅ : StrategyChoiceTable).insert [] [.generic [0x73], .generic [0xFD, 1]]⟩)
    State.reachable_insert_a
    (by decide : [Component.generic [0x61], .generic [0x62]].length ≤ maxDepth)
    (rfl : (fun n : Name => CreateResult.strategy n) [.generic [0x73], .generic [0xFD, 1]] =
      .strategy [.generic [0x73], .generic [0xFD, 1]])
  -- the run computes the reset list
  have hc : (State.insert (Strategy.areSameType false .either [[.generic [0x73], .generic [0xFD, 1]],
        [.generic [0x74], .generic [0xFD, 1]]])
      (fun n => .strategy n) (⟨(((NameTree.State.init 8 (by decide)).lookup [] 0).1.lookup [.generic [0x61]] 1).1,
        ((∅ : StrategyChoiceTable).insert [] [.generic [0x73], .generic [0xFD, 1]]).insert
          [.generic [0x61]] [.generic [0x74], .generic [0xFD, 1]]⟩ : State)
      [.generic [0x61], .generic [0x62]] [.generic [0x73], .generic [0xFD, 1]]).map (·.2.2) =
        some [[.generic [0x61], .generic [0x62]]] := by rfl
  rw [h] at hc
  exact ⟨st', cleared, h, hnd, hreset, by simpa using hc⟩

/-- From every reachable state, `erase` of a prefix other than the root succeeds, and resets the
StrategyInfo of exactly the entries whose effective strategy it changes to one of another
type. -/
theorem State.erase_resets_changed {nBuckets : Nat} (hpos : 0 < nBuckets) {strategyName₀ : Name}
    {st₀ : State}
    (h₀ : State.setDefaultStrategy create ⟨NameTree.State.init nBuckets hpos, ∅⟩ strategyName₀ =
      some st₀)
    (hs : Steps.Reachable (State.step (Strategy.areSameType w conv registry) create) st₀ st)
    (hasOtherEntries : Name → Bool) {prefix_ : Name} (hp0 : prefix_ ≠ []) :
    ∃ st' cleared, st.erase (Strategy.areSameType w conv registry) hasOtherEntries prefix_ =
        some (st', cleared) ∧
      ∀ e ∈ st.tree.names, e ∈ cleared ↔ ∃ a b, st.effectiveStrategy e = some a ∧
        st'.effectiveStrategy e = some b ∧ Strategy.areSameType w conv registry a b = false := by
  have hrefl := Strategy.areSameType_self w conv registry
  obtain ⟨st', cleared, h, -, hreset⟩ :=
    (State.Inv.of_reachable hrefl hpos h₀ hs).erase hrefl hasOtherEntries hp0
  exact ⟨st', cleared, h, hreset⟩

/-- Those tables, erasing /a: /a goes back from /t to the root's /s, and is reset. -/
theorem State.erase_resets_changed_a :
    ∃ st' cleared, State.erase
        (Strategy.areSameType false .either [[.generic [0x73], .generic [0xFD, 1]],
          [.generic [0x74], .generic [0xFD, 1]]]) (fun _ => false)
        (⟨(((NameTree.State.init 8 (by decide)).lookup [] 0).1.lookup [.generic [0x61]] 1).1,
          ((∅ : StrategyChoiceTable).insert [] [.generic [0x73], .generic [0xFD, 1]]).insert
            [.generic [0x61]] [.generic [0x74], .generic [0xFD, 1]]⟩ : State) [.generic [0x61]] = some (st', cleared) ∧
      (∀ e ∈ (State.tree (⟨(((NameTree.State.init 8 (by decide)).lookup [] 0).1.lookup [.generic [0x61]] 1).1,
          ((∅ : StrategyChoiceTable).insert [] [.generic [0x73], .generic [0xFD, 1]]).insert
            [.generic [0x61]] [.generic [0x74], .generic [0xFD, 1]]⟩ : State)).names, e ∈ cleared ↔ ∃ a b,
        State.effectiveStrategy (⟨(((NameTree.State.init 8 (by decide)).lookup [] 0).1.lookup [.generic [0x61]] 1).1,
          ((∅ : StrategyChoiceTable).insert [] [.generic [0x73], .generic [0xFD, 1]]).insert
            [.generic [0x61]] [.generic [0x74], .generic [0xFD, 1]]⟩ : State) e = some a ∧
        st'.effectiveStrategy e = some b ∧
        Strategy.areSameType false .either [[.generic [0x73], .generic [0xFD, 1]],
          [.generic [0x74], .generic [0xFD, 1]]] a b = false) ∧
      cleared = [[.generic [0x61]]] := by
  obtain ⟨st', cleared, h, hreset⟩ := State.erase_resets_changed false .either
    [[.generic [0x73], .generic [0xFD, 1]],
    [.generic [0x74], .generic [0xFD, 1]]] (by decide : 0 < 8)
    (by rfl : State.setDefaultStrategy (fun n => .strategy n) ⟨NameTree.State.init 8 _, ∅⟩
      [.generic [0x73], .generic [0xFD, 1]] = some ⟨((NameTree.State.init 8 _).lookup [] 0).1,
        (∅ : StrategyChoiceTable).insert [] [.generic [0x73], .generic [0xFD, 1]]⟩)
    State.reachable_insert_a (fun _ => false) (by simp : [Component.generic [0x61]] ≠ [])
  -- the run computes the reset list
  have hc : (State.erase (Strategy.areSameType false .either [[.generic [0x73], .generic [0xFD, 1]],
        [.generic [0x74], .generic [0xFD, 1]]])
      (fun _ => false) (⟨(((NameTree.State.init 8 (by decide)).lookup [] 0).1.lookup [.generic [0x61]] 1).1,
        ((∅ : StrategyChoiceTable).insert [] [.generic [0x73], .generic [0xFD, 1]]).insert
          [.generic [0x61]] [.generic [0x74], .generic [0xFD, 1]]⟩ : State) [.generic [0x61]]).map (·.2) =
        some [[.generic [0x61]]] := by rfl
  rw [h] at hc
  exact ⟨st', cleared, h, hreset, by simpa using hc⟩

end Registry

end Runs

end StrategyChoice

end MwNfd
