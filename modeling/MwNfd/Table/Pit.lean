import MwNfd.Table.NameTree

/-!
# The PIT on the NameTree, and the PIT-token lookup (`name-tree.cpp`, `pit.cpp`)

`Pit::insert` attaches a PIT entry to the NameTree entry of its Interest's name, inserting every
prefix of the name into the hashtable. `Strategy::sendInterest` writes the hash of that node into
the PIT token, and under `ETRI_PITTOKEN_HASH` a Data that comes back with the token is matched by
`Pit::findDataExactMatch(data, hash)`. That looks in the hash's bucket for the first node with
the hash whose name is a prefix of the Data's name, and only there.

A name with a component repeated twice after it has its hash (`computeHash_append_pair`), and
the newer node sits before the older at the head of their bucket. So the lookup lands on the
newer node and misses the PIT entry of the other.

* `Pit.mem_findDataExactMatch`: every PIT entry returned matches the Data.
* `Pit.findDataExactMatch_misses`: from an empty NameTree, an Interest for a name with
  CanBePrefix, then one for the name with a component twice after it; the Data of the second
  name matches the first, and the lookup with the first entry's node hash does not return it.
-/

namespace MwNfd

/-- `NameTree::getMaxDepth()`. -/
def maxDepth : Nat := 32

namespace NameTree

/-- `NameTree::lookup(name, prefixLen)`: each prefix up to `prefixLen`, from the root, found or
inserted with its hash from `computeHashes`; the entry is the last node. -/
def lookup (ht : Hashtable) (name : Name) (prefixLen : Nat) : Hashtable × Option Node :=
  let hashes := computeHashes name prefixLen
  (List.range (prefixLen + 1)).foldl (fun acc i =>
    let r := acc.1.findOrInsert name i (hashes.getD i 0) true
    (r.1, r.2.1)) (ht, none)

/-- `NameTree::findExactMatch(name, prefixLen, hash)` under `ETRI_PITTOKEN_HASH`. -/
def findExactMatch (ht : Hashtable) (name : Name) (prefixLen : Nat) (hash : UInt64) :
    Option Node :=
  let prefixLen := min name.length prefixLen
  if prefixLen > maxDepth then none else ht.find name hash

/-- One round of `lookup`'s loop: the prefix of `i` components found or inserted. -/
def insertPrefix (name : Name) (acc : Hashtable × Option Node) (i : Nat) :
    Hashtable × Option Node :=
  let r := acc.1.findOrInsert name i (computeHash name i) true
  (r.1, r.2.1)

/-- `lookup` as rounds of `insertPrefix`, the hashes of `computeHashes` being those of the
prefixes. -/
theorem lookup_eq (ht : Hashtable) {name : Name} {prefixLen : Nat}
    (h : prefixLen ≤ name.length) :
    lookup ht name prefixLen =
      (List.range (prefixLen + 1)).foldl (insertPrefix name) (ht, none) := by
  unfold lookup
  apply List.foldl_ext
  intro acc i hi
  rw [List.mem_range] at hi
  rw [insertPrefix, getD_computeHashes (by omega) (by omega)]

theorem lookup_zero (ht : Hashtable) (name : Name) :
    lookup ht name 0 = insertPrefix name (ht, none) 0 := by
  rw [lookup_eq ht (Nat.zero_le _)]
  rfl

theorem lookup_succ (ht : Hashtable) {name : Name} {k : Nat} (h : k + 1 ≤ name.length) :
    lookup ht name (k + 1) = insertPrefix name (lookup ht name k) (k + 1) := by
  rw [lookup_eq ht h, lookup_eq ht (by omega), List.range_succ, List.foldl_append]
  rfl

/-- The nodes after a lookup: those before, and new nodes of the prefixes. -/
theorem mem_nodes_lookup {ht : Hashtable} {name : Name} {k : Nat} (hk : k ≤ name.length)
    {x : Node} (hx : x ∈ (lookup ht name k).1.nodes) :
    x ∈ ht.nodes ∨ ∃ i ≤ k, x = ⟨computeHash name i, name.take i, []⟩ := by
  induction k with
  | zero =>
    rw [lookup_zero] at hx
    exact (Hashtable.mem_nodes_findOrInsert hx).imp_right fun h => ⟨0, le_refl 0, h⟩
  | succ k ih =>
    rw [lookup_succ ht hk] at hx
    rcases Hashtable.mem_nodes_findOrInsert hx with hold | hnew
    · exact (ih (by omega) hold).imp_right fun ⟨i, hi, h⟩ => ⟨i, by omega, h⟩
    · exact .inr ⟨k + 1, le_refl _, hnew⟩

/-- A lookup keeps every node. -/
theorem nodes_subset_lookup {ht : Hashtable} {name : Name} {k : Nat} (hk : k ≤ name.length)
    {x : Node} (hx : x ∈ ht.nodes) : x ∈ (lookup ht name k).1.nodes := by
  induction k with
  | zero => rw [lookup_zero]; exact Hashtable.nodes_subset_findOrInsert hx
  | succ k ih =>
    rw [lookup_succ ht hk]
    exact Hashtable.nodes_subset_findOrInsert (ih (by omega))

/-- Below the expand threshold for all its rounds, a lookup keeps the bucket count and adds at
most a node a round. -/
theorem lookup_of_small {ht : Hashtable} {name : Name} {k : Nat} (hk : k ≤ name.length)
    (hsmall : ht.size + (k + 1) ≤ ht.expandThreshold) :
    (lookup ht name k).1.nBuckets = ht.nBuckets ∧
      (lookup ht name k).1.size ≤ ht.size + (k + 1) := by
  induction k with
  | zero =>
    rw [lookup_zero]
    exact ⟨Hashtable.nBuckets_findOrInsert_of_small hsmall,
      Hashtable.size_findOrInsert_le _ _ _ _ _⟩
  | succ k ih =>
    obtain ⟨hn, hs⟩ := ih (by omega) (by omega)
    -- the round `k + 1` starts below the threshold, which the rounds before kept
    have hround : (lookup ht name k).1.size + 1 ≤ (lookup ht name k).1.expandThreshold := by
      unfold Hashtable.expandThreshold at hsmall ⊢
      omega
    rw [lookup_succ ht hk]
    refine ⟨(Hashtable.nBuckets_findOrInsert_of_small hround).trans hn, ?_⟩
    have hround_size : (insertPrefix name (lookup ht name k) (k + 1)).1.size ≤
        (lookup ht name k).1.size + 1 :=
      Hashtable.size_findOrInsert_le _ _ _ _ _
    omega

/-- A round for a prefix that has no node, below the threshold: a new node at the head of its
bucket. -/
theorem insertPrefix_of_fresh {t : Hashtable} {o : Option Node} {name : Name} {i : Nat}
    (hnew : ∀ x ∈ t.nodes, x.name ≠ name.take i) (hsmall : t.size + 1 ≤ t.expandThreshold) :
    insertPrefix name (t, o) i =
      (t.attachNew (t.computeBucketIndex (computeHash name i))
        ⟨computeHash name i, name.take i, []⟩,
        some ⟨computeHash name i, name.take i, []⟩) := by
  simp only [insertPrefix, Hashtable.findOrInsert_of_find?_none
    (Hashtable.find?_eq_none_of_fresh hnew) hsmall]

/-- A lookup of a name whose prefix of `k` components has no node yet, below the threshold: its
last round attaches the new node at the head of its bucket, to a table that keeps the old nodes
and the bucket count. -/
theorem lookup_of_fresh {ht : Hashtable} {name : Name} {k : Nat} (hk : k ≤ name.length)
    (hnew : ∀ x ∈ ht.nodes, x.name ≠ name.take k)
    (hsmall : ht.size + (k + 1) ≤ ht.expandThreshold) :
    ∃ t : Hashtable, t.nBuckets = ht.nBuckets ∧ (∀ x ∈ ht.nodes, x ∈ t.nodes) ∧
      lookup ht name k = (t.attachNew (t.computeBucketIndex (computeHash name k))
        ⟨computeHash name k, name.take k, []⟩,
        some ⟨computeHash name k, name.take k, []⟩) := by
  cases k with
  | zero =>
    refine ⟨ht, rfl, fun _ hx => hx, ?_⟩
    rw [lookup_zero, insertPrefix_of_fresh hnew (by omega)]
  | succ k =>
    obtain ⟨hn, hs⟩ := @lookup_of_small ht name k (by omega) (by omega)
    refine ⟨(lookup ht name k).1, hn, fun _ hx => nodes_subset_lookup (by omega) hx, ?_⟩
    -- the rounds before add prefixes shorter than `k + 1` components
    have hfresh : ∀ x ∈ (lookup ht name k).1.nodes, x.name ≠ name.take (k + 1) := by
      intro x hx
      rcases mem_nodes_lookup (by omega) hx with hold | ⟨i, hi, rfl⟩
      · exact hnew x hold
      · intro heq
        have := congrArg List.length heq
        simp only [List.length_take] at this
        omega
    have hround : (lookup ht name k).1.size + 1 ≤ (lookup ht name k).1.expandThreshold := by
      unfold Hashtable.expandThreshold at hsmall ⊢
      rw [show (lookup ht name k).1.nBuckets = ht.nBuckets from hn]
      omega
    rw [lookup_succ ht hk, insertPrefix_of_fresh hfresh hround]

end NameTree

namespace Pit

/-- `pit::Entry::canMatch(interest, nEqualNameComps)`: the names agree after the first
`nEqualNameComps` components, and so do CanBePrefix and MustBeFresh. -/
def canMatch (entry interest : Interest) (nEqualNameComps : Nat) : Bool :=
  entry.name.drop nEqualNameComps == interest.name.drop nEqualNameComps &&
    entry.canBePrefix == interest.canBePrefix && entry.mustBeFresh == interest.mustBeFresh

/-- The depth of the NameTree entry of an Interest's PIT entry: the name without its digest, at
most `getMaxDepth()`. -/
def nteDepth (name : Name) : Nat :=
  min (name.length - if name.isFullName then 1 else 0) maxDepth

/-- `Pit::insert(interest)`, that is `findOrInsert(interest, true)`: the PIT entry of the NameTree
entry that `canMatch` the Interest, or a new one at the back of the entry's list. -/
def insert (ht : Hashtable) (interest : Interest) : Hashtable × Interest × Bool :=
  let depth := nteDepth interest.name
  match NameTree.lookup ht interest.name depth with
  | (ht, some nte) =>
    match nte.pitEntries.find? (canMatch · interest depth) with
    | some entry => (ht, entry, false)
    | none => (ht.setPitEntries nte.name (nte.pitEntries ++ [interest]), interest, true)
  | (ht, none) => (ht, interest, false)

/-- `name_tree::Entry::erasePitEntry`: the last entry moves into the erased one's place. -/
def erasePitEntry (pitEntries : List Interest) (entry : Interest) : List Interest :=
  match pitEntries.idxOf? entry with
  | some i => (pitEntries.set i (pitEntries.getLast?.getD entry)).dropLast
  | none => pitEntries

theorem idxOf?_append_cons {α : Type} [DecidableEq α] {a : List α} {e : α} (h : e ∉ a)
    (b : List α) : (a ++ e :: b).idxOf? e = some a.length := by
  induction a with
  | nil => simp [List.idxOf?_cons]
  | cons x a ih =>
    rw [List.mem_cons, not_or] at h
    simp [List.idxOf?_cons, ih h.2, Ne.symm h.1]

/-- Up to order, `erasePitEntry` erases the first occurrence of the entry. -/
theorem erasePitEntry_perm (pitEntries : List Interest) (entry : Interest) :
    (erasePitEntry pitEntries entry).Perm (pitEntries.erase entry) := by
  by_cases hmem : entry ∈ pitEntries
  · obtain ⟨a, b, rfl, ha⟩ := List.eq_append_cons_of_mem hmem
    rw [erasePitEntry, idxOf?_append_cons ha]
    dsimp only
    rw [List.erase_append_right _ ha, List.erase_cons_head,
      List.set_append_right _ _ (Nat.le_refl _), Nat.sub_self]
    rcases List.eq_nil_or_concat b with rfl | ⟨b, z, rfl⟩
    · simp
    · -- the last entry `z` moves into the erased one's place
      have hlast : (a ++ entry :: b.concat z).getLast? = some z := by
        rw [List.concat_eq_append, ← List.cons_append, ← List.append_assoc, List.getLast?_concat]
      rw [hlast, Option.getD_some, List.set_cons_zero, List.concat_eq_append,
        ← List.cons_append, ← List.append_assoc, List.dropLast_concat]
      exact List.Perm.append_left a (List.perm_append_singleton z b).symm
  · rw [List.erase_of_not_mem hmem, erasePitEntry, List.idxOf?_eq_none_iff.mpr hmem]

theorem nteDepth_le (name : Name) : nteDepth name ≤ name.length := by
  unfold nteDepth
  omega

theorem nteDepth_of_isFullName_false {name : Name} (h : name.isFullName = false)
    (hd : name.length ≤ maxDepth) : nteDepth name = name.length := by
  simp [nteDepth, h, hd]

/-- The names after `Pit::insert`: those before, and prefixes of the Interest's NameTree entry. -/
theorem name_mem_insert {ht : Hashtable} {interest : Interest} {x : Node}
    (hx : x ∈ (insert ht interest).1.nodes) :
    (∃ y ∈ ht.nodes, y.name = x.name) ∨
      ∃ i ≤ nteDepth interest.name, x.name = interest.name.take i := by
  -- a node of the lookup's table, or the same node with other PIT entries
  have hlookup : ∀ y ∈ (NameTree.lookup ht interest.name (nteDepth interest.name)).1.nodes,
      (∃ z ∈ ht.nodes, z.name = y.name) ∨
        ∃ i ≤ nteDepth interest.name, y.name = interest.name.take i := fun y hy =>
    match NameTree.mem_nodes_lookup (nteDepth_le _) hy with
    | .inl hold => .inl ⟨y, hold, rfl⟩
    | .inr ⟨i, hi, hy⟩ => .inr ⟨i, hi, by rw [hy]⟩
  unfold insert at hx
  dsimp only at hx
  split at hx
  · rename_i t nte hl
    rw [hl] at hlookup
    split at hx
    · exact hlookup x hx
    · obtain ⟨y, hy, hname⟩ := Hashtable.name_mem_setPitEntries hx
      rw [← hname]
      exact hlookup y hy
  · rename_i t hl
    rw [hl] at hlookup
    exact hlookup x hx

/-- Below the expand threshold `Pit::insert` keeps the bucket count, and adds at most a node for
each prefix of the Interest's NameTree entry. -/
theorem insert_of_small {ht : Hashtable} {interest : Interest}
    (hsmall : ht.size + (nteDepth interest.name + 1) ≤ ht.expandThreshold) :
    (insert ht interest).1.nBuckets = ht.nBuckets ∧
      (insert ht interest).1.size ≤ ht.size + (nteDepth interest.name + 1) := by
  have hl := @NameTree.lookup_of_small ht interest.name _ (nteDepth_le _) hsmall
  unfold insert
  dsimp only
  split
  · rename_i t nte heq
    rw [heq] at hl
    split
    · exact hl
    · exact ⟨(Hashtable.nBuckets_setPitEntries _ _ _).trans hl.1, hl.2⟩
  · rename_i t heq
    rw [heq] at hl
    exact hl

/-- `Pit::insert` of an Interest whose NameTree entry has no node yet, below the threshold: the
new node, at the head of its bucket, holds the Interest alone. -/
theorem insert_of_fresh {ht : Hashtable} {interest : Interest}
    (hnew : ∀ x ∈ ht.nodes, x.name ≠ interest.name.take (nteDepth interest.name))
    (hsmall : ht.size + (nteDepth interest.name + 1) ≤ ht.expandThreshold) :
    ∃ t : Hashtable, t.nBuckets = ht.nBuckets ∧ (∀ x ∈ ht.nodes, x ∈ t.nodes) ∧
      (insert ht interest).1 =
        (t.attachNew (t.computeBucketIndex (computeHash interest.name (nteDepth interest.name)))
          ⟨computeHash interest.name (nteDepth interest.name),
            interest.name.take (nteDepth interest.name), []⟩).setPitEntries
          (interest.name.take (nteDepth interest.name)) [interest] := by
  obtain ⟨t, hn, hsub, hl⟩ := NameTree.lookup_of_fresh (nteDepth_le _) hnew hsmall
  refine ⟨t, hn, hsub, ?_⟩
  simp only [insert, hl, List.find?_nil, List.nil_append]

variable (sha256 : List UInt8 → Sha256Digest)

/-- `Pit::findDataExactMatch(data, hash)` under `ETRI_PITTOKEN_HASH`: the PIT entries of the node
the hash lookup finds that match the Data. -/
def findDataExactMatch (ht : Hashtable) (data : Data) (hash : UInt64) : List Interest :=
  match NameTree.findExactMatch ht data.name data.name.length hash with
  | some nte => nte.pitEntries.filter (·.matchesData sha256 data)
  | none => []

/-- Every PIT entry the lookup returns matches the Data. -/
theorem mem_findDataExactMatch {ht : Hashtable} {data : Data} {hash : UInt64} {entry : Interest}
    (h : entry ∈ findDataExactMatch sha256 ht data hash) :
    entry.matchesData sha256 data = true := by
  unfold findDataExactMatch at h
  split at h
  · exact (List.mem_filter.mp h).2
  · simp at h

/-- From an empty NameTree of enough buckets: a CanBePrefix Interest for `p`, then an Interest
for `p` with a component twice after it. A Data of the second name matches the first Interest,
whose PIT entry sits on a node of hash `computeHash p p.length`; the lookup with that hash does
not return it. -/
theorem findDataExactMatch_misses {n : Nat} (hn : 0 < n) {p : Name} {c : Component}
    (first second : Interest) (data : Data) (hfirst : first.name = p)
    (hcbp : first.canBePrefix = true) (hfresh : first.mustBeFresh = false)
    (hsecond : second.name = p ++ [c, c]) (hdata : data.name = p ++ [c, c])
    (hp : p.isFullName = false) (hc : c.isImplicitSha256Digest = false)
    (hdepth : p.length + 2 ≤ maxDepth) (hsmall : 4 * p.length + 8 ≤ n) :
    (∃ nte ∈ (insert (insert (Hashtable.init n hn) first).1 second).1.nodes,
        nte.hash = computeHash p p.length ∧ first ∈ nte.pitEntries) ∧
      first.matchesData sha256 data = true ∧
      first ∉ findDataExactMatch sha256 (insert (insert (Hashtable.init n hn) first).1 second).1
        data (computeHash p p.length) := by
  have hlen : (p ++ [c, c]).length = p.length + 2 := by simp
  have hd1 : nteDepth first.name = p.length := by
    rw [hfirst]; exact nteDepth_of_isFullName_false hp (by omega)
  have hd2 : nteDepth second.name = p.length + 2 := by
    rw [hsecond, ← hlen]
    exact nteDepth_of_isFullName_false (by simp [Name.isFullName, hc]) (by omega)
  have hinit : (Hashtable.init n hn).nBuckets = n := List.length_replicate ..
  have hsmall0 : (Hashtable.init n hn).size + (nteDepth first.name + 1) ≤
      (Hashtable.init n hn).expandThreshold := by
    rw [hd1, Hashtable.expandThreshold, hinit]
    simp [Hashtable.init]
    omega
  -- the first insertion: a node for `p` holding the first Interest
  obtain ⟨t1, hn1, -, hins1⟩ := @insert_of_fresh (Hashtable.init n hn) first
    (by simp [Hashtable.nodes, Hashtable.init]) hsmall0
  obtain ⟨hb1, hs1⟩ : (insert (Hashtable.init n hn) first).1.nBuckets = n ∧
      (insert (Hashtable.init n hn) first).1.size ≤ p.length + 1 := by
    have hsmall1 := insert_of_small hsmall0
    rw [hd1, hinit] at hsmall1
    exact ⟨hsmall1.1, by simpa [Hashtable.init] using hsmall1.2⟩
  rw [hd1, hfirst, List.take_length] at hins1
  set ht1 := (insert (Hashtable.init n hn) first).1
  have hnode1 : ⟨computeHash p p.length, p, [first]⟩ ∈ ht1.nodes := by
    rw [hins1]
    exact Hashtable.mem_nodes_setPitEntries_self
      ((Hashtable.mem_nodes_attachNew _).mpr (.inl rfl)) rfl
  have hshort : ∀ x ∈ ht1.nodes, x.name.length ≤ p.length := by
    intro x hx
    rcases name_mem_insert hx with ⟨y, hy, -⟩ | ⟨i, hi, hname⟩
    · simp [Hashtable.nodes, Hashtable.init] at hy
    · rw [hname, List.length_take, hd1] at *
      omega
  -- the second insertion: a node for `p ++ [c, c]`, of the same hash, at the head of the bucket
  obtain ⟨t2, hn2, hsub2, hins2⟩ := @insert_of_fresh ht1 second
    (fun x hx heq => by
      have := congrArg List.length heq
      rw [List.length_take, hd2, hsecond, hlen] at this
      have := hshort x hx
      omega)
    (by
      rw [hd2]
      unfold Hashtable.expandThreshold
      rw [hb1]
      omega)
  rw [hd2, hsecond, ← hlen, List.take_length, computeHash_append_pair] at hins2
  set ht2 := (insert ht1 second).1
  refine ⟨⟨⟨computeHash p p.length, p, [first]⟩, ?_, rfl, List.mem_singleton_self _⟩,
    ?_, ?_⟩
  · -- the first node keeps its PIT entry
    rw [hins2]
    refine Hashtable.mem_nodes_setPitEntries_of_ne
      ((Hashtable.mem_nodes_attachNew _).mpr (.inr (hsub2 _ hnode1))) ?_
    intro heq
    have := congrArg List.length heq
    simp at this
  · -- CanBePrefix: `p` is a prefix of the Data's name
    refine Interest.matchesData_of_prefix hcbp hfresh ?_
    rw [hfirst, hdata]
    exact List.prefix_append _ _
  · -- the hash's bucket starts with the second node
    have hbucket : ht2.buckets.getD (ht2.computeBucketIndex (computeHash p p.length)) [] =
        ⟨computeHash p p.length, p ++ [c, c], [second]⟩ ::
          (t2.buckets.getD (t2.computeBucketIndex (computeHash p p.length)) []).map fun node =>
            if node.name = p ++ [c, c] then { node with pitEntries := [second] } else node := by
      have hidx : ht2.computeBucketIndex (computeHash p p.length) =
          t2.computeBucketIndex (computeHash p p.length) := by
        unfold Hashtable.computeBucketIndex
        rw [hins2, Hashtable.nBuckets_setPitEntries, Hashtable.nBuckets_attachNew]
      rw [hidx, hins2, Hashtable.getD_setPitEntries]
      simp only [Hashtable.attachNew]
      rw [Hashtable.getD_attach_self _ (Hashtable.computeBucketIndex_lt _ _)]
      simp
    have hpre : (p ++ [c, c]).isPrefixOf data.name = true :=
      List.isPrefixOf_iff_prefix.mpr (hdata ▸ List.prefix_refl _)
    have hfind : ht2.find data.name (computeHash p p.length) =
        some ⟨computeHash p p.length, p ++ [c, c], [second]⟩ :=
      Hashtable.find_of_head hbucket rfl hpre
    have hne : first ≠ second := fun heq => by
      have := congrArg (List.length ∘ Interest.name) heq
      simp [hfirst, hsecond] at this
    have hexact : NameTree.findExactMatch ht2 data.name data.name.length (computeHash p p.length) =
        some ⟨computeHash p p.length, p ++ [c, c], [second]⟩ := by
      rw [NameTree.findExactMatch, if_neg (by rw [hdata, hlen]; omega), hfind]
    simp only [findDataExactMatch, hexact, List.mem_filter, List.mem_singleton]
    exact fun h => hne h.1

/-- The Interests /a with CanBePrefix and /a/x/x, in a NameTree of 1024 buckets: the Data /a/x/x
with the hash of /a's node gets the PIT entry of /a/x/x only. -/
theorem findDataExactMatch_misses_ax :
    (∃ nte ∈ (insert (insert (Hashtable.init 1024 (by decide))
          ⟨[Component.generic [0x61]], true, false, []⟩).1
          ⟨[Component.generic [0x61], Component.generic [0x78], Component.generic [0x78]], false,
            false, []⟩).1.nodes,
        nte.hash = computeHash [Component.generic [0x61]] 1 ∧
        ⟨[Component.generic [0x61]], true, false, []⟩ ∈ nte.pitEntries) ∧
      Interest.matchesData (fun _ => ⟨List.replicate 32 0, rfl⟩)
        ⟨[Component.generic [0x61]], true, false, []⟩
        ⟨[Component.generic [0x61], Component.generic [0x78], Component.generic [0x78]], 0,
          []⟩ = true ∧
      ⟨[Component.generic [0x61]], true, false, []⟩ ∉
        findDataExactMatch (fun _ => ⟨List.replicate 32 0, rfl⟩)
          (insert (insert (Hashtable.init 1024 (by decide))
            ⟨[Component.generic [0x61]], true, false, []⟩).1
            ⟨[Component.generic [0x61], Component.generic [0x78], Component.generic [0x78]],
              false, false, []⟩).1
          ⟨[Component.generic [0x61], Component.generic [0x78], Component.generic [0x78]], 0,
            []⟩
          (computeHash [Component.generic [0x61]] 1) :=
  findDataExactMatch_misses _ (by decide) _ _ _ rfl rfl rfl rfl rfl (by decide) (by decide)
    (by decide) (by decide)

end Pit

end MwNfd
