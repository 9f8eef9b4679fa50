import Mathlib.Data.List.Perm.Basic
import MwNfd.Tlv
import MwNfd.CityHash
import MwNfd.Packet

/-!
# Name hashes and the NameTree hashtable (`name-tree-hashtable.cpp`)

The NameTree and the Content Store's exact table hash a name as the XOR of `CityHash64` of each
component's element. XOR forgets the order of the components and cancels a component that occurs
twice, so different names share a hash: a permutation of a name has its hash, and so has a name
with a component repeated twice more.

The hashtable keeps its nodes in buckets, each a linked list read from its head. A new node is
attached at the head of the bucket of its hash, and a resize attaches every node again, bucket
by bucket, into the new buckets.

* `computeHash_perm`: names whose components are a permutation of each other hash alike.
* `computeHash_append_pair`: two equal components appended leave the hash as it was.
* `Hashtable.mem_nodes_findOrInsert`, `Hashtable.findOrInsert_of_small`: what `findOrInsert`
  adds, and that below the expand threshold it only attaches.
-/

namespace MwNfd

/-- `HashFunc::compute` on a component's element: `HashValue` is a 64-bit `size_t`, so it is
`CityHash64`. -/
def componentHash (c : Component) : UInt64 := CityHash.cityHash64 c.wire

/-- `name_tree::computeHash(name, prefixLen)`: the XOR of the hashes of the first `prefixLen`
components. -/
def computeHash (name : Name) (prefixLen : Nat) : UInt64 :=
  ((name.take prefixLen).map componentHash).foldl (· ^^^ ·) 0

/-- `name_tree::computeHashes(name, prefixLen)`: the hash of every prefix, from the empty one. -/
def computeHashes (name : Name) (prefixLen : Nat) : List UInt64 :=
  ((name.take prefixLen).map componentHash).scanl (· ^^^ ·) 0

/-- XOR folded over a list does not depend on the order of the list. -/
theorem foldl_xor_perm {l₁ l₂ : List UInt64} (h : l₁.Perm l₂) (init : UInt64) :
    l₁.foldl (· ^^^ ·) init = l₂.foldl (· ^^^ ·) init :=
  h.foldl_eq' (fun x _ y _ z => by
    rw [UInt64.xor_assoc, UInt64.xor_comm x y, ← UInt64.xor_assoc]) init

/-- The hash of a whole name, as `EntryHasher` computes it. -/
theorem computeHash_length (name : Name) :
    computeHash name name.length = (name.map componentHash).foldl (· ^^^ ·) 0 := by
  rw [computeHash, List.take_length]

/-- A permutation of a name's components has the name's hash. -/
theorem computeHash_perm {n m : Name} (h : n.Perm m) :
    computeHash n n.length = computeHash m m.length := by
  rw [computeHash_length, computeHash_length]
  exact foldl_xor_perm (h.map componentHash) 0

/-- Two equal components after a name cancel in its hash. -/
theorem computeHash_append_pair (n : Name) (c : Component) :
    computeHash (n ++ [c, c]) (n ++ [c, c]).length = computeHash n n.length := by
  rw [computeHash_length, computeHash_length, List.map_append, List.foldl_append]
  -- the component's hash is xor-ed in twice, which cancels
  simp only [List.map_cons, List.map_nil, List.foldl_cons, List.foldl_nil]
  rw [UInt64.xor_assoc, UInt64.xor_self, UInt64.xor_zero]

/-- The hash of each prefix, as `computeHashes` lists them. -/
theorem getD_computeHashes {name : Name} {prefixLen i : Nat} (hi : i ≤ prefixLen)
    (hn : i ≤ name.length) : (computeHashes name prefixLen).getD i 0 = computeHash name i := by
  unfold computeHashes
  have hlen : i < (((name.take prefixLen).map componentHash).scanl (· ^^^ ·) 0).length := by
    simp only [List.length_scanl, List.length_map, List.length_take]
    omega
  rw [List.getD_eq_getElem?_getD, List.getElem?_eq_getElem hlen, Option.getD_some,
    List.getElem_scanl, ← List.map_take, List.take_take, Nat.min_eq_left hi, computeHash]

/-! ## The hashtable -/

/-- A node: the cached hash and the NameTree entry, of which the model keeps the name and the PIT
entries (`m_pitEntries` in vector order, a PIT entry standing for its Interest). The entry's
parent and children, and its FIB, measurements and strategy choice entries, are left out. -/
structure Node where
  hash : UInt64
  name : Name
  pitEntries : List Interest
  deriving DecidableEq

/-- `Hashtable`: the buckets, the node count `m_size` and the options' `minSize`. The load and
growth factors are the defaults of `HashtableOptions` (0.5, 2.0, 0.1 and 0.5). -/
structure Hashtable where
  buckets : List (List Node)
  size : Nat
  minSize : Nat
  nBuckets_pos : 0 < buckets.length
  minSize_pos : 0 < minSize

namespace Hashtable

/-- `Hashtable(HashtableOptions(size))`: `size` empty buckets, and `minSize` the same. -/
def init (size : Nat) (h : 0 < size) : Hashtable :=
  ⟨List.replicate size [], 0, size, by simpa using h, h⟩

def nBuckets (ht : Hashtable) : Nat := ht.buckets.length

/-- Every node, bucket by bucket. -/
def nodes (ht : Hashtable) : List Node := ht.buckets.flatten

def computeBucketIndex (ht : Hashtable) (h : UInt64) : Nat := h.toNat % ht.nBuckets

/-- `m_expandThreshold`: `expandLoadFactor * nBuckets` cast to `size_t`. The float product
`0.5f * n` is exact for every bucket count below 2^24. -/
def expandThreshold (ht : Hashtable) : Nat := ht.nBuckets / 2

/-- `m_shrinkThreshold`: `shrinkLoadFactor * nBuckets` cast to `size_t`, which is `n / 10` for
every bucket count below 2^22 (the float `0.1f` is just above 0.1). -/
def shrinkThreshold (ht : Hashtable) : Nat := ht.nBuckets / 10

/-- `Hashtable::attach`: the node becomes the head of the bucket. -/
def attach (buckets : List (List Node)) (bucket : Nat) (node : Node) : List (List Node) :=
  buckets.modify bucket (node :: ·)

/-- The buckets `resize` builds: each old bucket from its head, each node attached to the
bucket of its hash among `newNBuckets` empty ones. -/
def rehash (buckets : List (List Node)) (newNBuckets : Nat) : List (List Node) :=
  buckets.foldl (fun acc head => head.foldl
    (fun acc node => attach acc (node.hash.toNat % newNBuckets) node) acc)
    (List.replicate newNBuckets [])

@[simp] theorem length_attach (buckets : List (List Node)) (bucket : Nat) (node : Node) :
    (attach buckets bucket node).length = buckets.length :=
  List.length_modify _ _ _

theorem length_foldl_attach (f : Node → Nat) (l : List Node) (acc : List (List Node)) :
    (l.foldl (fun acc node => attach acc (f node) node) acc).length = acc.length := by
  induction l generalizing acc with
  | nil => rfl
  | cons node l ih => rw [List.foldl_cons, ih, length_attach]

@[simp] theorem length_rehash (buckets : List (List Node)) (newNBuckets : Nat) :
    (rehash buckets newNBuckets).length = newNBuckets := by
  suffices ∀ acc : List (List Node), (buckets.foldl (fun acc head => head.foldl
      (fun acc node => attach acc (node.hash.toNat % newNBuckets) node) acc) acc).length =
      acc.length by
    rw [rehash, this, List.length_replicate]
  induction buckets with
  | nil => intro acc; rfl
  | cons head buckets ih => intro acc; rw [List.foldl_cons, ih, length_foldl_attach]

/-- The head of the bucket a node is attached to is that node. -/
theorem getD_attach_self {buckets : List (List Node)} {bucket : Nat} (node : Node)
    (hb : bucket < buckets.length) :
    (attach buckets bucket node).getD bucket [] = node :: buckets.getD bucket [] := by
  simp [attach, List.getD_eq_getElem?_getD, hb]

/-- The nodes of the buckets around bucket `i`, and those of bucket `i`. -/
theorem flatten_eq_split {buckets : List (List Node)} {i : Nat} (h : i < buckets.length) :
    buckets.flatten =
      (buckets.take i).flatten ++ buckets[i] ++ (buckets.drop (i + 1)).flatten := by
  conv_lhs => rw [← List.take_append_drop i buckets]
  rw [List.flatten_append, List.append_assoc, List.drop_eq_getElem_cons h, List.flatten_cons]

theorem flatten_modify {buckets : List (List Node)} {i : Nat} (f : List Node → List Node)
    (h : i < buckets.length) :
    (buckets.modify i f).flatten =
      (buckets.take i).flatten ++ f buckets[i] ++ (buckets.drop (i + 1)).flatten := by
  rw [List.modify_eq_take_cons_drop h, List.flatten_append, List.flatten_cons, List.append_assoc]

/-- Attaching a node adds it to the nodes. -/
theorem perm_flatten_attach {buckets : List (List Node)} {bucket : Nat} (node : Node)
    (hb : bucket < buckets.length) :
    (attach buckets bucket node).flatten.Perm (node :: buckets.flatten) := by
  rw [attach, flatten_modify _ hb, flatten_eq_split hb]
  simp only [List.cons_append, List.append_assoc]
  exact List.perm_middle

/-- What bucket `b` holds after a change of bucket `i`. -/
theorem mem_getD_modify {buckets : List (List Node)} {i b : Nat} {f : List Node → List Node}
    {x : Node} (hx : x ∈ (buckets.modify i f).getD b []) :
    (b = i ∧ x ∈ f (buckets.getD i [])) ∨ (b ≠ i ∧ x ∈ buckets.getD b []) := by
  simp only [List.getD_eq_getElem?_getD, List.getElem?_modify] at hx ⊢
  by_cases hb : i = b
  · subst hb
    cases hget : buckets[i]? <;> simp_all
  · cases hget : buckets[b]? <;> simp_all [Ne.symm hb]

theorem mem_getD_attach {buckets : List (List Node)} {bucket b : Nat} {node x : Node}
    (hx : x ∈ (attach buckets bucket node).getD b []) :
    (b = bucket ∧ x = node) ∨ x ∈ buckets.getD b [] := by
  rcases mem_getD_modify hx with ⟨rfl, hx⟩ | ⟨-, hx⟩
  · rcases List.mem_cons.mp hx with rfl | hx
    · exact .inl ⟨rfl, rfl⟩
    · exact .inr hx
  · exact .inr hx

/-- Attaching nodes to buckets in range adds them to the nodes. -/
theorem perm_flatten_foldl_attach {f : Node → Nat} (l : List Node) (acc : List (List Node))
    (hf : ∀ node, f node < acc.length) :
    (l.foldl (fun acc node => attach acc (f node) node) acc).flatten.Perm (l ++ acc.flatten) := by
  induction l generalizing acc with
  | nil => simp
  | cons node l ih =>
    rw [List.foldl_cons]
    have hacc := ih (attach acc (f node) node) (fun node' => by rw [length_attach]; exact hf node')
    refine hacc.trans ?_
    refine ((perm_flatten_attach node (hf node)).append_left l).trans ?_
    exact List.perm_middle.trans (by simp)

/-- Each node attached by `f` lies in bucket `f node`, as those before did. -/
theorem mem_getD_foldl_attach {f : Node → Nat} (l : List Node) (acc : List (List Node))
    (hacc : ∀ b x, x ∈ acc.getD b [] → b = f x) :
    ∀ b x, x ∈ (l.foldl (fun acc node => attach acc (f node) node) acc).getD b [] → b = f x := by
  induction l generalizing acc with
  | nil => exact hacc
  | cons node l ih =>
    refine ih _ fun b x hx => ?_
    rcases mem_getD_attach hx with ⟨rfl, rfl⟩ | hx
    · rfl
    · exact hacc b x hx

/-- A rehash keeps the nodes, each once. -/
theorem perm_flatten_rehash (buckets : List (List Node)) {newNBuckets : Nat}
    (hpos : 0 < newNBuckets) : (rehash buckets newNBuckets).flatten.Perm buckets.flatten := by
  -- the accumulator always has `newNBuckets` buckets, so every hash's bucket is in range
  suffices ∀ acc : List (List Node), acc.length = newNBuckets →
      (buckets.foldl (fun acc head => head.foldl
        (fun acc node => attach acc (node.hash.toNat % newNBuckets) node) acc) acc).flatten.Perm
        (buckets.flatten ++ acc.flatten) by
    have h := this (List.replicate newNBuckets []) List.length_replicate
    rwa [List.flatten_replicate_nil, List.append_nil] at h
  induction buckets with
  | nil => intro acc _; simp
  | cons head buckets ih =>
    intro acc hacc
    have hf : ∀ node : Node, node.hash.toNat % newNBuckets < acc.length := fun node => by
      rw [hacc]; exact Nat.mod_lt _ hpos
    rw [List.foldl_cons]
    refine (ih _ (by rw [length_foldl_attach, hacc])).trans ?_
    refine ((perm_flatten_foldl_attach head acc hf).append_left _).trans ?_
    rw [List.flatten_cons, ← List.append_assoc]
    exact List.perm_append_comm.append_right _

/-- After a rehash every node lies in the bucket of its hash. -/
theorem mem_getD_rehash {buckets : List (List Node)} {newNBuckets b : Nat} {x : Node}
    (hx : x ∈ (rehash buckets newNBuckets).getD b []) : b = x.hash.toNat % newNBuckets := by
  -- each pass over an old bucket attaches its nodes by their hash
  have key : ∀ (bs acc : List (List Node)), (∀ b x, x ∈ acc.getD b [] →
      b = x.hash.toNat % newNBuckets) →
      ∀ b x, x ∈ (bs.foldl (fun acc head => head.foldl
        (fun acc node => attach acc (node.hash.toNat % newNBuckets) node) acc) acc).getD b [] →
        b = x.hash.toNat % newNBuckets := by
    intro bs
    induction bs with
    | nil => intro acc hacc; exact hacc
    | cons head bs ih =>
      intro acc hacc
      exact ih _ (mem_getD_foldl_attach head acc hacc)
  have hinit : ∀ b x, x ∈ (List.replicate newNBuckets ([] : List Node)).getD b [] →
      b = x.hash.toNat % newNBuckets := by
    intro b x hx
    simp only [List.getD_eq_getElem?_getD, List.getElem?_replicate] at hx
    split at hx <;> simp at hx
  exact key buckets _ hinit b x hx

/-- Taking a node out of the bucket that holds it takes it out of the nodes. -/
theorem perm_flatten_modify_erase {buckets : List (List Node)} {i : Nat} {x : Node}
    (hx : x ∈ buckets.getD i []) :
    (x :: (buckets.modify i (·.erase x)).flatten).Perm buckets.flatten := by
  have hi : i < buckets.length := by
    by_contra hge
    simp [List.getD_eq_getElem?_getD, List.getElem?_eq_none (Nat.le_of_not_lt hge)] at hx
  have hxi : x ∈ buckets[i] := by simpa [List.getD_eq_getElem?_getD, hi] using hx
  rw [flatten_modify _ hi, flatten_eq_split hi, List.append_assoc, List.append_assoc]
  refine List.perm_middle.symm.trans ?_
  exact ((List.perm_cons_erase hxi).symm.append_right _).append_left _

/-- `Hashtable::resize`: nothing when the bucket count stays, otherwise every node attached again
into `newNBuckets` buckets. -/
def resize (ht : Hashtable) (newNBuckets : Nat) (hpos : 0 < newNBuckets) : Hashtable :=
  if ht.nBuckets = newNBuckets then ht
  else { ht with buckets := rehash ht.buckets newNBuckets, nBuckets_pos := by simpa using hpos }

theorem mem_nodes_resize {ht : Hashtable} {newNBuckets : Nat} (hpos : 0 < newNBuckets)
    {x : Node} : x ∈ (ht.resize newNBuckets hpos).nodes ↔ x ∈ ht.nodes := by
  unfold resize
  split
  · rfl
  · exact (perm_flatten_rehash ht.buckets hpos).mem_iff

theorem computeBucketIndex_lt (ht : Hashtable) (h : UInt64) :
    ht.computeBucketIndex h < ht.buckets.length :=
  Nat.mod_lt _ ht.nBuckets_pos

/-- `attach` of a new node, with `++m_size`. -/
def attachNew (ht : Hashtable) (bucket : Nat) (node : Node) : Hashtable :=
  { ht with buckets := attach ht.buckets bucket node,
            size := ht.size + 1,
            nBuckets_pos := by simpa using ht.nBuckets_pos }

/-- The end of `findOrInsert`: past the expand threshold, a resize to `expandFactor` times the
buckets. -/
def expand (ht : Hashtable) : Hashtable :=
  if ht.size > ht.expandThreshold then
    ht.resize (2 * ht.nBuckets) (by have := ht.nBuckets_pos; unfold nBuckets; omega)
  else ht

/-- `Hashtable::findOrInsert(name, prefixLen, h, allowInsert)`: the first node of the bucket
with the hash `h` whose name is the name's first `prefixLen` components; otherwise, when
insertion is allowed, a new node at the head of the bucket, then the expansion. The node, and
whether it is new. -/
def findOrInsert (ht : Hashtable) (name : Name) (prefixLen : Nat) (h : UInt64)
    (allowInsert : Bool) : Hashtable × Option Node × Bool :=
  let bucket := ht.computeBucketIndex h
  match (ht.buckets.getD bucket []).find?
      (fun node => node.hash == h && name.take prefixLen == node.name) with
  | some node => (ht, some node, false)
  | none =>
    if !allowInsert then (ht, none, false)
    else
      let node : Node := ⟨h, name.take prefixLen, []⟩
      ((ht.attachNew bucket node).expand, some node, true)

theorem mem_nodes_attachNew {ht : Hashtable} {node x : Node} (h : UInt64) :
    x ∈ (ht.attachNew (ht.computeBucketIndex h) node).nodes ↔ x = node ∨ x ∈ ht.nodes :=
  (perm_flatten_attach node (computeBucketIndex_lt ht h)).mem_iff.trans List.mem_cons

theorem mem_nodes_expand {ht : Hashtable} {x : Node} :
    x ∈ ht.expand.nodes ↔ x ∈ ht.nodes := by
  unfold expand
  split
  · exact mem_nodes_resize _
  · rfl

theorem size_expand (ht : Hashtable) : ht.expand.size = ht.size := by
  unfold expand resize
  split_ifs <;> rfl

/-- Below the expand threshold the expansion does nothing. -/
theorem expand_of_le {ht : Hashtable} (h : ht.size ≤ ht.expandThreshold) : ht.expand = ht := by
  unfold expand
  rw [if_neg (Nat.not_lt.mpr h)]

/-- The nodes after `findOrInsert`: those before, and the node it may add. -/
theorem mem_nodes_findOrInsert {ht : Hashtable} {name : Name} {prefixLen : Nat} {h : UInt64}
    {allowInsert : Bool} {x : Node}
    (hx : x ∈ (ht.findOrInsert name prefixLen h allowInsert).1.nodes) :
    x ∈ ht.nodes ∨ x = ⟨h, name.take prefixLen, []⟩ := by
  unfold findOrInsert at hx
  dsimp only at hx
  split at hx
  · exact .inl hx
  · split at hx
    · exact .inl hx
    · rw [mem_nodes_expand, mem_nodes_attachNew] at hx
      exact hx.symm

/-- `findOrInsert` keeps every node. -/
theorem nodes_subset_findOrInsert {ht : Hashtable} {name : Name} {prefixLen : Nat} {h : UInt64}
    {allowInsert : Bool} {x : Node} (hx : x ∈ ht.nodes) :
    x ∈ (ht.findOrInsert name prefixLen h allowInsert).1.nodes := by
  unfold findOrInsert
  dsimp only
  split
  · exact hx
  · split
    · exact hx
    · rw [mem_nodes_expand, mem_nodes_attachNew]
      exact .inr hx

theorem size_findOrInsert_le (ht : Hashtable) (name : Name) (prefixLen : Nat) (h : UInt64)
    (allowInsert : Bool) :
    (ht.findOrInsert name prefixLen h allowInsert).1.size ≤ ht.size + 1 := by
  unfold findOrInsert
  dsimp only
  split
  · exact Nat.le_succ _
  · split
    · exact Nat.le_succ _
    · rw [size_expand]; rfl

/-- A lookup that finds a node changes nothing. -/
theorem findOrInsert_of_find?_some {ht : Hashtable} {name : Name} {prefixLen : Nat} {h : UInt64}
    {allowInsert : Bool} {node : Node}
    (hfind : (ht.buckets.getD (ht.computeBucketIndex h) []).find?
      (fun node => node.hash == h && name.take prefixLen == node.name) = some node) :
    ht.findOrInsert name prefixLen h allowInsert = (ht, some node, false) := by
  simp only [findOrInsert, hfind]

/-- Below the expand threshold, a node that is not found is attached at the head of its
bucket. -/
theorem findOrInsert_of_find?_none {ht : Hashtable} {name : Name} {prefixLen : Nat} {h : UInt64}
    (hfind : (ht.buckets.getD (ht.computeBucketIndex h) []).find?
      (fun node => node.hash == h && name.take prefixLen == node.name) = none)
    (hsmall : ht.size + 1 ≤ ht.expandThreshold) :
    ht.findOrInsert name prefixLen h true =
      (ht.attachNew (ht.computeBucketIndex h) ⟨h, name.take prefixLen, []⟩,
        some ⟨h, name.take prefixLen, []⟩, true) := by
  have hle : (ht.attachNew (ht.computeBucketIndex h) ⟨h, name.take prefixLen, []⟩).size ≤
      (ht.attachNew (ht.computeBucketIndex h)
        ⟨h, name.take prefixLen, []⟩).expandThreshold := by
    simpa [attachNew, expandThreshold, nBuckets] using hsmall
  simp only [findOrInsert, hfind, Bool.not_true, Bool.false_eq_true, if_false, expand_of_le hle]

/-- Below the expand threshold `findOrInsert` keeps the bucket count. -/
theorem nBuckets_findOrInsert_of_small {ht : Hashtable} {name : Name} {prefixLen : Nat}
    {h : UInt64} (hsmall : ht.size + 1 ≤ ht.expandThreshold) :
    (ht.findOrInsert name prefixLen h true).1.nBuckets = ht.nBuckets := by
  cases hfind : (ht.buckets.getD (ht.computeBucketIndex h) []).find?
      (fun node => node.hash == h && name.take prefixLen == node.name) with
  | some node => rw [findOrInsert_of_find?_some hfind]
  | none =>
    rw [findOrInsert_of_find?_none hfind hsmall]
    exact length_attach _ _ _

theorem mem_nodes_of_mem_bucket {ht : Hashtable} {bucket : Nat} {x : Node}
    (hx : x ∈ ht.buckets.getD bucket []) : x ∈ ht.nodes := by
  rw [List.getD_eq_getElem?_getD] at hx
  cases hb : ht.buckets[bucket]? with
  | none => simp [hb] at hx
  | some b =>
    rw [hb, Option.getD_some] at hx
    exact List.mem_flatten.mpr ⟨b, List.mem_of_getElem? hb, hx⟩

/-- No node of the table has the name's prefix: `findOrInsert` finds nothing. -/
theorem find?_eq_none_of_fresh {ht : Hashtable} {name : Name} {prefixLen : Nat} {h : UInt64}
    (hnew : ∀ x ∈ ht.nodes, x.name ≠ name.take prefixLen) :
    (ht.buckets.getD (ht.computeBucketIndex h) []).find?
      (fun node => node.hash == h && name.take prefixLen == node.name) = none := by
  rw [List.find?_eq_none]
  intro x hx hp
  simp only [Bool.and_eq_true, beq_iff_eq] at hp
  exact hnew x (mem_nodes_of_mem_bucket hx) hp.2.symm

/-- `Hashtable::find(name, prefixLen, hash)` under `ETRI_PITTOKEN_HASH`: the first node of the
hash's bucket that has the hash and whose name is a prefix of the name. `prefixLen` is not
read. -/
def find (ht : Hashtable) (name : Name) (hash : UInt64) : Option Node :=
  (ht.buckets.getD (ht.computeBucketIndex hash) []).find?
    (fun node => node.hash == hash && node.name.isPrefixOf name)

/-- `Hashtable::erase`, with `detach`: the node out of its bucket, then the table shrunk when it
has fewer nodes than the threshold. -/
def erase (ht : Hashtable) (node : Node) : Hashtable :=
  let ht : Hashtable := { ht with
    buckets := ht.buckets.modify (ht.computeBucketIndex node.hash) (·.erase node),
    size := ht.size - 1,
    nBuckets_pos := by simpa using ht.nBuckets_pos }
  if ht.size < ht.shrinkThreshold then
    ht.resize (max ht.minSize (ht.nBuckets / 2)) (by have := ht.minSize_pos; omega)
  else ht

/-- The NameTree entry's PIT entries changed: the node of that name, wherever it is. -/
def setPitEntries (ht : Hashtable) (name : Name) (pitEntries : List Interest) : Hashtable :=
  { ht with
    buckets := ht.buckets.map (·.map fun node =>
      if node.name = name then { node with pitEntries } else node)
    nBuckets_pos := by simpa using ht.nBuckets_pos }

/-- The first node of the hash's bucket, when it has the hash and a prefix of the name, is what
`find` returns. -/
theorem find_of_head {ht : Hashtable} {name : Name} {hash : UInt64} {x : Node} {rest : List Node}
    (hb : ht.buckets.getD (ht.computeBucketIndex hash) [] = x :: rest) (hh : x.hash = hash)
    (hp : x.name.isPrefixOf name = true) : ht.find name hash = some x := by
  rw [find, hb]
  simp [hh, hp]

theorem nBuckets_setPitEntries (ht : Hashtable) (name : Name) (pitEntries : List Interest) :
    (ht.setPitEntries name pitEntries).nBuckets = ht.nBuckets :=
  List.length_map _

theorem nBuckets_attachNew (ht : Hashtable) (bucket : Nat) (node : Node) :
    (ht.attachNew bucket node).nBuckets = ht.nBuckets :=
  length_attach _ _ _

theorem getD_setPitEntries (ht : Hashtable) (name : Name) (pitEntries : List Interest)
    (bucket : Nat) :
    (ht.setPitEntries name pitEntries).buckets.getD bucket [] =
      (ht.buckets.getD bucket []).map fun node =>
        if node.name = name then { node with pitEntries } else node := by
  simp only [setPitEntries, List.getD_eq_getElem?_getD, List.getElem?_map]
  cases ht.buckets[bucket]? <;> rfl

/-- A node of another name is kept as it is. -/
theorem mem_nodes_setPitEntries_of_ne {ht : Hashtable} {name : Name} {pitEntries : List Interest}
    {x : Node} (hx : x ∈ ht.nodes) (hne : x.name ≠ name) :
    x ∈ (ht.setPitEntries name pitEntries).nodes := by
  obtain ⟨b, hb, hxb⟩ := List.mem_flatten.mp hx
  refine List.mem_flatten.mpr ⟨_, List.mem_map_of_mem hb, ?_⟩
  exact List.mem_map.mpr ⟨x, hxb, if_neg hne⟩

/-- The node of the name takes the new PIT entries. -/
theorem mem_nodes_setPitEntries_self {ht : Hashtable} {name : Name} {pitEntries : List Interest}
    {x : Node} (hx : x ∈ ht.nodes) (heq : x.name = name) :
    { x with pitEntries } ∈ (ht.setPitEntries name pitEntries).nodes := by
  obtain ⟨b, hb, hxb⟩ := List.mem_flatten.mp hx
  refine List.mem_flatten.mpr ⟨_, List.mem_map_of_mem hb, ?_⟩
  exact List.mem_map.mpr ⟨x, hxb, if_pos heq⟩

/-- The names are kept. -/
theorem name_mem_setPitEntries {ht : Hashtable} {name : Name} {pitEntries : List Interest}
    {x : Node} (hx : x ∈ (ht.setPitEntries name pitEntries).nodes) :
    ∃ y ∈ ht.nodes, y.name = x.name := by
  obtain ⟨b', hb', hxb'⟩ := List.mem_flatten.mp hx
  obtain ⟨b, hb, rfl⟩ := List.mem_map.mp hb'
  obtain ⟨y, hy, rfl⟩ := List.mem_map.mp hxb'
  refine ⟨y, List.mem_flatten.mpr ⟨b, hb, hy⟩, ?_⟩
  split <;> rfl

/-! ## Every node in the bucket of its hash -/

/-- Every node lies in the bucket its hash selects. -/
def Placed (ht : Hashtable) : Prop :=
  ∀ b x, x ∈ ht.buckets.getD b [] → b = ht.computeBucketIndex x.hash

theorem mem_getD_of_placed {ht : Hashtable} (hp : ht.Placed) {x : Node} (hx : x ∈ ht.nodes) :
    x ∈ ht.buckets.getD (ht.computeBucketIndex x.hash) [] := by
  obtain ⟨l, hl, hxl⟩ := List.mem_flatten.mp hx
  obtain ⟨b, hb, rfl⟩ := List.getElem_of_mem hl
  have hget : x ∈ ht.buckets.getD b [] := by simpa [List.getD_eq_getElem?_getD, hb] using hxl
  rwa [← hp b x hget]

theorem size_resize (ht : Hashtable) {n : Nat} (hpos : 0 < n) :
    (ht.resize n hpos).size = ht.size := by
  unfold resize
  split <;> rfl

theorem perm_nodes_resize (ht : Hashtable) {n : Nat} (hpos : 0 < n) :
    (ht.resize n hpos).nodes.Perm ht.nodes := by
  unfold resize
  split
  · exact List.Perm.refl _
  · exact perm_flatten_rehash ht.buckets hpos

theorem Placed.resize {ht : Hashtable} (hp : ht.Placed) {n : Nat} (hpos : 0 < n) :
    (ht.resize n hpos).Placed := by
  unfold Hashtable.resize
  split
  · exact hp
  · intro b x hx
    simpa [computeBucketIndex, nBuckets] using mem_getD_rehash hx

theorem perm_nodes_expand (ht : Hashtable) : ht.expand.nodes.Perm ht.nodes := by
  unfold expand
  split
  · exact perm_nodes_resize _ _
  · exact List.Perm.refl _

theorem Placed.expand {ht : Hashtable} (hp : ht.Placed) : ht.expand.Placed := by
  unfold Hashtable.expand
  split
  · exact hp.resize _
  · exact hp

@[simp] theorem size_attachNew (ht : Hashtable) (bucket : Nat) (node : Node) :
    (ht.attachNew bucket node).size = ht.size + 1 := rfl

theorem perm_nodes_attachNew (ht : Hashtable) (node : Node) (h : UInt64) :
    (ht.attachNew (ht.computeBucketIndex h) node).nodes.Perm (node :: ht.nodes) :=
  perm_flatten_attach node (computeBucketIndex_lt ht h)

/-- A node attached to the bucket of its hash. -/
theorem Placed.attachNew {ht : Hashtable} (hp : ht.Placed) (node : Node) :
    (ht.attachNew (ht.computeBucketIndex node.hash) node).Placed := by
  intro b x hx
  have hn := nBuckets_attachNew ht (ht.computeBucketIndex node.hash) node
  simp only [computeBucketIndex] at hn ⊢
  rw [hn]
  rcases mem_getD_attach hx with ⟨rfl, rfl⟩ | hx
  · rfl
  · exact hp b x hx

/-- A node that no bucket has the prefix of: `findOrInsert` attaches it, then expands. -/
theorem findOrInsert_of_find?_none_expand {ht : Hashtable} {name : Name} {prefixLen : Nat}
    {h : UInt64}
    (hfind : (ht.buckets.getD (ht.computeBucketIndex h) []).find?
      (fun node => node.hash == h && name.take prefixLen == node.name) = none) :
    ht.findOrInsert name prefixLen h true =
      ((ht.attachNew (ht.computeBucketIndex h) ⟨h, name.take prefixLen, []⟩).expand,
        some ⟨h, name.take prefixLen, []⟩, true) := by
  simp only [findOrInsert, hfind, Bool.not_true, Bool.false_eq_true, if_false]

theorem size_erase (ht : Hashtable) (x : Node) : (ht.erase x).size = ht.size - 1 := by
  dsimp only [Hashtable.erase]
  split
  · exact size_resize _ _
  · rfl

/-- Erasing a node of the bucket of its hash takes it out of the nodes. -/
theorem perm_nodes_erase {ht : Hashtable} {x : Node}
    (hx : x ∈ ht.buckets.getD (ht.computeBucketIndex x.hash) []) :
    (x :: (ht.erase x).nodes).Perm ht.nodes := by
  dsimp only [Hashtable.erase]
  split
  · exact ((perm_nodes_resize _ _).cons x).trans (perm_flatten_modify_erase hx)
  · exact perm_flatten_modify_erase hx

theorem Placed.erase {ht : Hashtable} (hp : ht.Placed) (x : Node) : (ht.erase x).Placed := by
  -- the buckets before the shrink: one node fewer, the count the same
  have hmod : Placed { ht with
      buckets := ht.buckets.modify (ht.computeBucketIndex x.hash) (·.erase x),
      size := ht.size - 1,
      nBuckets_pos := by simpa using ht.nBuckets_pos } := by
    intro b y hy
    have hy' : y ∈ (ht.buckets.modify (ht.computeBucketIndex x.hash) (·.erase x)).getD b [] := hy
    show b = y.hash.toNat % (ht.buckets.modify (ht.computeBucketIndex x.hash) (·.erase x)).length
    rw [List.length_modify]
    rcases mem_getD_modify hy' with ⟨rfl, hmem⟩ | ⟨-, hmem⟩
    · exact hp _ y (List.mem_of_mem_erase hmem)
    · exact hp b y hmem
  dsimp only [Hashtable.erase]
  split
  · exact hmod.resize _
  · exact hmod

end Hashtable

end MwNfd
