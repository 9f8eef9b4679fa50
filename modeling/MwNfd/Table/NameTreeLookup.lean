import MwNfd.Table.Pit
import MwNfd.Lib.Links
import MwNfd.Lib.Run

/-!
# The NameTree's entries and their index (`name-tree.cpp`, `name-tree-entry.cpp`)

The NameTree keeps every entry twice: as a node of the hashtable, found from the hash of its
name, and in the tree of parent and children pointers that `Entry::setParent` and
`Entry::unsetParent` edit. `NameTree::lookup` finds or inserts each prefix of a name from the
root and links a new entry under the one before; `NameTree::eraseIfEmpty` erases an entry with no
child and no table entry, and then its ancestors while they are empty. An entry is named here by
its name, and a pointer to an entry by an `Option Name`.

* `Hashtable.Wf.findPrefix`: in a well-formed index, `Hashtable::find(name, prefixLen)`, which
  searches one bucket, finds what a search of all nodes by name finds.
* `State.Wf.lookup`, `State.Wf.eraseIfEmpty`: each call keeps the index and the tree well
  formed, and `lookup` returns the entry of the prefix.
* `State.Wf.eraseIfEmptyLoop_succ`: the rounds of `eraseIfEmpty` climb one component each, so its
  fuel never runs out.
* `Pit.erase_wf`: `Pit::erase`, which takes the PIT entry out of its NameTree entry and may then
  call `eraseIfEmpty`, keeps the NameTree well formed.
-/

namespace MwNfd

/-- The hash of a prefix, computed from the prefix alone. -/
theorem computeHash_take (name : Name) (k : Nat) :
    computeHash (name.take k) (name.take k).length = computeHash name k := by
  rw [computeHash, computeHash, List.take_length]

theorem dropLast_take_succ {name : Name} {k : Nat} (h : k + 1 ≤ name.length) :
    (name.take (k + 1)).dropLast = name.take k := by
  rw [List.dropLast_eq_take, List.length_take, List.take_take]
  congr 1
  omega

namespace Hashtable

/-- `Hashtable::find(name, prefixLen)`, the overload that computes the hash itself:
`findOrInsert` that may not insert. -/
def findPrefix (ht : Hashtable) (name : Name) (prefixLen : Nat) : Option Node :=
  (ht.findOrInsert name prefixLen (computeHash name prefixLen) false).2.1

/-- The index is well formed: one node a name, each node with the hash of its name and in the
bucket of that hash, and `m_size` the number of nodes. -/
structure Wf (ht : Hashtable) : Prop where
  nodup : (ht.nodes.map (·.name)).Nodup
  hash_eq : ∀ x ∈ ht.nodes, x.hash = computeHash x.name x.name.length
  placed : ht.Placed
  size_eq : ht.size = ht.nodes.length

theorem nodes_init (n : Nat) (hn : 0 < n) : (init n hn).nodes = [] := by
  simp [init, nodes]

theorem wf_init (n : Nat) (hn : 0 < n) : (init n hn).Wf := by
  refine ⟨by simp [nodes_init], by simp [nodes_init], ?_, by rw [nodes_init]; rfl⟩
  intro b x hx
  exact absurd (mem_nodes_of_mem_bucket hx) (by simp [nodes_init])

variable {ht : Hashtable}

theorem Wf.eq_of_name_eq (hw : ht.Wf) {x y : Node} (hx : x ∈ ht.nodes) (hy : y ∈ ht.nodes)
    (h : x.name = y.name) : x = y :=
  List.inj_on_of_nodup_map hw.nodup hx hy h

theorem Wf.nodup_nodes (hw : ht.Wf) : ht.nodes.Nodup :=
  List.Nodup.of_map _ hw.nodup

/-- The node of a prefix lies in the bucket of the prefix's hash. -/
theorem Wf.mem_bucket (hw : ht.Wf) {x : Node} (hx : x ∈ ht.nodes) {name : Name} {k : Nat}
    (hname : x.name = name.take k) :
    x ∈ ht.buckets.getD (ht.computeBucketIndex (computeHash name k)) [] := by
  have hhash : x.hash = computeHash name k := by
    rw [hw.hash_eq x hx, hname, computeHash_take]
  rw [← hhash]
  exact mem_getD_of_placed hw.placed hx

/-- A search that only one element passes finds it. -/
theorem find?_eq_some_of_unique {l : List Node} {p : Node → Bool} {x : Node} (hx : x ∈ l)
    (hp : p x) (huniq : ∀ y ∈ l, p y → y = x) : l.find? p = some x := by
  obtain ⟨y, hy⟩ := Option.isSome_iff_exists.mp (List.find?_isSome.mpr ⟨x, hx, hp⟩)
  rw [hy, huniq y (List.mem_of_find?_eq_some hy) (List.find?_some hy)]

/-- The search of `findOrInsert` in the bucket of the prefix's hash finds what a search of all
nodes by name finds. -/
theorem Wf.find?_bucket (hw : ht.Wf) (name : Name) (k : Nat) :
    (ht.buckets.getD (ht.computeBucketIndex (computeHash name k)) []).find?
        (fun node => node.hash == computeHash name k && name.take k == node.name) =
      ht.nodes.find? (fun x => x.name == name.take k) := by
  cases h : ht.nodes.find? (fun x => x.name == name.take k) with
  | none =>
    rw [List.find?_eq_none]
    intro y hy hp
    simp only [Bool.and_eq_true, beq_iff_eq] at hp
    have hy' := List.find?_eq_none.mp h y (mem_nodes_of_mem_bucket hy)
    simp [hp.2] at hy'
  | some x =>
    have hx := List.mem_of_find?_eq_some h
    have hname : x.name = name.take k := by simpa using List.find?_some h
    apply find?_eq_some_of_unique (hw.mem_bucket hx hname)
    · show (x.hash == computeHash name k && name.take k == x.name) = true
      rw [hw.hash_eq x hx, hname, computeHash_take]
      simp
    · intro y hy hp
      simp only [Bool.and_eq_true, beq_iff_eq] at hp
      exact hw.eq_of_name_eq (mem_nodes_of_mem_bucket hy) hx (hp.2.symm.trans hname.symm)

/-- `Hashtable::find(name, prefixLen)` returns the node of the prefix, and `nullptr` when there
is none. -/
theorem Wf.findPrefix (hw : ht.Wf) (name : Name) (k : Nat) :
    ht.findPrefix name k = ht.nodes.find? (fun x => x.name == name.take k) := by
  unfold Hashtable.findPrefix findOrInsert
  dsimp only
  rw [hw.find?_bucket]
  cases ht.nodes.find? (fun x => x.name == name.take k) <;> rfl

/-- What `findOrInsert` does to a well-formed index: it finds the node of the prefix, or there
is none and it attaches a new node and expands. -/
theorem Wf.findOrInsert_cases (hw : ht.Wf) (name : Name) (k : Nat) :
    (∃ x ∈ ht.nodes, x.name = name.take k ∧
      ht.findOrInsert name k (computeHash name k) true = (ht, some x, false)) ∨
    ((∀ x ∈ ht.nodes, x.name ≠ name.take k) ∧
      ht.findOrInsert name k (computeHash name k) true =
        ((ht.attachNew (ht.computeBucketIndex (computeHash name k))
          ⟨computeHash name k, name.take k, []⟩).expand,
          some ⟨computeHash name k, name.take k, []⟩, true)) := by
  cases h : ht.nodes.find? (fun x => x.name == name.take k) with
  | some x =>
    refine .inl ⟨x, List.mem_of_find?_eq_some h, by simpa using List.find?_some h, ?_⟩
    exact findOrInsert_of_find?_some (by rw [hw.find?_bucket, h])
  | none =>
    refine .inr ⟨fun x hx hname => ?_,
      findOrInsert_of_find?_none_expand (by rw [hw.find?_bucket, h])⟩
    simpa [hname] using List.find?_eq_none.mp h x hx

theorem perm_nodes_insertNew (ht : Hashtable) (name : Name) (k : Nat) :
    ((ht.attachNew (ht.computeBucketIndex (computeHash name k))
      ⟨computeHash name k, name.take k, []⟩).expand).nodes.Perm
      (⟨computeHash name k, name.take k, []⟩ :: ht.nodes) :=
  (perm_nodes_expand _).trans (perm_nodes_attachNew _ _ _)

/-- A new node for a prefix that has none keeps the index well formed. -/
theorem Wf.insertNew (hw : ht.Wf) {name : Name} {k : Nat}
    (hfresh : ∀ x ∈ ht.nodes, x.name ≠ name.take k) :
    ((ht.attachNew (ht.computeBucketIndex (computeHash name k))
      ⟨computeHash name k, name.take k, []⟩).expand).Wf := by
  have hperm := perm_nodes_insertNew ht name k
  constructor
  · rw [(hperm.map _).nodup_iff, List.map_cons, List.nodup_cons]
    refine ⟨fun h => ?_, hw.nodup⟩
    obtain ⟨x, hx, hname⟩ := List.mem_map.mp h
    exact hfresh x hx hname
  · intro x hx
    rcases List.mem_cons.mp (hperm.subset hx) with rfl | hx
    · exact (computeHash_take name k).symm
    · exact hw.hash_eq x hx
  · exact (hw.placed.attachNew _).expand
  · rw [size_expand, size_attachNew, hperm.length_eq, List.length_cons, hw.size_eq]

theorem Wf.findOrInsert (hw : ht.Wf) (name : Name) (k : Nat) :
    (ht.findOrInsert name k (computeHash name k) true).1.Wf := by
  rcases hw.findOrInsert_cases name k with ⟨x, -, -, h⟩ | ⟨hfresh, h⟩
  · rw [h]
    exact hw
  · rw [h]
    exact hw.insertNew hfresh

theorem Wf.perm_nodes_erase (hw : ht.Wf) {x : Node} (hx : x ∈ ht.nodes) :
    (ht.erase x).nodes.Perm (ht.nodes.erase x) :=
  ((Hashtable.perm_nodes_erase (mem_getD_of_placed hw.placed hx)).trans
    (List.perm_cons_erase hx)).cons_inv

theorem Wf.mem_nodes_erase (hw : ht.Wf) {x y : Node} (hx : x ∈ ht.nodes) :
    y ∈ (ht.erase x).nodes ↔ y ≠ x ∧ y ∈ ht.nodes := by
  rw [(hw.perm_nodes_erase hx).mem_iff, hw.nodup_nodes.mem_erase_iff]

/-- Erasing a node of the index, with the shrink it may trigger, keeps it well formed. -/
theorem Wf.erase (hw : ht.Wf) {x : Node} (hx : x ∈ ht.nodes) : (ht.erase x).Wf := by
  have hperm := hw.perm_nodes_erase hx
  constructor
  · exact (hperm.map _).nodup_iff.mpr (hw.nodup.sublist (List.erase_sublist.map _))
  · intro y hy
    exact hw.hash_eq y ((hw.mem_nodes_erase hx).mp hy).2
  · exact hw.placed.erase x
  · rw [size_erase, hw.size_eq, hperm.length_eq, List.length_erase_of_mem hx]

/-- The node that `setPitEntries` leaves at the place of `node`. -/
def withPitEntries (name : Name) (pitEntries : List Interest) (node : Node) : Node :=
  if node.name = name then { node with pitEntries } else node

@[simp] theorem name_withPitEntries (name : Name) (pitEntries : List Interest) (node : Node) :
    (withPitEntries name pitEntries node).name = node.name := by
  unfold withPitEntries
  split <;> rfl

@[simp] theorem hash_withPitEntries (name : Name) (pitEntries : List Interest) (node : Node) :
    (withPitEntries name pitEntries node).hash = node.hash := by
  unfold withPitEntries
  split <;> rfl

theorem nodes_setPitEntries (ht : Hashtable) (name : Name) (pitEntries : List Interest) :
    (ht.setPitEntries name pitEntries).nodes = ht.nodes.map (withPitEntries name pitEntries) := by
  simp only [nodes, setPitEntries, List.map_flatten]
  rfl

theorem names_setPitEntries (ht : Hashtable) (name : Name) (pitEntries : List Interest) :
    (ht.setPitEntries name pitEntries).nodes.map (·.name) = ht.nodes.map (·.name) := by
  rw [nodes_setPitEntries, List.map_map]
  exact List.map_congr_left fun node _ => name_withPitEntries name pitEntries node

/-- Replacing the PIT entries of a node moves no node and renames none, so the index stays well
formed. -/
theorem Wf.setPitEntries (hw : ht.Wf) (name : Name) (pitEntries : List Interest) :
    (ht.setPitEntries name pitEntries).Wf where
  nodup := by
    rw [names_setPitEntries]
    exact hw.nodup
  hash_eq x hx := by
    rw [nodes_setPitEntries] at hx
    obtain ⟨y, hy, rfl⟩ := List.mem_map.mp hx
    simpa using hw.hash_eq y hy
  placed b x hx := by
    rw [getD_setPitEntries] at hx
    obtain ⟨y, hy, rfl⟩ := List.mem_map.mp hx
    change b = (ht.setPitEntries name pitEntries).computeBucketIndex
      (withPitEntries name pitEntries y).hash
    rw [hash_withPitEntries, computeBucketIndex, nBuckets_setPitEntries]
    exact hw.placed b y hy
  size_eq := by
    rw [nodes_setPitEntries, List.length_map]
    exact hw.size_eq

end Hashtable

namespace NameTree

/-- The NameTree: the hashtable of nodes, and the entries' parent and children pointers, an entry
named by its name. -/
structure State where
  ht : Hashtable
  links : Links Name

namespace State

/-- The names of the entries. -/
def names (s : State) : List Name := s.ht.nodes.map (·.name)

/-- `NameTree::NameTree(nBuckets)`. -/
def init (nBuckets : Nat) (h : 0 < nBuckets) : State :=
  ⟨Hashtable.init nBuckets h, Links.empty⟩

/-- One round of the loop of `NameTree::lookup`: the prefix of `i` components found or inserted
with the hash `hashes` has for it; a new entry goes under the entry of the round before. -/
def lookupStep (name : Name) (hashes : List UInt64) (acc : State × Option Node) (i : Nat) :
    State × Option Node :=
  let r := acc.1.ht.findOrInsert name i (hashes.getD i 0) true
  let links :=
    match r.2.1, acc.2 with
    | some node, some parent =>
      if r.2.2 then acc.1.links.setParent node.name parent.name else acc.1.links
    | _, _ => acc.1.links
  (⟨r.1, links⟩, r.2.1)

/-- `NameTree::lookup(name, prefixLen)`: the entry of the prefix of `prefixLen` components, the
entries of the shorter prefixes found or inserted on the way. -/
def lookup (s : State) (name : Name) (prefixLen : Nat) : State × Option Node :=
  let hashes := computeHashes name prefixLen
  (List.range (prefixLen + 1)).foldl (lookupStep name hashes) (s, none)

/-- `NameTree::getNode(entry)`: the node that holds the entry. -/
def getNode (s : State) (entry : Name) : Option Node :=
  s.ht.nodes.find? (·.name == entry)

/-- `name_tree::Entry::isEmpty`: no child and no table entry. The node holds the PIT entries;
`hasOtherEntries` says which entries have a FIB, measurements or strategy choice entry. -/
def isEmpty (s : State) (hasOtherEntries : Name → Bool) (nte : Node) : Bool :=
  (s.links.children nte.name).isEmpty && nte.pitEntries.isEmpty && !hasOtherEntries nte.name

/-- The loop of `NameTree::eraseIfEmpty` from the entry `entry` (`none` for `nullptr`), with the
count `nErased`; `fuel` bounds the rounds. -/
def eraseIfEmptyLoop (hasOtherEntries : Name → Bool) (canEraseAncestors : Bool) :
    Nat → State → Option Name → Nat → State × Nat
  | 0, s, _, nErased => (s, nErased)
  | fuel + 1, s, entry, nErased =>
    match entry.bind s.getNode with
    | none => (s, nErased)
    | some nte =>
      if s.isEmpty hasOtherEntries nte then
        let parent := s.links.parent nte.name
        let links := if parent.isSome then s.links.unsetParent nte.name else s.links
        let s' : State := ⟨s.ht.erase nte, links⟩
        if !canEraseAncestors then (s', nErased + 1)
        else eraseIfEmptyLoop hasOtherEntries canEraseAncestors fuel s' parent (nErased + 1)
      else (s, nErased)

/-- `NameTree::eraseIfEmpty(entry, canEraseAncestors)`: the state after, and the number of
entries erased. Each round climbs one component, so the entry's length and one more rounds are
enough. -/
def eraseIfEmpty (s : State) (hasOtherEntries : Name → Bool) (entry : Name)
    (canEraseAncestors : Bool) : State × Nat :=
  eraseIfEmptyLoop hasOtherEntries canEraseAncestors (entry.length + 1) s (some entry) 0

/-- A call on the NameTree. `hasOtherEntries` is what the other tables have attached when
`eraseIfEmpty` is called. -/
inductive Op where
  | lookup (name : Name) (prefixLen : Nat)
  | eraseIfEmpty (entry : Name) (canEraseAncestors : Bool) (hasOtherEntries : Name → Bool)

/-- A call, refused where the source asserts: `lookup` of a prefix no longer than the name and
`getMaxDepth()`, `eraseIfEmpty` of an entry of the tree. -/
def step (s : State) : Op → Option State
  | .lookup name prefixLen =>
    if prefixLen ≤ name.length ∧ prefixLen ≤ maxDepth then some (s.lookup name prefixLen).1
    else none
  | .eraseIfEmpty entry canEraseAncestors hasOtherEntries =>
    if entry ∈ s.names then some (s.eraseIfEmpty hasOtherEntries entry canEraseAncestors).1
    else none

/-- The NameTree is well formed: the index is, the names are closed under dropping the last
component, each entry's parent is the entry of its name without the last component, and the
parent and children pointers agree. -/
structure Wf (s : State) : Prop where
  ht : s.ht.Wf
  dropLast_mem : ∀ n ∈ s.names, n ≠ [] → n.dropLast ∈ s.names
  parent_nil : s.links.parent [] = none
  parent_eq : ∀ n ∈ s.names, n ≠ [] → s.links.parent n = some n.dropLast
  parent_none : ∀ n, n ∉ s.names → s.links.parent n = none
  links : s.links.Consistent

theorem wf_init (nBuckets : Nat) (h : 0 < nBuckets) : (init nBuckets h).Wf where
  ht := Hashtable.wf_init nBuckets h
  dropLast_mem := by simp [names, init, Hashtable.nodes_init]
  parent_nil := rfl
  parent_eq := by simp [names, init, Hashtable.nodes_init]
  parent_none _ _ := rfl
  links := Links.consistent_empty

variable {s : State}

theorem mem_names {n : Name} : n ∈ s.names ↔ ∃ x ∈ s.ht.nodes, x.name = n :=
  List.mem_map

/-- An entry is taken as a prefix: every prefix of an entry's name is an entry. -/
theorem Wf.take_mem (hw : s.Wf) {n : Name} (hn : n ∈ s.names) (k : Nat) : n.take k ∈ s.names := by
  induction hlen : n.length - k generalizing n with
  | zero => rwa [List.take_of_length_le (by omega)]
  | succ d ih =>
    have hne : n ≠ [] := by
      rintro rfl
      simp at hlen
    have hk : k < n.length := by omega
    have htake : n.dropLast.take k = n.take k := by
      rw [List.dropLast_eq_take, List.take_take]
      congr 1
      omega
    rw [← htake]
    exact ih (hw.dropLast_mem n hn hne) (by rw [List.length_dropLast]; omega)

/-- A new entry `n` in a well-formed index, linked under the entry of `n.dropLast` unless it is
the root, keeps the NameTree well formed. -/
theorem Wf.addEntry (hw : s.Wf) {ht' : Hashtable} (hht : ht'.Wf) {n : Name}
    (hnames : ∀ m, m ∈ ht'.nodes.map (·.name) ↔ m = n ∨ m ∈ s.names) (hfresh : n ∉ s.names)
    {links : Links Name}
    (hlinks : (n = [] ∧ links = s.links) ∨
      (n ≠ [] ∧ n.dropLast ∈ s.names ∧ links = s.links.setParent n n.dropLast)) :
    (⟨ht', links⟩ : State).Wf := by
  have hparent : ∀ m, links.parent m =
      if m = n then (if n = [] then none else some n.dropLast) else s.links.parent m := by
    intro m
    rcases hlinks with ⟨rfl, rfl⟩ | ⟨hne, -, rfl⟩
    · split
      · next h => rw [h, hw.parent_nil, if_pos rfl]
      · rfl
    · rw [Links.parent_setParent, if_neg hne]
  have hdrop : n ≠ [] → n.dropLast ∈ s.names := by
    intro hne
    rcases hlinks with ⟨h, -⟩ | ⟨-, hdrop, -⟩
    · exact absurd h hne
    · exact hdrop
  refine ⟨hht, ?_, ?_, ?_, ?_, ?_⟩
  · intro m hm hm0
    rcases (hnames m).mp hm with rfl | hm
    · exact (hnames _).mpr (.inr (hdrop hm0))
    · exact (hnames _).mpr (.inr (hw.dropLast_mem m hm hm0))
  · show links.parent [] = none
    rw [hparent]
    split
    · next h => rw [if_pos h.symm]
    · exact hw.parent_nil
  · intro m hm hm0
    show links.parent m = some m.dropLast
    rw [hparent]
    split
    · next h =>
      subst h
      rw [if_neg hm0]
    · next h => exact hw.parent_eq m (((hnames m).mp hm).resolve_left h) hm0
  · intro m hm
    have hmn : m ≠ n := fun h => hm ((hnames m).mpr (.inl h))
    show links.parent m = none
    rw [hparent, if_neg hmn]
    exact hw.parent_none m fun h => hm ((hnames m).mpr (.inr h))
  · rcases hlinks with ⟨-, rfl⟩ | ⟨-, -, rfl⟩
    · exact hw.links
    · exact hw.links.setParent (hw.parent_none n hfresh) _

variable {name : Name} {hashes : List UInt64} {i : Nat}

theorem lookupStep_of_found {acc : State × Option Node} {x : Node}
    (hhash : hashes.getD i 0 = computeHash name i)
    (h : acc.1.ht.findOrInsert name i (computeHash name i) true = (acc.1.ht, some x, false)) :
    lookupStep name hashes acc i = (acc.1, some x) := by
  obtain ⟨t, parent⟩ := acc
  simp only [lookupStep, hhash, h]
  cases parent <;> rfl

theorem lookupStep_of_new {acc : State × Option Node} {ht' : Hashtable} {node : Node}
    (hhash : hashes.getD i 0 = computeHash name i)
    (h : acc.1.ht.findOrInsert name i (computeHash name i) true = (ht', some node, true)) :
    lookupStep name hashes acc i =
      (⟨ht', acc.2.elim acc.1.links fun p => acc.1.links.setParent node.name p.name⟩,
        some node) := by
  obtain ⟨t, parent⟩ := acc
  simp only [lookupStep, hhash, h]
  cases parent <;> rfl

/-- After the round of `lookup` for the prefix of `k` components: the tree is well formed and
the round's entry is the prefix's. -/
def LookupRound (name : Name) (k : Nat) (acc : State × Option Node) : Prop :=
  acc.1.Wf ∧ ∃ x ∈ acc.1.ht.nodes, acc.2 = some x ∧ x.name = name.take k

/-- One round of `lookup`, with the hash of its prefix, on a well-formed tree whose entry of the
round before is that of the prefix one component shorter. -/
theorem Wf.lookupStep {acc : State × Option Node} (hw : acc.1.Wf)
    (hhash : hashes.getD i 0 = computeHash name i)
    (hparent : ∀ p, acc.2 = some p → p ∈ acc.1.ht.nodes ∧ p.name = (name.take i).dropLast)
    (hroot : acc.2 = none → i = 0) :
    LookupRound name i (lookupStep name hashes acc i) := by
  rcases hw.ht.findOrInsert_cases name i with ⟨x, hx, hname, h⟩ | ⟨hfresh, h⟩
  · rw [lookupStep_of_found hhash h]
    exact ⟨hw, x, hx, rfl, hname⟩
  · rw [lookupStep_of_new hhash h]
    have hperm := Hashtable.perm_nodes_insertNew acc.1.ht name i
    refine ⟨?_, _, hperm.symm.subset List.mem_cons_self, rfl, rfl⟩
    have hfresh' : name.take i ∉ acc.1.names := fun hn => by
      obtain ⟨x, hx, hname⟩ := mem_names.mp hn
      exact hfresh x hx hname
    refine hw.addEntry (hw.ht.insertNew hfresh) (fun m => ?_) hfresh' ?_
    · rw [(hperm.map _).mem_iff, List.map_cons, List.mem_cons]
      rfl
    · cases hp : acc.2 with
      | none =>
        obtain rfl := hroot hp
        exact .inl ⟨List.take_zero, rfl⟩
      | some p =>
        obtain ⟨hp_mem, hp_name⟩ := hparent p hp
        have hne : name.take i ≠ [] := by
          intro h0
          rw [h0, List.dropLast_nil] at hp_name
          exact hfresh p hp_mem (hp_name.trans h0.symm)
        refine .inr ⟨hne, hp_name ▸ mem_names.mpr ⟨p, hp_mem, rfl⟩, ?_⟩
        rw [Option.elim_some, hp_name]

/-- `lookup` of a prefix no longer than the name keeps the NameTree well formed, and returns the
entry of the prefix. -/
theorem Wf.lookup (hw : s.Wf) {prefixLen : Nat} (h : prefixLen ≤ name.length) :
    (s.lookup name prefixLen).1.Wf ∧ ∃ x ∈ (s.lookup name prefixLen).1.ht.nodes,
      (s.lookup name prefixLen).2 = some x ∧ x.name = name.take prefixLen := by
  suffices hk : ∀ k ≤ prefixLen, LookupRound name k
      ((List.range (k + 1)).foldl (State.lookupStep name (computeHashes name prefixLen))
        (s, none)) by
    exact hk prefixLen le_rfl
  intro k hk
  induction k with
  | zero =>
    exact Wf.lookupStep hw (getD_computeHashes (Nat.zero_le _) (Nat.zero_le _)) (by simp)
      fun _ => rfl
  | succ k ih =>
    obtain ⟨hw', x, hx, hres, hname⟩ := ih (by omega)
    rw [List.range_succ, List.foldl_append, List.foldl_cons, List.foldl_nil]
    refine Wf.lookupStep hw' (getD_computeHashes hk (by omega)) ?_ (by simp [hres])
    intro p hp
    rw [hres, Option.some.injEq] at hp
    subst hp
    exact ⟨hx, by rw [hname, dropLast_take_succ (by omega)]⟩

/-- The hashtable of `lookup` is the one of the PIT's model, which leaves the pointers out. -/
theorem lookup_ht (s : State) (name : Name) (prefixLen : Nat) :
    ((s.lookup name prefixLen).1.ht, (s.lookup name prefixLen).2) =
      NameTree.lookup s.ht name prefixLen := by
  unfold State.lookup NameTree.lookup
  exact (List.foldl_hom (fun acc : State × Option Node => (acc.1.ht, acc.2))
    fun acc i => rfl).symm

theorem getNode_eq_some {e : Name} {nte : Node} (h : s.getNode e = some nte) :
    nte ∈ s.ht.nodes ∧ nte.name = e :=
  ⟨List.mem_of_find?_eq_some h, by simpa using List.find?_some h⟩

theorem children_eq_nil_of_isEmpty {hasOtherEntries : Name → Bool} {nte : Node}
    (h : s.isEmpty hasOtherEntries nte = true) : s.links.children nte.name = [] := by
  simp only [isEmpty, Bool.and_eq_true, List.isEmpty_iff] at h
  exact h.1.1

/-- The entry `x` erased from the index and unlinked from its parent. -/
def eraseEntry (s : State) (x : Node) : State :=
  ⟨s.ht.erase x, s.links.unsetParent x.name⟩

theorem Wf.mem_names_eraseEntry (hw : s.Wf) {x : Node} (hx : x ∈ s.ht.nodes) {m : Name} :
    m ∈ (s.eraseEntry x).names ↔ m ≠ x.name ∧ m ∈ s.names := by
  simp only [names, eraseEntry, List.mem_map, hw.ht.mem_nodes_erase hx]
  constructor
  · rintro ⟨y, ⟨hyx, hy⟩, rfl⟩
    exact ⟨fun h => hyx (hw.ht.eq_of_name_eq hy hx h), y, hy, rfl⟩
  · rintro ⟨hm, y, hy, rfl⟩
    exact ⟨y, ⟨fun h => hm (h ▸ rfl), hy⟩, rfl⟩

/-- Erasing an entry that has no child keeps the NameTree well formed. -/
theorem Wf.eraseEntry (hw : s.Wf) {x : Node} (hx : x ∈ s.ht.nodes)
    (hchildren : s.links.children x.name = []) : (s.eraseEntry x).Wf := by
  have hnames : ∀ m, m ∈ (s.eraseEntry x).names ↔ m ≠ x.name ∧ m ∈ s.names :=
    fun m => hw.mem_names_eraseEntry hx
  have hparent : ∀ m, (s.eraseEntry x).links.parent m =
      if m = x.name then none else s.links.parent m :=
    Links.parent_unsetParent s.links x.name
  refine ⟨hw.ht.erase hx, ?_, ?_, ?_, ?_, hw.links.unsetParent _⟩
  · intro m hm hm0
    obtain ⟨-, hm⟩ := (hnames m).mp hm
    refine (hnames _).mpr ⟨fun h => ?_, hw.dropLast_mem m hm hm0⟩
    have hchild : m ∈ s.links.children x.name :=
      (hw.links.mem_children m x.name).mpr (h ▸ hw.parent_eq m hm hm0)
    simp [hchildren] at hchild
  · rw [hparent]
    split
    · rfl
    · exact hw.parent_nil
  · intro m hm hm0
    obtain ⟨hmx, hm⟩ := (hnames m).mp hm
    rw [hparent, if_neg hmx]
    exact hw.parent_eq m hm hm0
  · intro m hm
    rw [hparent]
    split
    · rfl
    · next hmx => exact hw.parent_none m fun h => hm ((hnames m).mpr ⟨hmx, h⟩)

section EraseIfEmpty

variable {hasOtherEntries : Name → Bool} {canEraseAncestors : Bool} {fuel nErased : Nat}

@[simp] theorem eraseIfEmptyLoop_none :
    eraseIfEmptyLoop hasOtherEntries canEraseAncestors fuel s none nErased = (s, nErased) := by
  cases fuel <;> rfl

theorem eraseIfEmptyLoop_of_getNode_none {e : Name} (h : s.getNode e = none) :
    eraseIfEmptyLoop hasOtherEntries canEraseAncestors fuel s (some e) nErased = (s, nErased) := by
  cases fuel <;> simp [eraseIfEmptyLoop, h]

theorem eraseIfEmptyLoop_of_not_isEmpty {e : Name} {nte : Node} (hnode : s.getNode e = some nte)
    (h : s.isEmpty hasOtherEntries nte = false) :
    eraseIfEmptyLoop hasOtherEntries canEraseAncestors fuel s (some e) nErased = (s, nErased) := by
  cases fuel <;> simp [eraseIfEmptyLoop, hnode, h]

/-- A round on an empty entry: it is erased, and the loop goes on from its parent when it may
erase ancestors. -/
theorem eraseIfEmptyLoop_of_isEmpty {e : Name} {nte : Node} (hnode : s.getNode e = some nte)
    (h : s.isEmpty hasOtherEntries nte = true) :
    eraseIfEmptyLoop hasOtherEntries canEraseAncestors (fuel + 1) s (some e) nErased =
      if !canEraseAncestors then (s.eraseEntry nte, nErased + 1)
      else eraseIfEmptyLoop hasOtherEntries canEraseAncestors fuel (s.eraseEntry nte)
        (s.links.parent nte.name) (nErased + 1) := by
  simp only [eraseIfEmptyLoop, Option.bind_some, hnode, h, if_true, Links.ite_isSome_unsetParent]
  rfl

/-- The parent of an entry has one component less. -/
theorem Wf.length_add_one_of_parent (hw : s.Wf) {x : Node} (hx : x ∈ s.ht.nodes) {q : Name}
    (hq : s.links.parent x.name = some q) : q.length + 1 = x.name.length := by
  have hne : x.name ≠ [] := by
    rintro h
    rw [h, hw.parent_nil] at hq
    exact absurd hq (by simp)
  rw [hw.parent_eq x.name (mem_names.mpr ⟨x, hx, rfl⟩) hne, Option.some.injEq] at hq
  rw [← hq, List.length_dropLast]
  have := List.length_pos_iff.mpr hne
  omega

/-- Every round of `eraseIfEmpty` keeps the NameTree well formed. -/
theorem Wf.eraseIfEmptyLoop (hw : s.Wf) (entry : Option Name) :
    (eraseIfEmptyLoop hasOtherEntries canEraseAncestors fuel s entry nErased).1.Wf := by
  induction fuel generalizing s entry nErased with
  | zero => exact hw
  | succ fuel ih =>
    rcases entry with _ | e
    · rwa [eraseIfEmptyLoop_none]
    cases hnode : s.getNode e with
    | none => rwa [eraseIfEmptyLoop_of_getNode_none hnode]
    | some nte =>
      cases hempty : s.isEmpty hasOtherEntries nte with
      | false => rwa [eraseIfEmptyLoop_of_not_isEmpty hnode hempty]
      | true =>
        have hw' := hw.eraseEntry (getNode_eq_some hnode).1 (children_eq_nil_of_isEmpty hempty)
        rw [eraseIfEmptyLoop_of_isEmpty hnode hempty]
        split
        · exact hw'
        · exact ih hw' _

/-- The fuel of `eraseIfEmpty` does not run out: from an entry shorter than the fuel, one more
round of fuel changes nothing, as each round climbs to an entry one component shorter. -/
theorem Wf.eraseIfEmptyLoop_succ (hw : s.Wf) {entry : Option Name}
    (hentry : ∀ e ∈ entry, e.length < fuel) :
    State.eraseIfEmptyLoop hasOtherEntries canEraseAncestors (fuel + 1) s entry nErased =
      State.eraseIfEmptyLoop hasOtherEntries canEraseAncestors fuel s entry nErased := by
  induction fuel generalizing s entry nErased with
  | zero =>
    rcases entry with _ | e
    · simp
    · exact absurd (hentry e rfl) (Nat.not_lt_zero _)
  | succ fuel ih =>
    rcases entry with _ | e
    · simp
    cases hnode : s.getNode e with
    | none => rw [eraseIfEmptyLoop_of_getNode_none hnode, eraseIfEmptyLoop_of_getNode_none hnode]
    | some nte =>
      cases hempty : s.isEmpty hasOtherEntries nte with
      | false =>
        rw [eraseIfEmptyLoop_of_not_isEmpty hnode hempty,
          eraseIfEmptyLoop_of_not_isEmpty hnode hempty]
      | true =>
        obtain ⟨hx, hname⟩ := getNode_eq_some hnode
        have hw' := hw.eraseEntry hx (children_eq_nil_of_isEmpty hempty)
        rw [eraseIfEmptyLoop_of_isEmpty hnode hempty, eraseIfEmptyLoop_of_isEmpty hnode hempty]
        split
        · rfl
        · apply ih hw'
          intro q hq
          have hlen := hw.length_add_one_of_parent hx hq
          have he := hentry e rfl
          rw [hname] at hlen
          omega

theorem Wf.eraseIfEmpty (hw : s.Wf) (hasOtherEntries : Name → Bool) (entry : Name)
    (canEraseAncestors : Bool) : (s.eraseIfEmpty hasOtherEntries entry canEraseAncestors).1.Wf :=
  hw.eraseIfEmptyLoop _

/-- Every call the source does not refuse keeps the NameTree well formed. -/
theorem Wf.step (hw : s.Wf) {op : Op} {s' : State} (h : s.step op = some s') : s'.Wf := by
  cases op with
  | lookup name prefixLen =>
    simp only [State.step] at h
    split at h
    · next hguard =>
      cases h
      exact (hw.lookup hguard.1).1
    · cases h
  | eraseIfEmpty entry canEraseAncestors hasOtherEntries =>
    simp only [State.step] at h
    split at h
    · cases h
      exact hw.eraseIfEmpty _ _ _
    · cases h

theorem Wf.of_reachable {nBuckets : Nat} {hpos : 0 < nBuckets}
    (hs : Steps.Reachable State.step (init nBuckets hpos) s) : s.Wf :=
  hs.induction_on (wf_init nBuckets hpos) fun _ _ _ hw h => hw.step h

end EraseIfEmpty

/-- The PIT entries of the entry `name` replaced; no entry is added or erased. -/
def setPitEntries (s : State) (name : Name) (pitEntries : List Interest) : State :=
  ⟨s.ht.setPitEntries name pitEntries, s.links⟩

theorem Wf.setPitEntries (hw : s.Wf) (name : Name) (pitEntries : List Interest) :
    (s.setPitEntries name pitEntries).Wf := by
  have hnames : (s.setPitEntries name pitEntries).names = s.names :=
    Hashtable.names_setPitEntries s.ht name pitEntries
  obtain ⟨hht, hdrop, hnil, heq, hnone, hlinks⟩ := hw
  exact ⟨hht.setPitEntries name pitEntries, hnames ▸ hdrop, hnil, hnames ▸ heq, hnames ▸ hnone,
    hlinks⟩

/-- Every state that calls of `lookup` and `eraseIfEmpty` reach from a new NameTree is well
formed: the names are unique and closed under prefixes; the parent and children pointers follow
the names; every node has the hash of its name, lies in the bucket of that hash and in no other,
and is counted once in `m_size`; `Hashtable::find` and `lookup` give the entry of the prefix. -/
theorem reachable_wellFormed {nBuckets : Nat} {hpos : 0 < nBuckets} {s : State}
    (hs : Steps.Reachable State.step (init nBuckets hpos) s) :
    (s.names.Nodup ∧ ∀ n ∈ s.names, ∀ k, n.take k ∈ s.names) ∧
    (∀ n ∈ s.names, n ≠ [] → s.links.parent n = some n.dropLast) ∧
    (∀ p, (s.links.children p).Nodup ∧
      ∀ c, c ∈ s.links.children p ↔ s.links.parent c = some p) ∧
    (∀ x ∈ s.ht.nodes, x.hash = computeHash x.name x.name.length ∧
      ∀ b, x ∈ s.ht.buckets.getD b [] ↔ b = s.ht.computeBucketIndex x.hash) ∧
    s.ht.nodes.Nodup ∧ s.ht.size = s.ht.nodes.length ∧
    (∀ name k, s.ht.findPrefix name k = s.ht.nodes.find? (·.name == name.take k)) ∧
    (∀ name k, k ≤ name.length → ∃ x ∈ (s.lookup name k).1.ht.nodes,
      (s.lookup name k).2 = some x ∧ x.name = name.take k) := by
  have hw := Wf.of_reachable hs
  refine ⟨⟨hw.ht.nodup, fun n hn k => hw.take_mem hn k⟩, hw.parent_eq,
    fun p => ⟨hw.links.nodup p, fun c => hw.links.mem_children c p⟩,
    fun x hx => ⟨hw.ht.hash_eq x hx, fun b => ⟨hw.ht.placed b x, ?_⟩⟩, hw.ht.nodup_nodes,
    hw.ht.size_eq, hw.ht.findPrefix, fun name k hk => (hw.lookup hk).2⟩
  rintro rfl
  exact Hashtable.mem_getD_of_placed hw.ht.placed hx

theorem reachable_wellFormed_lookup :
    ((init 8 (by decide)).lookup [Component.generic [97]] 1).1.ht.findPrefix
        [Component.generic [97]] 1 =
      ((init 8 (by decide)).lookup [Component.generic [97]] 1).1.ht.nodes.find?
        (·.name == [Component.generic [97]].take 1) :=
  (@reachable_wellFormed 8 (by decide) _ (Steps.Reachable.step (.lookup [Component.generic [97]] 1)
    Steps.Reachable.init (by simp [State.step, maxDepth]))).2.2.2.2.2.2.1 _ 1

end State

end NameTree

namespace Pit

/-- `Pit::erase(entry, canDeleteNte)`: the PIT entry out of the NameTree entry of its name, which
`eraseIfEmpty` then erases with its empty ancestors. It is `none` where the source asserts, the
PIT entry not being in that NameTree entry. `hasOtherEntries` is as in `NameTree::eraseIfEmpty`. -/
def erase (s : NameTree.State) (hasOtherEntries : Name → Bool) (entry : Interest)
    (canDeleteNte : Bool) : Option NameTree.State :=
  let name := entry.name.take (nteDepth entry.name)
  match s.getNode name with
  | some nte =>
    if entry ∈ nte.pitEntries then
      let s := s.setPitEntries name (erasePitEntry nte.pitEntries entry)
      some (if canDeleteNte then (s.eraseIfEmpty hasOtherEntries name true).1 else s)
    else none
  | none => none

/-- Erasing a PIT entry keeps the NameTree well formed, whether or not it erases the NameTree
entry and its ancestors. -/
theorem erase_wf {s s' : NameTree.State} (hw : s.Wf) {hasOtherEntries : Name → Bool}
    {entry : Interest} {canDeleteNte : Bool}
    (h : erase s hasOtherEntries entry canDeleteNte = some s') : s'.Wf := by
  unfold erase at h
  cases hnode : s.getNode (entry.name.take (nteDepth entry.name)) with
  | none => simp [hnode] at h
  | some nte =>
    by_cases hmem : entry ∈ nte.pitEntries
    · simp only [hnode, hmem, if_true, Option.some.injEq] at h
      subst h
      have hw' := hw.setPitEntries (entry.name.take (nteDepth entry.name))
        (erasePitEntry nte.pitEntries entry)
      cases canDeleteNte with
      | true => exact hw'.eraseIfEmpty _ _ _
      | false => exact hw'
    · simp [hnode, hmem] at h

end Pit

end MwNfd
