import MwNfd.Table.Cs
import MwNfd.Table.NameTree
import MwNfd.NameOrder

/-!
# The dual Content Store with its Data (`cs.cpp`, `cs-entry.hpp`)

`Cs` keeps the keys of the two tables, the LRU queues and the limits. Here the tables hold Data:
`m_table` under each Data's full name, `m_tableExact` under its name. `m_tableExact` is a
`std::unordered_map<Name, Entry, EntryHasher, EntryComparator>`. Its hasher is the XOR name
hash, and its key equality `EntryComparator` returns a three-way comparison converted to
`bool`. That is `true` whenever the names differ, and also `true` (`-1`) when they are the
same name. So the map takes any key with the hash of the name looked up for that name. The
hash code is cached in each node (the hasher is not `noexcept`) and compared first, so the
lookup is the first node with the same hash that the comparator accepts. A new node goes to the
front of its bucket. A list in lookup order, newest first, stands for the map.

* `DualCs.find_permuted_name`: an Interest gets the Data of another name, with the same
  components in another order.
* `DualCs.erase_count`: `Cs::erase` counts the prefix table's entries up to the limit, and adds
  one more for the exact table.
-/

namespace MwNfd

open LruQueue

/-- `cs::Entry`: the Data, whether it came unsolicited, and `m_freshUntil` on the steady
clock. -/
structure CsEntry where
  data : Data
  isUnsolicited : Bool
  freshUntil : Nat

namespace CsEntry

/-- `cs::Entry::Entry`, which sets `m_freshUntil` from the Data's FreshnessPeriod. -/
def make (data : Data) (isUnsolicited : Bool) (now : Nat) : CsEntry :=
  ⟨data, isUnsolicited, now + data.freshnessPeriod⟩

def isFresh (e : CsEntry) (now : Nat) : Bool := now ≤ e.freshUntil

/-- `cs::Entry::canSatisfy`. -/
def canSatisfy (sha256 : List UInt8 → Sha256Digest) (e : CsEntry) (interest : Interest)
    (now : Nat) : Bool :=
  interest.matchesData sha256 e.data && !(interest.mustBeFresh && !e.isFresh now)

end CsEntry

/-- `EntryComparator(t1, t2)`, with `t1` the key looked up. `Name::compare` is 0 exactly on equal
names, and its result is returned as a `bool`. -/
def entryComparator (t1 t2 : Name) : Bool :=
  let queryIsFullName := t1.isFullName
  let differs := if queryIsFullName then t1.dropLast ≠ t2 else t1 ≠ t2
  if differs then true
  -- the digests compared
  else if queryIsFullName then t1.getLast? ≠ t2.getLast?
  -- `return -1`
  else true

/-- `m_tableExact.find(name)`: the first key whose hash is the name's and that the comparator
accepts. -/
def findExactMatch (tableExact : List Name) (name : Name) : Option Name :=
  tableExact.find? fun key =>
    computeHash key key.length == computeHash name name.length && entryComparator name key

/-- `compareDataWithData(lhs, rhs)`, for the Data stored under the full names `lhs` and `rhs`. -/
def compareDataWithData (viaWire : Bool) (lhs rhs : Name) : Int :=
  let cmp := Name.compare viaWire lhs.dropLast rhs.dropLast
  if cmp ≠ 0 then cmp
  else
    match lhs.getLast?, rhs.getLast? with
    | some l, some r => Component.compare viaWire l r
    | _, _ => 0

/-- The two tables with their Data: the keys, queues, limits and switches of `Cs`, with the
entries stored under the keys. -/
structure DualCs where
  keys : Cs Name
  entries : Name → Option CsEntry
  entriesExact : Name → Option CsEntry

namespace DualCs

variable (sha256 : List UInt8 → Sha256Digest)

/-- `Cs::Cs(nMaxPackets)`. -/
def init (nMaxPackets : Nat) : DualCs := ⟨Cs.init nMaxPackets, fun _ => none, fun _ => none⟩

/-- `Cs::insert(data, isUnsolicited)` under `ETRI_DUAL_CS`: `canBePrefix` is the PIT token's
CanBePrefix (true without a token), `noCache` a CachePolicy of NO_CACHE. `m_table` is a `std::set`
in `compareDataWithData`'s order: an entry of the same full name is refreshed, and a new one takes
its place in that order. The components are compared through their wire encodings, which gives
the signs the other way gives (`Name.sign_compare_eq`). In the exact table the node that
`emplace` finds for the name, if any, is erased, and a node for the Data is emplaced. -/
def insert (cs : DualCs) (data : Data) (isUnsolicited canBePrefix noCache : Bool) (now : Nat) :
    Option DualCs :=
  if !cs.keys.shouldAdmit || noCache then some cs
  else if canBePrefix then
    let key := data.fullName sha256
    match if key ∈ cs.keys.table then cs.entries key else none with
    | some e =>
      -- `updateFreshUntil`, `clearUnsolicited`, then `afterRefresh`
      let e := { e with freshUntil := now + e.data.freshnessPeriod,
                        isUnsolicited := e.isUnsolicited && isUnsolicited }
      some { cs with keys := { cs.keys with queue := touch cs.keys.queue key },
                     entries := Function.update cs.entries key (some e) }
    | none =>
      -- `m_table.emplace`: the entry at its place in the set's order
      let keys := { cs.keys with
        table := LexOrder.setInsert (compareDataWithData true) key cs.keys.table,
        queue := touch cs.keys.queue key }
      let entries := Function.update cs.entries key (some (CsEntry.make data isUnsolicited now))
      keys.evictEntries.map fun keys => { cs with keys, entries }
  else
    let keys := match findExactMatch cs.keys.tableExact data.name with
      | some old => { cs.keys with tableExact := cs.keys.tableExact.erase old,
                                   queueExact := cs.keys.queueExact.erase old }
      | none => cs.keys
    -- the new node at the front of its bucket, then `afterInsertExact`
    let keys := { keys with tableExact := data.name :: keys.tableExact,
                            queueExact := touch keys.queueExact data.name }
    let entriesExact :=
      Function.update cs.entriesExact data.name (some (CsEntry.make data isUnsolicited now))
    keys.evictEntriesExact.map fun keys => { cs with keys, entriesExact }

/-- `Cs::findImpl`: the first entry under the Interest's name (`findPrefixRange`, in the list
order that stands for the name order) that can satisfy it. -/
def findImpl (cs : DualCs) (interest : Interest) (now : Nat) : DualCs × Option Data :=
  if !cs.keys.shouldServe || cs.keys.pmLimit = 0 then (cs, none)
  else
    match (cs.keys.table.filter (interest.name.isPrefixOf ·)).find?
        (fun key => ((cs.entries key).map (·.canSatisfy sha256 interest now)).getD false) with
    | none => (cs, none)
    | some key =>
      match cs.entries key with
      | none => (cs, none)
      | some e =>
        ({ cs with keys := { cs.keys with queue := touch cs.keys.queue key } }, some e.data)

/-- `Cs::findImplExact`: the node the map finds for the Interest's name, without its digest if
it has one; only MustBeFresh is checked. -/
def findImplExact (cs : DualCs) (interest : Interest) (now : Nat) : DualCs × Option Data :=
  if !cs.keys.shouldServe || cs.keys.emLimit = 0 then (cs, none)
  else
    let name := if interest.name.isFullName then interest.name.dropLast else interest.name
    match findExactMatch cs.keys.tableExact name with
    | none => (cs, none)
    | some key =>
      match cs.entriesExact key with
      | none => (cs, none)
      | some e =>
        if interest.mustBeFresh && !e.isFresh now then (cs, none)
        else ({ cs with keys := { cs.keys with queueExact := touch cs.keys.queueExact key } },
          some e.data)

/-- `Cs::find`: the Data `hit` is called with, if any. A CanBePrefix Interest looks in the prefix
table, another in the exact table. -/
def find (cs : DualCs) (interest : Interest) (now : Nat) : DualCs × Option Data :=
  if interest.canBePrefix then cs.findImpl sha256 interest now else cs.findImplExact interest now

/-- `Cs::eraseImpl`: the first `limit` entries under the prefix, and their number. -/
def eraseImpl (cs : DualCs) (prefix_ : Name) (limit : Nat) : DualCs × Nat :=
  let victims := (cs.keys.table.filter (prefix_.isPrefixOf ·)).take limit
  let keys := { cs.keys with table := cs.keys.table.removeAll victims,
                             queue := cs.keys.queue.removeAll victims }
  ({ cs with keys }, victims.length)

/-- `Cs::eraseImplExact`: the node the map finds for the name, if any. -/
def eraseImplExact (cs : DualCs) (exact : Name) : DualCs × Nat :=
  match findExactMatch cs.keys.tableExact exact with
  | none => (cs, 0)
  | some key =>
    let keys := { cs.keys with tableExact := cs.keys.tableExact.erase key,
                               queueExact := cs.keys.queueExact.erase key }
    ({ cs with keys }, 1)

/-- `Cs::erase(prefix, limit, cb)`: the state after it and the number passed to `cb`. -/
def erase (cs : DualCs) (prefix_ : Name) (limit : Nat) : DualCs × Nat :=
  let (cs, nErased) := cs.eraseImpl prefix_ limit
  let (cs, nErasedExact) := cs.eraseImplExact prefix_
  (cs, nErased + nErasedExact)

/-! ## The exact table's lookup -/

/-- For a name without a digest the comparator accepts every key. -/
theorem entryComparator_of_isFullName_false {t1 : Name} (h : t1.isFullName = false) (t2 : Name) :
    entryComparator t1 t2 = true := by
  simp [entryComparator, h]

/-- For a name without a digest the exact table's lookup goes by the hash alone. -/
theorem findExactMatch_of_isFullName_false (ks : List Name) {name : Name}
    (h : name.isFullName = false) :
    findExactMatch ks name = ks.find? fun key =>
      computeHash key key.length == computeHash name name.length := by
  simp only [findExactMatch, entryComparator_of_isFullName_false h, Bool.and_true]

/-- A name without a digest that the table holds finds a key. -/
theorem findExactMatch_isSome {ks : List Name} {name : Name} (h : name.isFullName = false)
    (hmem : name ∈ ks) : (findExactMatch ks name).isSome := by
  rw [findExactMatch_of_isFullName_false ks h, List.find?_isSome]
  exact ⟨name, hmem, beq_self_eq_true _⟩

/-- The exact insert from the empty store: the exact table holds the Data's name alone, with the
new entry under it. -/
theorem insert_exact_init {n : Nat} (hn : 0 < n) (data : Data) (isUnsolicited : Bool)
    (now : Nat) :
    ∃ cs, (init n).insert sha256 data isUnsolicited false false now = some cs ∧
      cs.keys.tableExact = [data.name] ∧ cs.keys.shouldServe = true ∧ cs.keys.emLimit = n ∧
      cs.entriesExact data.name = some (CsEntry.make data isUnsolicited now) := by
  have hev : evict n 0 [data.name] [data.name] = some ([data.name], [data.name]) := by
    simp [evict]; omega
  have hins : (init n).insert sha256 data isUnsolicited false false now =
      some ⟨⟨[], [data.name], [], [data.name], n, n, true, true⟩, fun _ => none,
        Function.update (fun _ => none) data.name
          (some (CsEntry.make data isUnsolicited now))⟩ := by
    simp [insert, init, Cs.init, findExactMatch, Cs.evictEntriesExact, touch, hev]
  exact ⟨_, hins, rfl, rfl, rfl, by simp⟩

/-- What `findImplExact` hands to `hit` when the map finds a key for a name without a digest:
that key's Data, checked for nothing but MustBeFresh. -/
theorem findImplExact_of_findExactMatch {cs : DualCs} {interest : Interest} {key : Name}
    {e : CsEntry} (now : Nat) (hserve : cs.keys.shouldServe = true) (hlimit : cs.keys.emLimit ≠ 0)
    (hname : interest.name.isFullName = false)
    (hfind : findExactMatch cs.keys.tableExact interest.name = some key)
    (he : cs.entriesExact key = some e) (hfresh : interest.mustBeFresh = false) :
    (cs.findImplExact interest now).2 = some e.data := by
  simp [findImplExact, hserve, hlimit, hname, hfind, he, hfresh]

/-- A Data of another name of the same length does not satisfy an Interest without
CanBePrefix. -/
theorem matchesData_false_of_length {interest : Interest} {data : Data}
    (hcbp : interest.canBePrefix = false) (hlen : interest.name.length = data.name.length)
    (hne : interest.name ≠ data.name) : interest.matchesData sha256 data = false := by
  have hfull : interest.name.length ≠ data.name.length + 1 := by omega
  simp [Interest.matchesData, hfull, hcbp, hne]

/-- From an empty store, a Data stored in the exact table is what `Cs::find` hands to `hit` for an
Interest without CanBePrefix whose name has the Data's components in another order; and that Data
does not satisfy the Interest. -/
theorem find_permuted_name {n : Nat} (hn : 0 < n) (data : Data) (isUnsolicited : Bool)
    (now now' : Nat) (interest : Interest) (hcbp : interest.canBePrefix = false)
    (hfresh : interest.mustBeFresh = false) (hname : interest.name.isFullName = false)
    (hperm : interest.name.Perm data.name) (hne : interest.name ≠ data.name) :
    ∃ cs, (init n).insert sha256 data isUnsolicited false false now = some cs ∧
      (cs.find sha256 interest now').2 = some data ∧
      interest.matchesData sha256 data = false := by
  obtain ⟨cs, hins, htable, hserve, hlimit, he⟩ :=
    insert_exact_init sha256 hn data isUnsolicited now
  -- the only key has the Interest name's hash, and the comparator accepts it
  have hfind : findExactMatch cs.keys.tableExact interest.name = some data.name := by
    rw [findExactMatch_of_isFullName_false _ hname, htable, computeHash_perm hperm]
    simp
  refine ⟨cs, hins, ?_, matchesData_false_of_length sha256 hcbp hperm.length_eq hne⟩
  rw [find, hcbp]
  exact findImplExact_of_findExactMatch now' hserve (by omega) hname hfind he hfresh

/-- The Data /a/b, stored in the exact table, is handed to an Interest for /b/a. -/
theorem find_permuted_name_ba :
    ∃ cs, (init 10).insert (fun _ => ⟨List.replicate 32 0, rfl⟩)
        ⟨[Component.generic [0x61], Component.generic [0x62]], 0, []⟩ false false false 0 =
        some cs ∧
      (cs.find (fun _ => ⟨List.replicate 32 0, rfl⟩)
        ⟨[Component.generic [0x62], Component.generic [0x61]], false, false, []⟩ 0).2 =
        some ⟨[Component.generic [0x61], Component.generic [0x62]], 0, []⟩ ∧
      Interest.matchesData (fun _ => ⟨List.replicate 32 0, rfl⟩)
        ⟨[Component.generic [0x62], Component.generic [0x61]], false, false, []⟩
        ⟨[Component.generic [0x61], Component.generic [0x62]], 0, []⟩ = false :=
  find_permuted_name _ (by decide) _ false 0 0 _ rfl rfl (by decide) (by decide) (by decide)

/-! ## What `erase` counts -/

/-- `Cs::erase` reports the prefix table's entries under the prefix up to the limit, and one more
when the exact table's lookup of the prefix finds a key. -/
theorem erase_count (cs : DualCs) (prefix_ : Name) (limit : Nat) :
    (cs.erase prefix_ limit).2 = min limit (cs.keys.table.filter (prefix_.isPrefixOf ·)).length +
      if (findExactMatch cs.keys.tableExact prefix_).isSome then 1 else 0 := by
  simp only [erase, eraseImpl, eraseImplExact, List.length_take]
  cases findExactMatch cs.keys.tableExact prefix_ <;> rfl

/-- With at least `limit` entries under a prefix without a digest in the prefix table, and the
prefix itself in the exact table, `Cs::erase` reports one more than the limit. -/
theorem erase_count_exceeds_limit (cs : DualCs) {prefix_ : Name} {limit : Nat}
    (hname : prefix_.isFullName = false)
    (hlimit : limit ≤ (cs.keys.table.filter (prefix_.isPrefixOf ·)).length)
    (hexact : prefix_ ∈ cs.keys.tableExact) :
    (cs.erase prefix_ limit).2 = limit + 1 := by
  rw [erase_count, Nat.min_eq_left hlimit, if_pos (findExactMatch_isSome hname hexact)]

/-- The Data /a/b inserted into the prefix table and the Data /a into the exact table: erasing
/a with a limit of 1 reports 2. -/
theorem erase_count_exceeds_limit_a :
    ∃ cs, ((init 10).insert (fun _ => ⟨List.replicate 32 0, rfl⟩)
          ⟨[Component.generic [0x61], Component.generic [0x62]], 0, []⟩ false true false 0).bind
        (·.insert (fun _ => ⟨List.replicate 32 0, rfl⟩) ⟨[Component.generic [0x61]], 0, []⟩
          false false false 0) = some cs ∧
      (cs.erase [Component.generic [0x61]] 1).2 = 2 :=
  ⟨_, rfl, erase_count_exceeds_limit _ (by decide) (by decide) (by decide)⟩

end DualCs

end MwNfd
