import MwNfd.Lib.Lru
import MwNfd.Lib.Run

/-!
# The dual Content Store under the LRU policy (`cs.cpp`, `cs-policy-lru.cpp`)

With `ETRI_DUAL_CS` the Content Store has two tables: `m_table` for Data that a CanBePrefix
Interest fetched (the PIT token's `CanBePrefix`; a Data without a token goes there too), and
`m_tableExact` for the others. One `LruPolicy` keeps a queue for each, with its own limit:
`getPmLimit()` for the prefix table and `getEmLimit()` for the exact one. Its
`evictEntries` compares `Cs::size()`, the sum of both tables, with the prefix limit but pops
only the prefix queue; `evictEntriesExact` compares `sizeExact()` with the exact limit.

An entry is kept under a key of type `κ`: the Data's full name in `m_table`, its name in
`m_tableExact`. The lists stand for the tables' sets; their order stands for the name order
only where `find` and `erase` pick among several entries.

* `Cs.Inv`: each queue tracks its table, and each table is within its limit.
* `Cs.step_inv`, `Cs.reachable_inv`: every operation that returns keeps `Cs.Inv`, so every state
  a run reaches satisfies it.
* `Cs.evictEntries_eq_none_iff`, `Cs.evictEntriesExact_ne_none`: the prefix eviction pops an empty
  queue exactly when the exact table alone is over the prefix limit; the exact one never does.
-/

namespace MwNfd

open LruQueue

/-- The two tables, their queues, the policy's limits and the admit and serve switches.
`m_limit`, which `setLimit` writes, is read by no eviction and is left out. -/
structure Cs (κ : Type) where
  table : List κ
  tableExact : List κ
  queue : List κ
  queueExact : List κ
  pmLimit : Nat
  emLimit : Nat
  shouldAdmit : Bool
  shouldServe : Bool
  deriving DecidableEq

namespace Cs

variable {κ : Type} [DecidableEq κ]

/-- `Cs::Cs(nMaxPackets)`: empty tables, both limits at `nMaxPackets`. -/
def init (nMaxPackets : Nat) : Cs κ :=
  ⟨[], [], [], [], nMaxPackets, nMaxPackets, true, true⟩

/-- `LruPolicy::evictEntries`: while `size()` (both tables) is over the prefix limit, pop the
prefix queue and erase that entry (`beforeEvict`). `none`: the front of an empty queue. -/
def evictEntries (cs : Cs κ) : Option (Cs κ) :=
  (evict cs.pmLimit cs.tableExact.length cs.table cs.queue).map fun r =>
    { cs with table := r.1, queue := r.2 }

/-- `LruPolicy::evictEntriesExact`: while `sizeExact()` is over the exact limit, pop the exact
queue and erase that entry (`beforeEvictExact`). -/
def evictEntriesExact (cs : Cs κ) : Option (Cs κ) :=
  (evict cs.emLimit 0 cs.tableExact cs.queueExact).map fun r =>
    { cs with tableExact := r.1, queueExact := r.2 }

/-- `Cs::insert` of a Data stored under `key`; `canBePrefix` is its PIT token's `CanBePrefix`
(true without a token) and `noCache` a `CachePolicy` of `NO_CACHE`. In the prefix table an
existing entry is refreshed (`afterRefresh`: to the back of the queue, no eviction); in the
exact table it is erased and inserted again (`beforeEraseExact`, then `afterInsertExact`). -/
def insert (cs : Cs κ) (canBePrefix noCache : Bool) (key : κ) : Option (Cs κ) :=
  if !cs.shouldAdmit || noCache then some cs
  else if canBePrefix then
    if key ∈ cs.table then some { cs with queue := touch cs.queue key }
    else evictEntries { cs with table := cs.table.insert key, queue := touch cs.queue key }
  else
    let cs := { cs with tableExact := cs.tableExact.erase key,
                        queueExact := cs.queueExact.erase key }
    evictEntriesExact { cs with tableExact := cs.tableExact.insert key,
                                queueExact := touch cs.queueExact key }

/-- `Cs::find`: a CanBePrefix Interest looks in the prefix table (`findImpl`), another in the
exact table (`findImplExact`), for the first entry `canSatisfy` accepts. A hit moves it to the
back of its queue (`beforeUse`). Nothing is found when serving is off or the table's limit is
0. -/
def find (cs : Cs κ) (canBePrefix : Bool) (canSatisfy : κ → Bool) : Cs κ × Option κ :=
  if canBePrefix then
    if !cs.shouldServe || cs.pmLimit = 0 then (cs, none)
    else match cs.table.find? canSatisfy with
      | some i => ({ cs with queue := touch cs.queue i }, some i)
      | none => (cs, none)
  else
    if !cs.shouldServe || cs.emLimit = 0 then (cs, none)
    else match cs.tableExact.find? canSatisfy with
      | some i => ({ cs with queueExact := touch cs.queueExact i }, some i)
      | none => (cs, none)

/-- `Cs::erase(prefix, limit, cb)`: the first `limit` entries of the prefix table under the
prefix (`under`), then the exact table's entry named `prefix` (`exactKey`), each taken out of
its queue before it leaves its table. -/
def erase (cs : Cs κ) (under : κ → Bool) (limit : Nat) (exactKey : κ) : Cs κ :=
  let victims := (cs.table.filter under).take limit
  { cs with table := cs.table.removeAll victims, queue := cs.queue.removeAll victims,
            tableExact := cs.tableExact.erase exactKey,
            queueExact := cs.queueExact.erase exactKey }

/-- `Policy::setLimit`: both evictions, under the limits they already have. -/
def setLimit (cs : Cs κ) : Option (Cs κ) :=
  cs.evictEntries >>= evictEntriesExact

/-- `Policy::setPmLimit`. -/
def setPmLimit (cs : Cs κ) (nMaxEntries : Nat) : Option (Cs κ) :=
  evictEntries { cs with pmLimit := nMaxEntries }

/-- `Policy::setEmLimit`. -/
def setEmLimit (cs : Cs κ) (nMaxEntries : Nat) : Option (Cs κ) :=
  evictEntriesExact { cs with emLimit := nMaxEntries }

end Cs

/-- The operations on a Content Store. -/
inductive CsOp (κ : Type) where
  | insert (canBePrefix noCache : Bool) (key : κ)
  | find (canBePrefix : Bool) (canSatisfy : κ → Bool)
  | erase (under : κ → Bool) (limit : Nat) (exactKey : κ)
  | setLimit (nMaxPackets : Nat)
  | setPmLimit (nMaxPackets : Nat)
  | setEmLimit (nMaxPackets : Nat)
  | enableAdmit (shouldAdmit : Bool)
  | enableServe (shouldServe : Bool)

namespace Cs

variable {κ : Type} [DecidableEq κ]

/-- One operation; `none` where the policy pops an empty queue. -/
def step (cs : Cs κ) : CsOp κ → Option (Cs κ)
  | .insert canBePrefix noCache key => cs.insert canBePrefix noCache key
  | .find canBePrefix canSatisfy => some (cs.find canBePrefix canSatisfy).1
  | .erase under limit exactKey => some (cs.erase under limit exactKey)
  | .setLimit _ => cs.setLimit
  | .setPmLimit n => cs.setPmLimit n
  | .setEmLimit n => cs.setEmLimit n
  | .enableAdmit b => some { cs with shouldAdmit := b }
  | .enableServe b => some { cs with shouldServe := b }

/-! ## The invariant -/

/-- Each queue tracks its table, and each table is within its own limit. -/
structure Inv (cs : Cs κ) : Prop where
  tracks : Tracks cs.table cs.queue
  tracksExact : Tracks cs.tableExact cs.queueExact
  table_le : cs.table.length ≤ cs.pmLimit
  tableExact_le : cs.tableExact.length ≤ cs.emLimit

omit [DecidableEq κ] in
theorem inv_init (n : Nat) : (init n : Cs κ).Inv :=
  ⟨Tracks.nil, Tracks.nil, Nat.zero_le _, Nat.zero_le _⟩

/-- The prefix eviction pops an empty queue exactly when the exact table alone is over the
prefix limit. -/
theorem evictEntries_eq_none_iff {cs : Cs κ} (h : Tracks cs.table cs.queue) :
    cs.evictEntries = none ↔ cs.pmLimit < cs.tableExact.length := by
  unfold evictEntries
  rw [Option.map_eq_none_iff]
  exact evict_eq_none_iff h

/-- A prefix eviction that returns leaves both tables together within the prefix limit, and
the exact table as it was. -/
theorem evictEntries_some {cs cs' : Cs κ} (he : cs.evictEntries = some cs')
    (h : Tracks cs.table cs.queue) :
    ∃ t q, cs' = { cs with table := t, queue := q } ∧ Tracks t q ∧
      t.length + cs.tableExact.length ≤ cs.pmLimit := by
  unfold evictEntries at he
  obtain ⟨⟨t, q⟩, hev, rfl⟩ := Option.map_eq_some_iff.mp he
  exact ⟨t, q, rfl, Tracks.evict h hev⟩

theorem evictEntriesExact_ne_none {cs : Cs κ} (h : Tracks cs.tableExact cs.queueExact) :
    cs.evictEntriesExact ≠ none := by
  unfold evictEntriesExact
  rw [Ne, Option.map_eq_none_iff, evict_eq_none_iff h]
  omega

theorem evictEntriesExact_some {cs cs' : Cs κ} (he : cs.evictEntriesExact = some cs')
    (h : Tracks cs.tableExact cs.queueExact) :
    ∃ t q, cs' = { cs with tableExact := t, queueExact := q } ∧ Tracks t q ∧
      t.length ≤ cs.emLimit := by
  unfold evictEntriesExact at he
  obtain ⟨⟨t, q⟩, hev, rfl⟩ := Option.map_eq_some_iff.mp he
  exact ⟨t, q, rfl, (Tracks.evict h hev).1, by simpa using (Tracks.evict h hev).2⟩

/-- After a prefix eviction that returns, the invariant holds whenever the exact table was
within its limit and its queue tracked it. -/
theorem inv_of_evictEntries {cs cs' : Cs κ} (he : cs.evictEntries = some cs')
    (h : Tracks cs.table cs.queue) (hx : Tracks cs.tableExact cs.queueExact)
    (hxl : cs.tableExact.length ≤ cs.emLimit) : cs'.Inv := by
  obtain ⟨t, q, rfl, ht, hle⟩ := evictEntries_some he h
  exact ⟨ht, hx, by simp only; omega, hxl⟩

theorem inv_of_evictEntriesExact {cs cs' : Cs κ} (he : cs.evictEntriesExact = some cs')
    (h : Tracks cs.table cs.queue) (hl : cs.table.length ≤ cs.pmLimit)
    (hx : Tracks cs.tableExact cs.queueExact) : cs'.Inv := by
  obtain ⟨t, q, rfl, ht, hle⟩ := evictEntriesExact_some he hx
  exact ⟨h, ht, hl, hle⟩

theorem insert_inv {cs cs' : Cs κ} (hi : cs.Inv) {canBePrefix noCache : Bool} {key : κ}
    (h : cs.insert canBePrefix noCache key = some cs') : cs'.Inv := by
  unfold insert at h
  split_ifs at h with hadm hprefix hold
  · cases h
    exact hi
  · -- a refresh: the table is unchanged, the entry moves to the back
    cases h
    exact ⟨hi.tracks.touch hold, hi.tracksExact, hi.table_le, hi.tableExact_le⟩
  · exact inv_of_evictEntries h (hi.tracks.insert key) hi.tracksExact hi.tableExact_le
  · exact inv_of_evictEntriesExact h hi.tracks hi.table_le
      ((hi.tracksExact.erase key).insert key)

theorem find_inv {cs : Cs κ} (hi : cs.Inv) (canBePrefix : Bool) (canSatisfy : κ → Bool) :
    (cs.find canBePrefix canSatisfy).1.Inv := by
  unfold find
  split_ifs
  · exact hi
  · cases hf : cs.table.find? canSatisfy with
    | none => exact hi
    | some i =>
      -- a hit: the entry is in the table, so touching it keeps the table
      exact ⟨hi.tracks.touch (List.mem_of_find?_eq_some hf), hi.tracksExact, hi.table_le,
        hi.tableExact_le⟩
  · exact hi
  · cases hf : cs.tableExact.find? canSatisfy with
    | none => exact hi
    | some i =>
      exact ⟨hi.tracks, hi.tracksExact.touch (List.mem_of_find?_eq_some hf), hi.table_le,
        hi.tableExact_le⟩

theorem erase_inv {cs : Cs κ} (hi : cs.Inv) (under : κ → Bool) (limit : Nat) (exactKey : κ) :
    (cs.erase under limit exactKey).Inv := by
  refine ⟨hi.tracks.removeAll _, hi.tracksExact.erase exactKey, ?_, ?_⟩
  · exact Nat.le_trans (List.length_filter_le _ _) hi.table_le
  · exact Nat.le_trans (List.length_erase_le) hi.tableExact_le

/-- Every operation that returns keeps the invariant. -/
theorem step_inv {cs cs' : Cs κ} (hi : cs.Inv) {op : CsOp κ} (h : cs.step op = some cs') :
    cs'.Inv := by
  cases op with
  | insert canBePrefix noCache key => exact insert_inv hi h
  | find canBePrefix canSatisfy =>
    cases h
    exact find_inv hi canBePrefix canSatisfy
  | erase under limit exactKey =>
    cases h
    exact erase_inv hi under limit exactKey
  | setLimit n =>
    obtain ⟨cs₁, h₁, h₂⟩ := Option.bind_eq_some_iff.mp h
    have hi₁ := inv_of_evictEntries h₁ hi.tracks hi.tracksExact hi.tableExact_le
    exact inv_of_evictEntriesExact h₂ hi₁.tracks hi₁.table_le hi₁.tracksExact
  | setPmLimit n =>
    have he : evictEntries { cs with pmLimit := n } = some cs' := h
    exact inv_of_evictEntries he hi.tracks hi.tracksExact hi.tableExact_le
  | setEmLimit n =>
    have he : evictEntriesExact { cs with emLimit := n } = some cs' := h
    exact inv_of_evictEntriesExact he hi.tracks hi.table_le hi.tracksExact
  | enableAdmit b =>
    cases h
    exact ⟨hi.tracks, hi.tracksExact, hi.table_le, hi.tableExact_le⟩
  | enableServe b =>
    cases h
    exact ⟨hi.tracks, hi.tracksExact, hi.table_le, hi.tableExact_le⟩

/-- Every state a run from `Cs::Cs(n)` reaches keeps each table within its limit and each queue
tracking its table. -/
theorem reachable_inv {n : Nat} {cs : Cs κ} (h : Steps.Reachable step (init n) cs) : cs.Inv :=
  Steps.Reachable.induction_on h (inv_init n) fun _ _ _ hi hs => step_inv hi hs

/-- Once the exact table holds more entries than the prefix limit, the next new Data for the
prefix table makes `evictEntries` pop an empty queue: it evicts the new entry and `size()` is
still over the limit. -/
theorem insert_prefix_pops_empty_queue {cs : Cs κ} (hi : cs.Inv) (hadm : cs.shouldAdmit = true)
    {key : κ} (hnew : key ∉ cs.table) (hover : cs.pmLimit < cs.tableExact.length) :
    cs.insert true false key = none := by
  unfold insert
  rw [if_neg (by simp [hadm]), if_pos rfl, if_neg hnew]
  exact (evictEntries_eq_none_iff (hi.tracks.insert key)).mpr hover

end Cs

/-- With a prefix limit of 1 and an exact limit of 10, two exact entries are reached by a run,
and a prefix entry then pops an empty queue. -/
theorem cs_evict_empty_queue :
    Steps.runSteps Cs.step (Cs.init 10 : Cs Nat)
        [.setPmLimit 1, .setEmLimit 10, .insert false false 1, .insert false false 2] =
      some ⟨[], [2, 1], [], [1, 2], 1, 10, true, true⟩ ∧
    (⟨[], [2, 1], [], [1, 2], 1, 10, true, true⟩ : Cs Nat).insert true false 3 = none :=
  have hrun : Steps.runSteps Cs.step (Cs.init 10 : Cs Nat)
      [.setPmLimit 1, .setEmLimit 10, .insert false false 1, .insert false false 2] =
      some ⟨[], [2, 1], [], [1, 2], 1, 10, true, true⟩ := by decide
  ⟨hrun, Cs.insert_prefix_pops_empty_queue
    (Cs.reachable_inv (Steps.Reachable.of_runSteps Steps.Reachable.init hrun)) rfl (by decide)
    (by decide)⟩

end MwNfd
