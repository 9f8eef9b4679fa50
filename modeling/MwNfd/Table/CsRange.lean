import MwNfd.NameOrder
import MwNfd.Table.CsDual

/-!
# The Content Store's prefix range (`cs.cpp`, `cs-entry.cpp`)

`m_table` is a `std::set` of entries ordered by `compareDataWithData`: by Data name, then by
implicit digest. `findPrefixRange(prefix)` looks names up with the transparent comparisons
`operator<(Entry, Name)` and `operator<(Name, Entry)`, both read off `compareQueryWithData`, and
returns the entries from `lower_bound(prefix)` up to `lower_bound(prefix.getSuccessor())`, or up
to the end for the empty prefix. `findImpl` runs `find_if` with `canSatisfy` over that range, and
`eraseImpl` erases from its front up to a limit.

The table holds the keys `DualCs.insert` stores, each a Data's full name: the Data's name, then
its implicit digest. A list in the set's order stands for the set, and `lower_bound` is the
position of the first entry that is not below the name; on the sorted list the entries below a
name without a digest come first (`lowerBound_eq`), which is where the tree search stops.

* `Cs.findPrefixRange_eq_filter`: on a sorted table of full names, the range of a name without a
  digest holds exactly the entries that name is a prefix of.
* `DualCs.findImplRange_eq`, `DualCs.eraseImplRange_eq`: so `findImpl` and `eraseImpl` over the
  range are `DualCs.findImpl` and `DualCs.eraseImpl`, which filter the table by the prefix.
* `DualCs.reachable_table_sorted`: `insert` puts each new entry at its place in
  `compareDataWithData`'s order, so every store that calls reach has a sorted table of full
  names, as the two results above ask.
-/

namespace MwNfd

/-- `compareQueryWithData(queryName, data)`, for the Data stored under the full name `key`: the
Data's name is the key without its last component, and `data.getFullName()[-1]` is that
component. -/
def compareQueryWithData (viaWire : Bool) (queryName key : Name) : Int :=
  let queryIsFullName := queryName.isFullName
  let cmp := if queryIsFullName then
      Name.compareRange viaWire queryName 0 (queryName.length - 1) key.dropLast 0 Name.npos
    else Name.compare viaWire queryName key.dropLast
  if cmp ≠ 0 then cmp
  else if queryIsFullName then
    -- the names agree: compare the digests (a full name and a key both have a last component)
    match queryName.getLast?, key.getLast? with
    | some q, some d => Component.compare viaWire q d
    | _, _ => 0
  -- `queryName` is a proper prefix of the Data's full name
  else -1

namespace Cs

/-- `m_table.lower_bound(queryName)`: the position of the first entry that is not below the name,
an entry being below it (`operator<(Entry, Name)`) when `compareQueryWithData` is positive. -/
def lowerBound (viaWire : Bool) (table : List Name) (queryName : Name) : Nat :=
  table.findIdx fun key => !decide (0 < compareQueryWithData viaWire queryName key)

/-- `Cs::findPrefixRange(prefix)`: the positions from `lower_bound(prefix)` up to
`lower_bound(prefix.getSuccessor())`, or up to the end for the empty prefix. `none`: the successor
cannot be built. -/
def findPrefixRange (viaWire : Bool) (table : List Name) (prefix_ : Name) : Option (Nat × Nat) :=
  let first := lowerBound viaWire table prefix_
  if prefix_.length > 0 then
    (Name.getSuccessor prefix_).map fun s => (first, lowerBound viaWire table s)
  else some (first, table.length)

/-- The entries from the first position of a range up to the second. -/
def rangeEntries (table : List Name) (range : Nat × Nat) : List Name :=
  (table.drop range.1).take (range.2 - range.1)

/-- The loop of `Cs::eraseImpl`: while the range has entries and fewer than `limit` were erased,
`beforeErase` takes the front entry out of the queue and `m_table.erase` out of the table. -/
def eraseLoop (limit : Nat) (keys : Cs Name) : List Name → Nat → Cs Name × Nat
  | [], nErased => (keys, nErased)
  | i :: rest, nErased =>
    if nErased < limit then
      eraseLoop limit { keys with table := keys.table.erase i, queue := keys.queue.erase i } rest
        (nErased + 1)
    else (keys, nErased)

end Cs

namespace DualCs

variable (viaWire : Bool) (sha256 : List UInt8 → Sha256Digest)

/-- `Cs::findImpl` over the prefix range: `find_if` with `canSatisfy`, then `beforeUse`. `none`:
`findPrefixRange` throws. -/
def findImplRange (cs : DualCs) (interest : Interest) (now : Nat) :
    Option (DualCs × Option Data) :=
  if !cs.keys.shouldServe || cs.keys.pmLimit = 0 then some (cs, none)
  else
    (Cs.findPrefixRange viaWire cs.keys.table interest.name).map fun range =>
      match (Cs.rangeEntries cs.keys.table range).find?
          (fun key => ((cs.entries key).map (·.canSatisfy sha256 interest now)).getD false) with
      | none => (cs, none)
      | some key =>
        match cs.entries key with
        | none => (cs, none)
        | some e =>
          ({ cs with keys := { cs.keys with queue := LruQueue.touch cs.keys.queue key } },
            some e.data)

/-- `Cs::eraseImpl(prefix, limit)` over the prefix range. -/
def eraseImplRange (cs : DualCs) (prefix_ : Name) (limit : Nat) : Option (DualCs × Nat) :=
  (Cs.findPrefixRange viaWire cs.keys.table prefix_).map fun range =>
    let r := Cs.eraseLoop limit cs.keys (Cs.rangeEntries cs.keys.table range) 0
    ({ cs with keys := r.1 }, r.2)

end DualCs

/-! ## The comparisons on full names -/

section Compare

variable {w : Bool}

theorem Name.Fits.dropLast {n : Name} (h : n.Fits) : Name.Fits n.dropLast :=
  ⟨Nat.lt_of_le_of_lt (by simp) h.1, fun c hc => h.2 c (List.dropLast_subset n hc)⟩

/-- An entry is below a name without a digest when the Data's name comes before it; the Data's
name itself is not below it (`return -1`). -/
theorem compareQueryWithData_pos_iff {q key : Name} (hq : q.Fits) (hqf : q.isFullName = false)
    (hkey : key.Fits) : 0 < compareQueryWithData w q key ↔ key.dropLast < q := by
  have hcmp := Name.isCompare_compare w hq hkey.dropLast
  simp only [compareQueryWithData, hqf, Bool.false_eq_true, if_false]
  by_cases h0 : Name.compare w q key.dropLast = 0
  · rw [if_neg (not_not.mpr h0), hcmp.eq_zero_iff.mp h0]
    simp
  · rw [if_pos h0]
    exact hcmp.pos_iff

/-- The set's order goes by the Data names first. -/
theorem dropLast_le_of_compareDataWithData {k k' : Name} (hk : k.Fits) (hk' : k'.Fits)
    (h : compareDataWithData w k k' < 0) : k.dropLast ≤ k'.dropLast := by
  have hcmp := Name.isCompare_compare w hk.dropLast hk'.dropLast
  simp only [compareDataWithData] at h
  by_cases h0 : Name.compare w k.dropLast k'.dropLast = 0
  · exact le_of_eq (hcmp.eq_zero_iff.mp h0)
  · rw [if_pos h0] at h
    exact le_of_lt (hcmp.neg_iff.mp h)

/-- The order `compareDataWithData` puts full names in: by Data name, then by digest. -/
def dataKey (k : Name) : Name ×ₗ WithBot Component := toLex (k.dropLast, k.getLast?)

theorem dataKey_injective : Function.Injective dataKey := by
  intro k k' h
  obtain ⟨hd, hl⟩ := Prod.mk.inj (toLex.injective h)
  rcases k.eq_nil_or_concat with rfl | ⟨p, c, rfl⟩ <;>
    rcases k'.eq_nil_or_concat with rfl | ⟨p', c', rfl⟩
  · rfl
  · simp at hl
  · simp at hl
  · simp only [List.concat_eq_append, List.dropLast_concat, List.getLast?_concat] at hd hl
    rw [hd, Option.some.inj hl]

/-- On names that fit and have a last component, `compareDataWithData` compares them in the
order of `dataKey`. -/
theorem isCompare_compareDataWithData {k k' : Name} (hk : k.Fits) (hk' : k'.Fits)
    (hne : k ≠ []) (hne' : k' ≠ []) :
    LexOrder.IsCompare (compareDataWithData w k k') (dataKey k) (dataKey k') := by
  obtain ⟨p, c, rfl⟩ := Name.exists_append_of_ne_nil hne
  obtain ⟨p', c', rfl⟩ := Name.exists_append_of_ne_nil hne'
  have hcmp := Name.isCompare_compare w hk.dropLast hk'.dropLast
  rw [List.dropLast_concat, List.dropLast_concat] at hcmp
  simp only [compareDataWithData, dataKey, List.dropLast_concat, List.getLast?_concat]
  by_cases h0 : Name.compare w p p' = 0
  · -- the Data names agree: the digests decide
    obtain rfl := hcmp.eq_zero_iff.mp h0
    have hc := Component.isCompare_compare w (hk.2 c (by simp)) (hk'.2 c' (by simp))
    rw [if_neg (not_not.mpr h0)]
    refine ⟨?_, ?_⟩
    · rw [hc.eq_zero_iff]
      constructor
      · rintro rfl
        rfl
      · intro h
        exact Option.some.inj (Prod.mk.inj h).2
    · rw [hc.neg_iff, Prod.Lex.toLex_lt_toLex]
      simp only [lt_irrefl, true_and, false_or]
      exact WithBot.coe_lt_coe.symm
  · rw [if_pos h0]
    have hpp : p ≠ p' := fun h => h0 (hcmp.eq_zero_iff.mpr h)
    refine .of_ne (fun h => hpp (Prod.mk.inj (toLex.injective h)).1) h0 ?_
    rw [hcmp.neg_iff, Prod.Lex.toLex_lt_toLex]
    simp [hpp]

end Compare

/-! ## The prefix range -/

namespace Cs

variable {w : Bool} {table : List Name}

/-- A table in the set's order is sorted by Data name. -/
theorem pairwise_dropLast (hsorted : table.Pairwise fun k k' => compareDataWithData w k k' < 0)
    (hfits : ∀ k ∈ table, k.Fits) : table.Pairwise fun k k' => k.dropLast ≤ k'.dropLast :=
  List.Pairwise.imp_of_mem (fun hk hk' h => dropLast_le_of_compareDataWithData (hfits _ hk)
    (hfits _ hk') h) hsorted

/-- `lower_bound` of a name without a digest stops at the first entry whose Data name is not below
it: the test it runs agrees with the order of Data names. -/
theorem lowerBound_test_iff {q : Name} (hq : q.Fits) (hqf : q.isFullName = false)
    (hfits : ∀ k ∈ table, k.Fits) :
    ∀ k ∈ table, decide (0 < compareQueryWithData w q k) = true ↔ k.dropLast < q :=
  fun k hk => decide_eq_true_iff.trans (compareQueryWithData_pos_iff hq hqf (hfits k hk))

/-- A name without a digest starts a full name exactly when it starts the Data's name. -/
theorem prefix_iff_prefix_dropLast {q k : Name} (hqf : q.isFullName = false)
    (hk : k.isFullName = true) : q <+: k ↔ q <+: k.dropLast := by
  have hne : k ≠ [] := by
    rintro rfl
    simp [Name.isFullName] at hk
  obtain ⟨p, d, rfl⟩ := Name.exists_append_of_ne_nil hne
  rw [List.dropLast_concat, List.prefix_concat_iff]
  constructor
  · rintro (h | h)
    · -- the whole full name ends with its digest; the query does not
      rw [h] at hqf
      rw [hqf] at hk
      cases hk
    · exact h
  · exact .inr

/-- The range of the empty name is the whole table. -/
theorem findPrefixRange_nil (hfits : ∀ k ∈ table, k.Fits) :
    (findPrefixRange w table []).map (rangeEntries table) = some table := by
  -- no Data name comes before the empty name
  have h0 : ∀ k ∈ table, ¬ 0 < compareQueryWithData w [] k := fun k hk h =>
    LexOrder.not_lt_nil _
      ((compareQueryWithData_pos_iff ⟨by decide, by simp⟩ rfl (hfits k hk)).mp h)
  have hlb : lowerBound w table [] = 0 := by
    cases table with
    | nil => rfl
    | cons k table => simp [lowerBound, List.findIdx_cons, h0 k (by simp)]
  simp [findPrefixRange, rangeEntries, hlb]

/-- On a sorted table of full names, the range of a name without a digest is the entries it is a
prefix of. -/
theorem findPrefixRange_eq_filter {q : Name}
    (hsorted : table.Pairwise fun k k' => compareDataWithData w k k' < 0)
    (hkeys : ∀ k ∈ table, k.isFullName = true ∧ k.Fits) (hqf : q.isFullName = false)
    (hql : q.length < 2 ^ 31) (hqv : ∀ c ∈ q, c.value.length + 1 < 2 ^ 31) :
    (findPrefixRange w table q).map (rangeEntries table) =
      some (table.filter (q.isPrefixOf ·)) := by
  have hfits : ∀ k ∈ table, k.Fits := fun k hk => (hkeys k hk).2
  by_cases hq0 : q = []
  · subst hq0
    rw [findPrefixRange_nil hfits]
    simp
  obtain ⟨s, hs⟩ := Option.isSome_iff_exists.mp
    (Name.isSome_getSuccessor fun c hc => by have := hqv c hc; omega)
  have hq : q.Fits := ⟨hql, fun c hc => Nat.lt_of_succ_lt (hqv c hc)⟩
  have hsf := Name.isFullName_getSuccessor hqf hs hq0
  have hsfits := Name.fits_getSuccessor hql hqv hs hq0
  have hrange : findPrefixRange w table q = some (lowerBound w table q, lowerBound w table s) := by
    simp [findPrefixRange, List.length_pos_iff.mpr hq0, hs]
  simp only [hrange, Option.map_some, rangeEntries, lowerBound]
  rw [LexOrder.findIdx_not_eq_of_iff List.dropLast (lowerBound_test_iff hq hqf hfits),
    LexOrder.findIdx_not_eq_of_iff List.dropLast (lowerBound_test_iff hsfits hsf hfits),
    LexOrder.drop_take_findIdx List.dropLast (pairwise_dropLast hsorted hfits)]
  congr 1
  refine List.filter_congr fun k hk => Bool.eq_iff_iff.mpr ?_
  simp only [decide_eq_true_eq]
  rw [List.isPrefixOf_iff_prefix, prefix_iff_prefix_dropLast hqf (hkeys k hk).1]
  exact Name.prefix_iff_of_getSuccessor hq0 hs k.dropLast

/-- The erase loop over a range takes out its first `limit` entries, from a table and a queue
without duplicates. The induction is on the range, one erased entry per step. -/
theorem eraseLoop_eq (limit : Nat) {keys : Cs Name} (ht : keys.table.Nodup)
    (hq : keys.queue.Nodup) (vs : List Name) (n : Nat) :
    eraseLoop limit keys vs n =
      ({ keys with table := keys.table.removeAll (vs.take (limit - n)),
                   queue := keys.queue.removeAll (vs.take (limit - n)) },
        n + min (limit - n) vs.length) := by
  induction vs generalizing keys n with
  | nil => simp [eraseLoop]
  | cons i rest ih =>
    unfold eraseLoop
    split_ifs with hn
    · -- one more erased: the front joins the batch
      obtain ⟨k, hk⟩ : ∃ k, limit - n = k + 1 := ⟨limit - n - 1, by omega⟩
      rw [ih (ht.erase i) (hq.erase i)]
      dsimp only
      rw [hk, List.take_succ_cons, LruQueue.removeAll_erase ht, LruQueue.removeAll_erase hq,
        show limit - (n + 1) = k by omega]
      refine Prod.ext rfl ?_
      simp only [List.length_cons, Nat.succ_min_succ]
      omega
    · rw [show limit - n = 0 by omega]
      simp

end Cs

namespace DualCs

variable {viaWire : Bool} (sha256 : List UInt8 → Sha256Digest)

section SortedTable

variable {cs : DualCs} {q : Name}
  (hsorted : cs.keys.table.Pairwise fun k k' => compareDataWithData viaWire k k' < 0)
  (hkeys : ∀ k ∈ cs.keys.table, k.isFullName = true ∧ k.Fits) (hqf : q.isFullName = false)
  (hql : q.length < 2 ^ 31) (hqv : ∀ c ∈ q, c.value.length + 1 < 2 ^ 31)

include hsorted hkeys hqf hql hqv in
theorem exists_findPrefixRange :
    ∃ range, Cs.findPrefixRange viaWire cs.keys.table q = some range ∧
      Cs.rangeEntries cs.keys.table range = cs.keys.table.filter (q.isPrefixOf ·) :=
  Option.map_eq_some_iff.mp (Cs.findPrefixRange_eq_filter hsorted hkeys hqf hql hqv)

/-- `findImpl` over the prefix range is the model's `findImpl`, which filters the table by the
Interest's name: on a sorted table of full names, for a name without a digest. -/
theorem findImplRange_eq {interest : Interest} (now : Nat)
    (hsorted : cs.keys.table.Pairwise fun k k' => compareDataWithData viaWire k k' < 0)
    (hkeys : ∀ k ∈ cs.keys.table, k.isFullName = true ∧ k.Fits)
    (hqf : interest.name.isFullName = false) (hql : interest.name.length < 2 ^ 31)
    (hqv : ∀ c ∈ interest.name, c.value.length + 1 < 2 ^ 31) :
    cs.findImplRange viaWire sha256 interest now = some (cs.findImpl sha256 interest now) := by
  obtain ⟨range, hr, hentries⟩ := exists_findPrefixRange hsorted hkeys hqf hql hqv
  unfold findImplRange findImpl
  split_ifs
  · rfl
  · -- the same search over the same entries (each definition has its own `match`)
    rw [hr, Option.map_some]
    exact hentries ▸ rfl

/-- A store holding the Data /a and /a/b under their full names, looked up by /a. -/
theorem findImplRange_eq_a :
    DualCs.findImplRange false (fun _ => ⟨List.replicate 32 0, rfl⟩)
        ⟨⟨[[Component.generic [0x61], Component.ofDigest ⟨List.replicate 32 0, rfl⟩],
            [Component.generic [0x61], Component.generic [0x62],
              Component.ofDigest ⟨List.replicate 32 0, rfl⟩]], [],
          [[Component.generic [0x61], Component.ofDigest ⟨List.replicate 32 0, rfl⟩],
            [Component.generic [0x61], Component.generic [0x62],
              Component.ofDigest ⟨List.replicate 32 0, rfl⟩]], [], 10, 10, true, true⟩,
          fun _ => none, fun _ => none⟩
        ⟨[Component.generic [0x61]], true, false, []⟩ 0 =
      some (DualCs.findImpl (fun _ => ⟨List.replicate 32 0, rfl⟩)
        ⟨⟨[[Component.generic [0x61], Component.ofDigest ⟨List.replicate 32 0, rfl⟩],
            [Component.generic [0x61], Component.generic [0x62],
              Component.ofDigest ⟨List.replicate 32 0, rfl⟩]], [],
          [[Component.generic [0x61], Component.ofDigest ⟨List.replicate 32 0, rfl⟩],
            [Component.generic [0x61], Component.generic [0x62],
              Component.ofDigest ⟨List.replicate 32 0, rfl⟩]], [], 10, 10, true, true⟩,
          fun _ => none, fun _ => none⟩
        ⟨[Component.generic [0x61]], true, false, []⟩ 0) :=
  findImplRange_eq _ 0 (by decide) (by decide) (by decide) (by decide) (by decide)

/-- `eraseImpl` over the prefix range is the model's `eraseImpl`, which takes the first `limit`
entries of the table under the prefix: on a sorted table of full names whose queue tracks it, for
a prefix without a digest. -/
theorem eraseImplRange_eq {prefix_ : Name} (limit : Nat)
    (hsorted : cs.keys.table.Pairwise fun k k' => compareDataWithData viaWire k k' < 0)
    (hkeys : ∀ k ∈ cs.keys.table, k.isFullName = true ∧ k.Fits)
    (hqf : prefix_.isFullName = false) (hql : prefix_.length < 2 ^ 31)
    (hqv : ∀ c ∈ prefix_, c.value.length + 1 < 2 ^ 31)
    (htracks : LruQueue.Tracks cs.keys.table cs.keys.queue) :
    cs.eraseImplRange viaWire prefix_ limit = some (cs.eraseImpl prefix_ limit) := by
  obtain ⟨range, hr, hentries⟩ := exists_findPrefixRange hsorted hkeys hqf hql hqv
  unfold eraseImplRange eraseImpl
  rw [hr, Option.map_some, hentries,
    Cs.eraseLoop_eq limit htracks.1 (htracks.2.nodup_iff.mpr htracks.1)]
  simp

/-- The same store, erasing one entry under /a. -/
theorem eraseImplRange_eq_a :
    DualCs.eraseImplRange false
        ⟨⟨[[Component.generic [0x61], Component.ofDigest ⟨List.replicate 32 0, rfl⟩],
            [Component.generic [0x61], Component.generic [0x62],
              Component.ofDigest ⟨List.replicate 32 0, rfl⟩]], [],
          [[Component.generic [0x61], Component.ofDigest ⟨List.replicate 32 0, rfl⟩],
            [Component.generic [0x61], Component.generic [0x62],
              Component.ofDigest ⟨List.replicate 32 0, rfl⟩]], [], 10, 10, true, true⟩,
          fun _ => none, fun _ => none⟩ [Component.generic [0x61]] 1 =
      some (DualCs.eraseImpl
        ⟨⟨[[Component.generic [0x61], Component.ofDigest ⟨List.replicate 32 0, rfl⟩],
            [Component.generic [0x61], Component.generic [0x62],
              Component.ofDigest ⟨List.replicate 32 0, rfl⟩]], [],
          [[Component.generic [0x61], Component.ofDigest ⟨List.replicate 32 0, rfl⟩],
            [Component.generic [0x61], Component.generic [0x62],
              Component.ofDigest ⟨List.replicate 32 0, rfl⟩]], [], 10, 10, true, true⟩,
          fun _ => none, fun _ => none⟩ [Component.generic [0x61]] 1) :=
  eraseImplRange_eq 1 (by decide) (by decide) (by decide) (by decide) (by decide)
    ⟨by decide, List.Perm.refl _⟩

end SortedTable

/-! ## The prefix table stays in order -/

theorem ne_nil_of_isFullName {k : Name} (h : k.isFullName = true) : k ≠ [] := by
  rintro rfl
  simp [Name.isFullName] at h

theorem isFullName_fullName (data : Data) : (data.fullName sha256).isFullName = true := by
  simp [Data.fullName, Name.isFullName, Component.ofDigest, Component.isImplicitSha256Digest]

/-- A call on the store. -/
inductive Op where
  | insert (data : Data) (isUnsolicited canBePrefix noCache : Bool) (now : Nat)
  | find (interest : Interest) (now : Nat)
  | erase (prefix_ : Name) (limit : Nat)

/-- One call. A Data whose full name does not fit `Name::compare`'s `int`s is refused: its
encoding is over `MAX_NDN_PACKET_SIZE`, and no face decodes it. -/
def step (cs : DualCs) : Op → Option DualCs
  | .insert data isUnsolicited canBePrefix noCache now =>
    if (data.fullName sha256).Fits then
      cs.insert sha256 data isUnsolicited canBePrefix noCache now
    else none
  | .find interest now => some (cs.find sha256 interest now).1
  | .erase prefix_ limit => some (cs.erase prefix_ limit).1

/-- The prefix table is in `compareDataWithData`'s order and holds full names that fit, and its
queue tracks it. -/
structure TableInv (cs : DualCs) : Prop where
  sorted : cs.keys.table.Pairwise fun k k' => dataKey k < dataKey k'
  keys : ∀ k ∈ cs.keys.table, k.isFullName = true ∧ k.Fits
  tracks : LruQueue.Tracks cs.keys.table cs.keys.queue

theorem tableInv_init (n : Nat) : (init n).TableInv :=
  ⟨List.Pairwise.nil, fun _ h => (by cases h), LruQueue.Tracks.nil⟩

/-- `findImplExact` moves at most an entry of the exact queue. -/
theorem findImplExact_keys (cs : DualCs) (interest : Interest) (now : Nat) :
    ∃ queueExact,
      (cs.findImplExact interest now).1 = { cs with keys := { cs.keys with queueExact } } := by
  unfold findImplExact
  split
  · exact ⟨cs.keys.queueExact, rfl⟩
  · dsimp only
    split
    · exact ⟨cs.keys.queueExact, rfl⟩
    · split
      · exact ⟨cs.keys.queueExact, rfl⟩
      · split
        · exact ⟨cs.keys.queueExact, rfl⟩
        · exact ⟨_, rfl⟩

/-- `eraseImplExact` changes only the exact table and its queue. -/
theorem eraseImplExact_keys (cs : DualCs) (exact : Name) :
    ∃ tableExact queueExact,
      (cs.eraseImplExact exact).1 =
        { cs with keys := { cs.keys with tableExact, queueExact } } := by
  unfold eraseImplExact
  split
  · exact ⟨cs.keys.tableExact, cs.keys.queueExact, rfl⟩
  · exact ⟨_, _, rfl⟩

section TableInv

variable {cs cs' : DualCs}

/-- A call that leaves the prefix table and its queue as they are. -/
theorem TableInv.of_eq (h : cs.TableInv) (ht : cs'.keys.table = cs.keys.table)
    (hq : cs'.keys.queue = cs.keys.queue) : cs'.TableInv := by
  obtain ⟨hs, hk, htr⟩ := h
  exact ⟨by rwa [ht], by rwa [ht], by rwa [ht, hq]⟩

/-- A use of an entry of the table moves it to the back of the queue. -/
theorem TableInv.touch (h : cs.TableInv) {key : Name} (hkey : key ∈ cs.keys.table)
    (ht : cs'.keys.table = cs.keys.table) (hq : cs'.keys.queue = LruQueue.touch cs.keys.queue key) :
    cs'.TableInv := by
  have htr := h.tracks.touch hkey
  exact ⟨by rw [ht]; exact h.sorted, by rw [ht]; exact h.keys, by rwa [ht, hq]⟩

/-- Taking entries out of the table keeps it in order. -/
theorem TableInv.of_sublist (h : cs.TableInv) (hsub : cs'.keys.table.Sublist cs.keys.table)
    (htr : LruQueue.Tracks cs'.keys.table cs'.keys.queue) : cs'.TableInv :=
  ⟨h.sorted.sublist hsub, fun k hk => h.keys k (hsub.subset hk), htr⟩

/-- A new entry goes to its place in the order, and the eviction that follows only takes entries
out. -/
theorem TableInv.emplace (h : cs.TableInv) {key : Name} (hkey : key.isFullName = true ∧ key.Fits)
    {keys : Cs Name} (hev : Cs.evictEntries { cs.keys with
      table := LexOrder.setInsert (compareDataWithData true) key cs.keys.table,
      queue := LruQueue.touch cs.keys.queue key } = some keys)
    (entries : Name → Option CsEntry) : ({ cs with keys, entries } : DualCs).TableInv := by
  have hcmp : ∀ y ∈ cs.keys.table,
      LexOrder.IsCompare (compareDataWithData true key y) (dataKey key) (dataKey y) :=
    fun y hy => isCompare_compareDataWithData hkey.2 (h.keys y hy).2
      (ne_nil_of_isFullName hkey.1) (ne_nil_of_isFullName (h.keys y hy).1)
  have hsorted := LexOrder.pairwise_setInsert h.sorted hcmp
  have htr := (h.tracks.insert key).perm (LexOrder.perm_setInsert dataKey_injective h.sorted hcmp)
  unfold Cs.evictEntries at hev
  obtain ⟨⟨t, q⟩, hevict, rfl⟩ := Option.map_eq_some_iff.mp hev
  have hsub := LruQueue.evict_sublist hevict
  refine ⟨hsorted.sublist hsub, fun k hk => ?_, (LruQueue.Tracks.evict htr hevict).1⟩
  rcases LexOrder.mem_setInsert (hsub.subset hk) with rfl | hk
  · exact hkey
  · exact h.keys k hk

theorem TableInv.insert (h : cs.TableInv) {data : Data} {isUnsolicited canBePrefix noCache : Bool}
    {now : Nat} (hfits : (data.fullName sha256).Fits)
    (hins : cs.insert sha256 data isUnsolicited canBePrefix noCache now = some cs') :
    cs'.TableInv := by
  unfold DualCs.insert at hins
  split_ifs at hins with hadm hprefix
  · cases hins
    exact h
  · dsimp only at hins
    split at hins
    · -- a refresh of the entry of that full name
      next e he =>
      cases hins
      have hkey : data.fullName sha256 ∈ cs.keys.table := by
        by_contra hn
        rw [if_neg hn] at he
        cases he
      exact h.touch hkey rfl rfl
    · obtain ⟨keys, hev, rfl⟩ := Option.map_eq_some_iff.mp hins
      exact h.emplace ⟨isFullName_fullName sha256 data, hfits⟩ hev _
  · -- the exact table: the prefix table and its queue are kept
    obtain ⟨keys, hev, rfl⟩ := Option.map_eq_some_iff.mp hins
    unfold Cs.evictEntriesExact at hev
    obtain ⟨r, -, rfl⟩ := Option.map_eq_some_iff.mp hev
    refine h.of_eq ?_ ?_
    · dsimp only
      split <;> rfl
    · dsimp only
      split <;> rfl

theorem TableInv.find (h : cs.TableInv) (interest : Interest) (now : Nat) :
    (cs.find sha256 interest now).1.TableInv := by
  unfold DualCs.find
  split
  · unfold findImpl
    split_ifs
    · exact h
    · split
      · exact h
      · next key hkey =>
        split
        · exact h
        · exact h.touch (List.mem_of_mem_filter (List.mem_of_find?_eq_some hkey)) rfl rfl
  · obtain ⟨q, he⟩ := findImplExact_keys cs interest now
    rw [he]
    exact h.of_eq rfl rfl

theorem TableInv.erase (h : cs.TableInv) (prefix_ : Name) (limit : Nat) :
    (cs.erase prefix_ limit).1.TableInv := by
  have hi : (cs.eraseImpl prefix_ limit).1.TableInv :=
    h.of_sublist List.filter_sublist (h.tracks.removeAll _)
  obtain ⟨t, q, he⟩ := eraseImplExact_keys (cs.eraseImpl prefix_ limit).1 prefix_
  show (((cs.eraseImpl prefix_ limit).1).eraseImplExact prefix_).1.TableInv
  rw [he]
  exact hi.of_eq rfl rfl

theorem TableInv.step (h : cs.TableInv) {op : Op} (hs : cs.step sha256 op = some cs') :
    cs'.TableInv := by
  cases op with
  | insert data isUnsolicited canBePrefix noCache now =>
    simp only [DualCs.step] at hs
    split_ifs at hs with hfits
    exact h.insert sha256 hfits hs
  | find interest now =>
    cases hs
    exact h.find sha256 interest now
  | erase prefix_ limit =>
    cases hs
    exact h.erase prefix_ limit

/-- Every store that calls reach from `Cs::Cs(n)` has its prefix table in `compareDataWithData`'s
order, whichever way the components are compared, holds full names that fit there, and keeps its
queue tracking that table: what the lookups over the prefix range above ask of the table. -/
theorem reachable_table_sorted {n : Nat} (hr : Steps.Reachable (step sha256) (init n) cs)
    (w : Bool) :
    (cs.keys.table.Pairwise fun k k' => compareDataWithData w k k' < 0) ∧
      (∀ k ∈ cs.keys.table, k.isFullName = true ∧ k.Fits) ∧
      LruQueue.Tracks cs.keys.table cs.keys.queue := by
  have h : cs.TableInv :=
    hr.induction_on (tableInv_init n) fun _ _ _ hi hs => hi.step sha256 hs
  refine ⟨h.sorted.imp_of_mem fun hk hk' hlt => ?_, h.keys, h.tracks⟩
  have hkk := h.keys _ hk
  have hkk' := h.keys _ hk'
  exact (isCompare_compareDataWithData hkk.2 hkk'.2 (ne_nil_of_isFullName hkk.1)
    (ne_nil_of_isFullName hkk'.1)).neg_iff.mpr hlt

end TableInv

end DualCs

end MwNfd
