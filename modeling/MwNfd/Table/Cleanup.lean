import MwNfd.Table.Fib

/-!
# Cleanup on face removal (`cleanup.cpp`)

`cleanupOnFaceRemoval(nt, fib, pit, face)` runs in two passes. The first walks the whole
NameTree once (a range-for, which is the full enumeration): each FIB entry loses its nexthop on
the face, and is erased with its last nexthop while its NameTree entry stays; each PIT entry
loses its records on the face; an entry left with no table entry goes into a `std::multimap`
under its depth. The second pass takes that multimap from the deepest entry up and calls
`eraseIfEmpty(nte, false)` on each, so that children go before their parent. The function ends
by asserting that no NameTree entry is empty.

The second pass erases an entry exactly when no entry below it has a table entry: the entries
left are the prefixes of the entries that have one. An entry below the current one was either
handled before it, being deeper, or has a table entry itself.

* `Fib.State.Inv.cleanup`: the FIB invariant is kept.
* `cleanupOnFaceRemoval_tree`: the NameTree keeps exactly the prefixes of its entries that have
  a table entry afterwards, and none of its entries is empty.
* `cleanupOnFaceRemoval_nextHops`: the FIB keeps exactly the nexthops not on the face.
-/

namespace MwNfd

/-- `name_tree::Entry::hasTableEntries`: a FIB entry, PIT entries, or a measurements or strategy
choice entry (`hasOtherEntries`). -/
def hasTableEntries (entries : Fib.Entries) (hasOtherEntries : Name → Bool) (nte : Node) : Bool :=
  Fib.nteHasFibEntry entries nte.name || !nte.pitEntries.isEmpty || hasOtherEntries nte.name

/-- The body of the first loop on one NameTree entry: its FIB entry loses the face's nexthop
(`Fib::removeNextHop`); `Pit::deleteInOutRecords` changes records the NameTree's model does not
hold; an entry left with no table entry goes into `maybeEmptyNtes` under its depth. -/
def cleanupVisit (hasOtherEntries : Name → Bool) (face : Nat)
    (acc : Fib.State × List (Nat × Name)) (nte : Node) : Fib.State × List (Nat × Name) :=
  let fib := match acc.1.entries.lookup nte.name with
    | some nhs => (acc.1.removeNextHop ⟨nte.name, nhs⟩ face).1
    | none => acc.1
  (fib, if hasTableEntries fib.entries hasOtherEntries nte then acc.2
    else Multimap.emplace acc.2 nte.name.length nte.name)

/-- The body of the second loop: `nt.eraseIfEmpty(nte, false)`. -/
def cleanupErase (hasOtherEntries : Name → Bool) (fib : Fib.State) (e : Nat × Name) : Fib.State :=
  { fib with tree := (fib.tree.eraseIfEmpty
      (fun x => Fib.nteHasFibEntry fib.entries x || hasOtherEntries x) e.2 false).1 }

/-- `cleanupOnFaceRemoval(nt, fib, pit, face)`: the first loop over the full enumeration of the
NameTree, then the second over `maybeEmptyNtes` from `rbegin()` to `rend()`. -/
def cleanupOnFaceRemoval (st : Fib.State) (hasOtherEntries : Name → Bool) (face : Nat) :
    Fib.State :=
  let visited := (st.tree.ht.fullEnumerate (fun _ => true) (st.tree.ht.nodes.length + 1)).getD []
  let r := visited.foldl (cleanupVisit hasOtherEntries face) (st, [])
  r.2.reverse.foldl (cleanupErase hasOtherEntries) r.1

/-- What the first loop leaves of a FIB entry's nexthops: the face's nexthop goes, and the entry
with it when that was the last. -/
def nextHopsAfterRemoval (face : Nat) (nhs : List NextHop) : Option (List NextHop) :=
  if nhs.any (·.face = face) then
    if (nhs.filter (·.face ≠ face)).isEmpty then none else some (nhs.filter (·.face ≠ face))
  else some nhs

/-- A nexthop is left exactly when it was there and is not on the face. -/
theorem mem_nextHopsAfterRemoval {face : Nat} {nhs : List NextHop} {nh : NextHop} :
    (∃ v, nextHopsAfterRemoval face nhs = some v ∧ nh ∈ v) ↔ nh ∈ nhs ∧ nh.face ≠ face := by
  unfold nextHopsAfterRemoval
  split_ifs with hany hempty
  · -- the last nexthop went with the entry, and no other was left
    rw [List.isEmpty_iff, List.filter_eq_nil_iff] at hempty
    simp only [false_and, exists_false, false_iff, not_and]
    intro hnh hface
    exact hempty nh hnh (by simpa using hface)
  · simp
  · -- no nexthop was on the face
    simp only [List.any_eq_true, decide_eq_true_eq, not_exists, not_and] at hany
    simpa using hany nh

/-- An entry whose nexthops are all on the face loses them all, and goes. -/
theorem nextHopsAfterRemoval_eq_none {face : Nat} {nhs : List NextHop} (hne : nhs ≠ [])
    (hall : ∀ nh ∈ nhs, nh.face = face) : nextHopsAfterRemoval face nhs = none := by
  obtain ⟨nh, hnh⟩ := List.exists_mem_of_ne_nil nhs hne
  have hany : nhs.any (·.face = face) = true :=
    List.any_eq_true.mpr ⟨nh, hnh, by simp [hall nh hnh]⟩
  have hfilter : (nhs.filter (·.face ≠ face)).isEmpty = true := by
    rw [List.isEmpty_iff, List.filter_eq_nil_iff]
    intro x hx
    simp [hall x hx]
  rw [nextHopsAfterRemoval, if_pos hany, if_pos hfilter]

namespace Fib.State

variable {st : Fib.State}

@[simp] theorem removeNextHop_tree (e : FibEntry) (face : Nat) :
    (st.removeNextHop e face).1.tree = st.tree := by
  unfold removeNextHop
  cases FibEntry.removeNextHop e.nextHops face
  dsimp only
  split_ifs <;> simp [erase]

theorem lookup_removeNextHop {p : Name} {nhs : List NextHop} (hp : st.entries.lookup p = some nhs)
    (hnd : (nhs.map NextHop.face).Nodup) (face : Nat) (q : Name) :
    (st.removeNextHop ⟨p, nhs⟩ face).1.entries.lookup q =
      if q = p then nextHopsAfterRemoval face nhs else st.entries.lookup q := by
  rw [removeNextHop_eq hnd, nextHopsAfterRemoval]
  by_cases hq : q = p
  · subst hq
    rw [if_pos rfl]
    split_ifs <;> simp [AList.lookup_erase, hp]
  · rw [if_neg hq]
    split_ifs <;> simp [AList.lookup_erase_ne hq, AList.lookup_insert_ne hq]

end Fib.State

section FirstLoop

variable {hasOtherEntries : Name → Bool} {face : Nat}

theorem cleanupVisit_fst (acc : Fib.State × List (Nat × Name)) (nte : Node) :
    (cleanupVisit hasOtherEntries face acc nte).1 =
      match acc.1.entries.lookup nte.name with
      | some nhs => (acc.1.removeNextHop ⟨nte.name, nhs⟩ face).1
      | none => acc.1 := rfl

theorem cleanupVisit_snd (acc : Fib.State × List (Nat × Name)) (nte : Node) :
    (cleanupVisit hasOtherEntries face acc nte).2 =
      if hasTableEntries (cleanupVisit hasOtherEntries face acc nte).1.entries hasOtherEntries nte
      then acc.2 else Multimap.emplace acc.2 nte.name.length nte.name := rfl

theorem Fib.State.Inv.visit {acc : Fib.State × List (Nat × Name)} (hi : acc.1.Inv)
    (nte : Node) : (cleanupVisit hasOtherEntries face acc nte).1.Inv ∧
      (cleanupVisit hasOtherEntries face acc nte).1.tree = acc.1.tree := by
  rw [cleanupVisit_fst]
  cases hp : acc.1.entries.lookup nte.name with
  | none => exact ⟨hi, rfl⟩
  | some nhs => exact ⟨hi.removeNextHop hp face, Fib.State.removeNextHop_tree _ _⟩

theorem lookup_cleanupVisit {acc : Fib.State × List (Nat × Name)} (hi : acc.1.Inv) (nte : Node)
    (q : Name) : (cleanupVisit hasOtherEntries face acc nte).1.entries.lookup q =
      if q = nte.name then (acc.1.entries.lookup q).bind (nextHopsAfterRemoval face)
      else acc.1.entries.lookup q := by
  rw [cleanupVisit_fst]
  by_cases hq : q = nte.name
  · subst hq
    rw [if_pos rfl]
    cases hp : acc.1.entries.lookup nte.name with
    | none => exact hp
    | some nhs =>
      rw [Fib.State.lookup_removeNextHop hp (hi.nextHops _ _ hp).2, if_pos rfl]
      rfl
  · rw [if_neg hq]
    cases hp : acc.1.entries.lookup nte.name with
    | none => rfl
    | some nhs => rw [Fib.State.lookup_removeNextHop hp (hi.nextHops _ _ hp).2, if_neg hq]

variable (hasOtherEntries face)

/-- The first loop keeps the FIB invariant and leaves the NameTree as it is. -/
theorem Fib.State.Inv.foldl_visit (l : List Node) (acc : Fib.State × List (Nat × Name))
    (hi : acc.1.Inv) : (l.foldl (cleanupVisit hasOtherEntries face) acc).1.Inv ∧
      (l.foldl (cleanupVisit hasOtherEntries face) acc).1.tree = acc.1.tree := by
  induction l generalizing acc with
  | nil => exact ⟨hi, rfl⟩
  | cons nte l ih =>
    obtain ⟨hi', htree⟩ := @Fib.State.Inv.visit hasOtherEntries face acc hi nte
    obtain ⟨hi'', htree'⟩ := ih _ hi'
    exact ⟨hi'', htree'.trans htree⟩

/-- After the first loop, the entries of the visited names have lost the face's nexthop, and the
others are as they were. -/
theorem lookup_foldl_cleanupVisit {l : List Node} (hnd : (l.map Node.name).Nodup)
    (acc : Fib.State × List (Nat × Name)) (hi : acc.1.Inv) (q : Name) :
    (l.foldl (cleanupVisit hasOtherEntries face) acc).1.entries.lookup q =
      if q ∈ l.map Node.name then (acc.1.entries.lookup q).bind (nextHopsAfterRemoval face)
      else acc.1.entries.lookup q := by
  induction l generalizing acc with
  | nil => simp
  | cons nte l ih =>
    rw [List.map_cons, List.nodup_cons] at hnd
    rw [List.foldl_cons, ih hnd.2 _ (hi.visit nte).1, lookup_cleanupVisit hi]
    by_cases hq : q = nte.name
    · subst hq
      simp [hnd.1]
    · simp [hq]

/-- The first loop keeps `maybeEmptyNtes` in key order. -/
theorem sorted_foldl_cleanupVisit (l : List Node) (acc : Fib.State × List (Nat × Name))
    (hs : Multimap.Sorted acc.2) :
    Multimap.Sorted (l.foldl (cleanupVisit hasOtherEntries face) acc).2 := by
  induction l generalizing acc with
  | nil => exact hs
  | cons nte l ih =>
    apply ih _
    dsimp only [cleanupVisit]
    split_ifs
    · exact hs
    · exact hs.emplace

/-- `maybeEmptyNtes` after the first loop: the visited entries with no table entry at the end of
the loop, under their depth. An entry's FIB entry changes only when it is visited, so the test
made then gives the answer of the end. -/
theorem perm_foldl_cleanupVisit {l : List Node} (hnd : (l.map Node.name).Nodup)
    (acc : Fib.State × List (Nat × Name)) (hi : acc.1.Inv) :
    (l.foldl (cleanupVisit hasOtherEntries face) acc).2.Perm
      ((l.filter fun x => !hasTableEntries
          (l.foldl (cleanupVisit hasOtherEntries face) acc).1.entries hasOtherEntries x).map
        (fun x => (x.name.length, x.name)) ++ acc.2) := by
  induction l generalizing acc with
  | nil => simp
  | cons nte l ih =>
    rw [List.map_cons, List.nodup_cons] at hnd
    have hi' := (@Fib.State.Inv.visit hasOtherEntries face acc hi nte).1
    -- the test made at `nte` sees the entry it will keep: later rounds do not touch it
    have hsame : hasTableEntries (l.foldl (cleanupVisit hasOtherEntries face)
          (cleanupVisit hasOtherEntries face acc nte)).1.entries hasOtherEntries nte =
        hasTableEntries (cleanupVisit hasOtherEntries face acc nte).1.entries hasOtherEntries nte := by
      simp only [hasTableEntries, Fib.nteHasFibEntry,
        lookup_foldl_cleanupVisit hasOtherEntries face hnd.2 _ hi', if_neg hnd.1]
    rw [List.foldl_cons]
    refine (ih hnd.2 _ hi').trans ?_
    rw [List.filter_cons, hsame, cleanupVisit_snd]
    cases hasTableEntries (cleanupVisit hasOtherEntries face acc nte).1.entries hasOtherEntries nte
    · simp only [Bool.not_false, if_true, Bool.false_eq_true, if_false, List.map_cons,
        List.cons_append]
      exact (List.Perm.append_left _ Multimap.perm_emplace).trans List.perm_middle
    · simp

end FirstLoop

namespace NameTree.State

variable {s : State}

/-- An entry strictly above another entry has a child on the way to it. -/
theorem Wf.child_of_isPrefix (hw : s.Wf) {e y : Name} (hy : y ∈ s.names) (hp : e <+: y)
    (hne : e ≠ y) : ∃ c ∈ s.links.children e, c <+: y := by
  have hlt : e.length < y.length := by
    rcases Nat.lt_or_ge e.length y.length with h | h
    · exact h
    · exact absurd (hp.eq_of_length (le_antisymm hp.length_le h)) hne
  have hc : y.take (e.length + 1) ∈ s.names := hw.take_mem hy _
  have hne' : y.take (e.length + 1) ≠ [] := by
    simp only [ne_eq, List.take_eq_nil_iff, not_or]
    exact ⟨by omega, List.ne_nil_of_length_pos (by omega)⟩
  have hdrop : (y.take (e.length + 1)).dropLast = e := by
    have hlen : (y.take (e.length + 1)).length = e.length + 1 := by
      rw [List.length_take]
      omega
    rw [List.dropLast_eq_take, hlen, Nat.add_sub_cancel, List.take_take, min_eq_left (by omega)]
    exact (List.prefix_iff_eq_take.mp hp).symm
  refine ⟨y.take (e.length + 1), (hw.links.mem_children _ e).mpr ?_, List.take_prefix _ _⟩
  rw [hw.parent_eq _ hc hne', hdrop]

/-- `eraseIfEmpty` that may not erase ancestors erases the entry when it is empty, and nothing
else. -/
theorem eraseIfEmpty_false (s : State) (hasOtherEntries : Name → Bool) (e : Name) :
    (s.eraseIfEmpty hasOtherEntries e false).1 =
      match s.getNode e with
      | some nte => if s.isEmpty hasOtherEntries nte then s.eraseEntry nte else s
      | none => s := by
  unfold eraseIfEmpty
  cases hnode : s.getNode e with
  | none => rw [eraseIfEmptyLoop_of_getNode_none hnode]
  | some nte =>
    cases hempty : s.isEmpty hasOtherEntries nte with
    | true => simp [eraseIfEmptyLoop_of_isEmpty hnode hempty, hempty]
    | false => simp [eraseIfEmptyLoop_of_not_isEmpty hnode hempty, hempty]

end NameTree.State

section SecondLoop

variable {T : NameTree.State} {F : Fib.Entries} {hasOtherEntries : Name → Bool}

/-- Where the second loop stands over the NameTree `T` of the first, with the FIB entries `F`:
the tree is well formed and holds nodes of `T`; every prefix of an entry with a table entry is
still there; and every entry already handled that is still there lies on the way to an entry
with a table entry. -/
structure SweepInv (T : NameTree.State) (F : Fib.Entries) (hasOtherEntries : Name → Bool)
    (done : List Name) (s : NameTree.State) : Prop where
  wf : s.Wf
  nodes : ∀ x ∈ s.ht.nodes, x ∈ T.ht.nodes
  keep : ∀ n ∈ T.names,
    (∃ x ∈ T.ht.nodes, n <+: x.name ∧ hasTableEntries F hasOtherEntries x = true) → n ∈ s.names
  handled : ∀ n ∈ s.names, n ∈ done →
    ∃ x ∈ T.ht.nodes, n <+: x.name ∧ hasTableEntries F hasOtherEntries x = true

/-- The tree the second loop starts from. -/
theorem SweepInv.init (hw : T.Wf) : SweepInv T F hasOtherEntries [] T :=
  ⟨hw, fun _ hx => hx, fun _ hn _ => hn, fun _ _ h => absurd h (List.not_mem_nil)⟩

/-- One round of the second loop, on an entry with no table entry whose deeper such entries
were all handled before it. -/
theorem SweepInv.erase (hT : T.Wf) {done : List Name} {s : NameTree.State}
    (h : SweepInv T F hasOtherEntries done s) {e : Name}
    (he : ∃ x ∈ T.ht.nodes, x.name = e ∧ hasTableEntries F hasOtherEntries x = false)
    (hdeeper : ∀ x ∈ T.ht.nodes, hasTableEntries F hasOtherEntries x = false →
      e.length < x.name.length → x.name ∈ done) :
    SweepInv T F hasOtherEntries (done ++ [e])
      (s.eraseIfEmpty (fun y => Fib.nteHasFibEntry F y || hasOtherEntries y) e false).1 := by
  obtain ⟨x, hxT, rfl, hx⟩ := he
  have hnamesT : ∀ n ∈ s.names, n ∈ T.names := fun n hn => by
    obtain ⟨y, hy, rfl⟩ := NameTree.State.mem_names.mp hn
    exact NameTree.State.mem_names.mpr ⟨y, h.nodes y hy, rfl⟩
  rw [NameTree.State.eraseIfEmpty_false]
  cases hnode : s.getNode x.name with
  | none =>
    -- the entry is gone already
    have hxs : x.name ∉ s.names := fun hxs => by
      obtain ⟨y, hy, hyx⟩ := NameTree.State.mem_names.mp hxs
      have := List.find?_eq_none.mp hnode y hy
      simp [hyx] at this
    refine ⟨h.wf, h.nodes, h.keep, fun n hn hd => ?_⟩
    rcases List.mem_append.mp hd with hd | hd
    · exact h.handled n hn hd
    · rw [List.mem_singleton] at hd
      exact absurd (hd ▸ hn) hxs
  | some nte =>
    obtain ⟨hnte, hname⟩ := NameTree.State.getNode_eq_some hnode
    have hxnte : nte = x := hT.ht.eq_of_name_eq (h.nodes nte hnte) hxT hname
    subst hxnte
    -- with no table entry, the entry is empty exactly when it has no child
    have hempty : s.isEmpty (fun y => Fib.nteHasFibEntry F y || hasOtherEntries y) nte =
        (s.links.children nte.name).isEmpty := by
      simp only [hasTableEntries, Bool.or_eq_false_iff] at hx
      have hpit : nte.pitEntries = [] := by simpa using hx.1.2
      simp [NameTree.State.isEmpty, hx.1.1, hpit, hx.2]
    dsimp only
    rw [hempty]
    cases hch : (s.links.children nte.name).isEmpty with
    | true =>
      rw [List.isEmpty_iff] at hch
      have hnames' := fun m => h.wf.mem_names_eraseEntry hnte (m := m)
      refine ⟨h.wf.eraseEntry hnte hch,
        fun y hy => h.nodes y ((h.wf.ht.mem_nodes_erase hnte).mp hy).2, ?_, ?_⟩
      · -- an entry on the way to a table entry has a child, so it is not this one
        intro n hn hP
        refine (hnames' n).mpr ⟨fun hne => ?_, h.keep n hn hP⟩
        subst hne
        obtain ⟨y, hyT, hpre, hy⟩ := hP
        have hyx : nte.name ≠ y.name := fun heq => by
          rw [hT.ht.eq_of_name_eq hxT hyT heq] at hx
          simp [hx] at hy
        have hys : y.name ∈ s.names :=
          h.keep _ (NameTree.State.mem_names.mpr ⟨y, hyT, rfl⟩) ⟨y, hyT, List.prefix_refl _, hy⟩
        obtain ⟨c, hc, -⟩ := h.wf.child_of_isPrefix hys hpre hyx
        simp [hch] at hc
      · intro n hn hd
        obtain ⟨hne, hn⟩ := (hnames' n).mp hn
        rcases List.mem_append.mp hd with hd | hd
        · exact h.handled n hn hd
        · exact absurd (List.mem_singleton.mp hd) hne
    | false =>
      obtain ⟨c, hc⟩ := List.exists_mem_of_ne_nil _ (by simpa using hch)
      obtain ⟨hcs, hc0, hcx⟩ := h.wf.mem_children hc
      refine ⟨h.wf, h.nodes, h.keep, fun n hn hd => ?_⟩
      rcases List.mem_append.mp hd with hd | hd
      · exact h.handled n hn hd
      rw [List.mem_singleton] at hd
      subst hd
      -- the child found lies on the way to a table entry: it has one, or it was handled
      have hpre : nte.name <+: c := hcx ▸ List.dropLast_prefix c
      obtain ⟨z, hzT, rfl⟩ := NameTree.State.mem_names.mp (hnamesT c hcs)
      cases hz : hasTableEntries F hasOtherEntries z with
      | true => exact ⟨z, hzT, hpre, hz⟩
      | false =>
        have hlen : nte.name.length < z.name.length := by
          rw [← hcx, List.length_dropLast]
          have := List.length_pos_iff.mpr hc0
          omega
        obtain ⟨w, hwT, hzw, hw⟩ := h.handled z.name hcs (hdeeper z hzT hz hlen)
        exact ⟨w, hwT, hpre.trans hzw, hw⟩

/-- The second loop over entries with no table entry, deepest first: each such entry is handled
before, or comes later in the list. -/
theorem SweepInv.foldl (hT : T.Wf) {rest done : List Name} {s : NameTree.State}
    (h : SweepInv T F hasOtherEntries done s)
    (hsorted : rest.Pairwise fun a b => b.length ≤ a.length)
    (hrest : ∀ e ∈ rest,
      ∃ x ∈ T.ht.nodes, x.name = e ∧ hasTableEntries F hasOtherEntries x = false)
    (hall : ∀ x ∈ T.ht.nodes, hasTableEntries F hasOtherEntries x = false →
      x.name ∈ done ∨ x.name ∈ rest) :
    SweepInv T F hasOtherEntries (done ++ rest) (rest.foldl (fun s e =>
      (s.eraseIfEmpty (fun y => Fib.nteHasFibEntry F y || hasOtherEntries y) e false).1) s) := by
  induction rest generalizing done s with
  | nil => simpa using h
  | cons e rest ih =>
    rw [List.pairwise_cons] at hsorted
    -- the entries after `e` are not deeper, so a deeper one was handled
    have hdeeper : ∀ x ∈ T.ht.nodes, hasTableEntries F hasOtherEntries x = false →
        e.length < x.name.length → x.name ∈ done := by
      intro x hx hTE hlen
      rcases hall x hx hTE with hd | hr
      · exact hd
      rcases List.mem_cons.mp hr with heq | hr
      · exact absurd (heq ▸ hlen) (lt_irrefl _)
      · exact absurd (hsorted.1 _ hr) (not_le.mpr hlen)
    have h' := h.erase hT (hrest e List.mem_cons_self) hdeeper
    rw [List.foldl_cons, List.append_cons]
    refine ih h' hsorted.2 (fun e' he' => hrest e' (List.mem_cons_of_mem _ he')) ?_
    intro x hx hTE
    rcases hall x hx hTE with hd | hr
    · exact .inl (List.mem_append_left _ hd)
    rcases List.mem_cons.mp hr with heq | hr
    · exact .inl (by simp [heq])
    · exact .inr hr

end SecondLoop

section Assembly

variable {st : Fib.State} (hasOtherEntries : Name → Bool) (face : Nat)

theorem foldl_cleanupErase (l : List (Nat × Name)) (fib : Fib.State) :
    l.foldl (cleanupErase hasOtherEntries) fib =
      { fib with tree := (l.map Prod.snd).foldl (fun s e => (s.eraseIfEmpty
          (fun y => Fib.nteHasFibEntry fib.entries y || hasOtherEntries y) e false).1) fib.tree } := by
  induction l generalizing fib with
  | nil => rfl
  | cons e l ih =>
    rw [List.foldl_cons, ih]
    rfl

/-- On a well-formed NameTree the first loop visits every node once. -/
theorem cleanupOnFaceRemoval_eq (hw : st.tree.Wf) :
    cleanupOnFaceRemoval st hasOtherEntries face =
      (st.tree.ht.nodes.foldl (cleanupVisit hasOtherEntries face) (st, [])).2.reverse.foldl
        (cleanupErase hasOtherEntries)
        (st.tree.ht.nodes.foldl (cleanupVisit hasOtherEntries face) (st, [])).1 := by
  rw [cleanupOnFaceRemoval, hw.ht.fullEnumerate_eq (Nat.lt_succ_self _), List.filter_true]
  rfl

/-- The FIB after the cleanup: each entry without its nexthop on the face, and gone when that was
its last. -/
theorem lookup_cleanupOnFaceRemoval (hi : st.Inv) (q : Name) :
    (cleanupOnFaceRemoval st hasOtherEntries face).entries.lookup q =
      (st.entries.lookup q).bind (nextHopsAfterRemoval face) := by
  have hnd : (st.tree.ht.nodes.map Node.name).Nodup := hi.wf.ht.nodup
  rw [cleanupOnFaceRemoval_eq hasOtherEntries face hi.wf, foldl_cleanupErase]
  dsimp only
  rw [lookup_foldl_cleanupVisit hasOtherEntries face hnd _ hi]
  split_ifs with hq
  · rfl
  · -- a name with no NameTree entry has no FIB entry
    have hq' : q ∉ st.entries := fun h => hq (hi.mem_names q h)
    rw [AList.lookup_eq_none.mpr hq']
    rfl

/-- The second loop sweeps the whole NameTree: its invariant holds at the end, with every entry
that had no table entry handled. -/
theorem sweepInv_cleanupOnFaceRemoval (hi : st.Inv) :
    ∃ done, SweepInv st.tree (cleanupOnFaceRemoval st hasOtherEntries face).entries
        hasOtherEntries done (cleanupOnFaceRemoval st hasOtherEntries face).tree ∧
      ∀ x ∈ st.tree.ht.nodes, hasTableEntries (cleanupOnFaceRemoval st hasOtherEntries face).entries
        hasOtherEntries x = false → x.name ∈ done := by
  have hnd : (st.tree.ht.nodes.map Node.name).Nodup := hi.wf.ht.nodup
  rw [cleanupOnFaceRemoval_eq hasOtherEntries face hi.wf, foldl_cleanupErase]
  dsimp only
  set r := st.tree.ht.nodes.foldl (cleanupVisit hasOtherEntries face) (st, [])
  have htree : r.1.tree = st.tree :=
    (Fib.State.Inv.foldl_visit hasOtherEntries face st.tree.ht.nodes (st, []) hi).2
  have hperm := perm_foldl_cleanupVisit hasOtherEntries face hnd (st, []) hi
  rw [List.append_nil] at hperm
  have hsorted : Multimap.Sorted r.2 :=
    sorted_foldl_cleanupVisit hasOtherEntries face st.tree.ht.nodes (st, []) List.Pairwise.nil
  -- each entry of `maybeEmptyNtes` is a node with no table entry, under its depth
  have hkv : ∀ p ∈ r.2, ∃ x ∈ st.tree.ht.nodes,
      hasTableEntries r.1.entries hasOtherEntries x = false ∧ p = (x.name.length, x.name) := by
    intro p hp
    obtain ⟨x, hx, rfl⟩ := List.mem_map.mp (hperm.subset hp)
    obtain ⟨hxn, hxt⟩ := List.mem_filter.mp hx
    exact ⟨x, hxn, by simpa using hxt, rfl⟩
  have hpw : (r.2.reverse.map Prod.snd).Pairwise fun a b => b.length ≤ a.length := by
    rw [List.pairwise_map, List.pairwise_reverse]
    refine hsorted.imp_of_mem fun ha hb hab => ?_
    obtain ⟨x, -, -, rfl⟩ := hkv _ ha
    obtain ⟨y, -, -, rfl⟩ := hkv _ hb
    exact hab
  rw [htree]
  refine ⟨[] ++ r.2.reverse.map Prod.snd, (SweepInv.init hi.wf).foldl hi.wf hpw ?_ ?_, ?_⟩
  · intro e he
    obtain ⟨p, hp, rfl⟩ := List.mem_map.mp he
    obtain ⟨x, hx, hxt, rfl⟩ := hkv p (List.mem_reverse.mp hp)
    exact ⟨x, hx, rfl, hxt⟩
  all_goals
    intro x hx hxt
    have hmem : (x.name.length, x.name) ∈ r.2 :=
      hperm.symm.subset (List.mem_map_of_mem (List.mem_filter.mpr ⟨hx, by simpa using hxt⟩))
    have hname : x.name ∈ r.2.reverse.map Prod.snd :=
      List.mem_map.mpr ⟨_, List.mem_reverse.mpr hmem, rfl⟩
  · exact .inr hname
  · simpa using hname

/-- The NameTree after the cleanup holds exactly the prefixes of the entries it had that have a
table entry afterwards. -/
theorem mem_names_cleanupOnFaceRemoval (hi : st.Inv) (n : Name) :
    n ∈ (cleanupOnFaceRemoval st hasOtherEntries face).tree.names ↔
      ∃ x ∈ st.tree.ht.nodes, n <+: x.name ∧
        hasTableEntries (cleanupOnFaceRemoval st hasOtherEntries face).entries hasOtherEntries x =
          true := by
  obtain ⟨done, h, hall⟩ := sweepInv_cleanupOnFaceRemoval hasOtherEntries face hi
  constructor
  · intro hn
    obtain ⟨z, hz, rfl⟩ := NameTree.State.mem_names.mp hn
    have hzT := h.nodes z hz
    -- an entry left has a table entry, or was handled and lies above one
    cases hzt : hasTableEntries _ hasOtherEntries z with
    | true => exact ⟨z, hzT, List.prefix_refl _, hzt⟩
    | false => exact h.handled z.name hn (hall z hzT hzt)
  · rintro ⟨x, hx, hpre, hxt⟩
    have hn : n ∈ st.tree.names := by
      rw [List.prefix_iff_eq_take.mp hpre]
      exact hi.wf.take_mem (NameTree.State.mem_names.mpr ⟨x, hx, rfl⟩) _
    exact h.keep n hn ⟨x, hx, hpre, hxt⟩

/-- The cleanup keeps the FIB invariant. The first loop keeps it over the NameTree it leaves as
it is, and the second erases no entry that has a FIB entry. -/
theorem Fib.State.Inv.cleanup (hi : st.Inv) : (cleanupOnFaceRemoval st hasOtherEntries face).Inv := by
  obtain ⟨done, h, -⟩ := sweepInv_cleanupOnFaceRemoval hasOtherEntries face hi
  obtain ⟨hr, htree⟩ := Fib.State.Inv.foldl_visit hasOtherEntries face st.tree.ht.nodes (st, []) hi
  have heq := cleanupOnFaceRemoval_eq hasOtherEntries face hi.wf
  rw [foldl_cleanupErase] at heq
  refine ⟨h.wf, fun q hq => ?_, by rw [heq]; exact hr.nextHops, by rw [heq]; exact hr.nItems⟩
  -- a FIB entry is a table entry of its own NameTree entry
  have hqr : q ∈ (st.tree.ht.nodes.foldl (cleanupVisit hasOtherEntries face) (st, [])).1.entries := by
    rw [heq] at hq
    exact hq
  obtain ⟨x, hx, rfl⟩ := NameTree.State.mem_names.mp (htree ▸ hr.mem_names q hqr)
  refine (mem_names_cleanupOnFaceRemoval hasOtherEntries face hi _).mpr
    ⟨x, hx, List.prefix_refl _, ?_⟩
  simp [hasTableEntries, Fib.State.nteHasFibEntry_eq, hq]

theorem isEmpty_eq_false_of_hasTableEntries {s : NameTree.State} {F : Fib.Entries} {x : Node}
    (h : hasTableEntries F hasOtherEntries x = true) :
    s.isEmpty (fun e => Fib.nteHasFibEntry F e || hasOtherEntries e) x = false := by
  unfold hasTableEntries at h
  simp only [NameTree.State.isEmpty]
  cases hf : Fib.nteHasFibEntry F x.name || hasOtherEntries x.name with
  | true => simp
  | false =>
    -- with neither a FIB entry nor another table's, the PIT entries are what it has
    rw [Bool.or_eq_false_iff] at hf
    have hp : x.pitEntries.isEmpty = false := by simpa [hf.1, hf.2] using h
    simp [hp]

/-- No NameTree entry is empty after the cleanup, which is the assertion that ends
`cleanupOnFaceRemoval`: an entry left has a table entry, or a child on the way to one. -/
theorem not_isEmpty_cleanupOnFaceRemoval (hi : st.Inv) :
    ∀ x ∈ (cleanupOnFaceRemoval st hasOtherEntries face).tree.ht.nodes,
      (cleanupOnFaceRemoval st hasOtherEntries face).tree.isEmpty (fun e =>
        Fib.nteHasFibEntry (cleanupOnFaceRemoval st hasOtherEntries face).entries e ||
          hasOtherEntries e) x = false := by
  obtain ⟨done, h, -⟩ := sweepInv_cleanupOnFaceRemoval hasOtherEntries face hi
  intro x hx
  obtain ⟨y, hy, hpre, hyt⟩ := (mem_names_cleanupOnFaceRemoval hasOtherEntries face hi x.name).mp
    (NameTree.State.mem_names.mpr ⟨x, hx, rfl⟩)
  by_cases hxy : x.name = y.name
  · rw [hi.wf.ht.eq_of_name_eq (h.nodes x hx) hy hxy]
    exact isEmpty_eq_false_of_hasTableEntries hasOtherEntries hyt
  · have hys := (mem_names_cleanupOnFaceRemoval hasOtherEntries face hi y.name).mpr
      ⟨y, hy, List.prefix_refl _, hyt⟩
    obtain ⟨c, hc, -⟩ := h.wf.child_of_isPrefix hys hpre hxy
    have hch : (NameTree.State.links (cleanupOnFaceRemoval st hasOtherEntries face).tree).children
        x.name ≠ [] := List.ne_nil_of_mem hc
    simp [NameTree.State.isEmpty, List.isEmpty_iff, hch]

/-- After `cleanupOnFaceRemoval`, the NameTree holds exactly the prefixes of the entries it had
that still have a table entry, and none of its entries is empty. -/
theorem cleanupOnFaceRemoval_tree (hi : st.Inv) :
    (∀ n, n ∈ (cleanupOnFaceRemoval st hasOtherEntries face).tree.names ↔
      ∃ x ∈ st.tree.ht.nodes, n <+: x.name ∧
        hasTableEntries (cleanupOnFaceRemoval st hasOtherEntries face).entries hasOtherEntries x =
          true) ∧
    ∀ x ∈ (cleanupOnFaceRemoval st hasOtherEntries face).tree.ht.nodes,
      (cleanupOnFaceRemoval st hasOtherEntries face).tree.isEmpty (fun e =>
        Fib.nteHasFibEntry (cleanupOnFaceRemoval st hasOtherEntries face).entries e ||
          hasOtherEntries e) x = false :=
  ⟨mem_names_cleanupOnFaceRemoval hasOtherEntries face hi,
    not_isEmpty_cleanupOnFaceRemoval hasOtherEntries face hi⟩

/-- The cleanup of face 1 after `ADD /a 1 10`. -/
theorem cleanupOnFaceRemoval_tree_addNextHop :
    (∀ n, n ∈ (cleanupOnFaceRemoval (FibManager.addNextHop .merge (Fib.State.init 8 (by decide))
        [.generic [0x61]] 1 10).1 (fun _ => false) 1).tree.names ↔
      ∃ x ∈ (FibManager.addNextHop .merge (Fib.State.init 8 (by decide))
          [.generic [0x61]] 1 10).1.tree.ht.nodes, n <+: x.name ∧
        hasTableEntries (cleanupOnFaceRemoval (FibManager.addNextHop .merge
          (Fib.State.init 8 (by decide)) [.generic [0x61]] 1 10).1 (fun _ => false) 1).entries
          (fun _ => false) x = true) ∧
    ∀ x ∈ (cleanupOnFaceRemoval (FibManager.addNextHop .merge (Fib.State.init 8 (by decide))
        [.generic [0x61]] 1 10).1 (fun _ => false) 1).tree.ht.nodes,
      (cleanupOnFaceRemoval (FibManager.addNextHop .merge (Fib.State.init 8 (by decide))
        [.generic [0x61]] 1 10).1 (fun _ => false) 1).tree.isEmpty (fun e =>
        Fib.nteHasFibEntry (cleanupOnFaceRemoval (FibManager.addNextHop .merge
          (Fib.State.init 8 (by decide)) [.generic [0x61]] 1 10).1 (fun _ => false) 1).entries e ||
          false) x = false :=
  cleanupOnFaceRemoval_tree (fun _ => false) 1
    ((Fib.State.inv_init 8 (by decide)).addNextHop .merge [.generic [0x61]] 1 10)

/-- After `cleanupOnFaceRemoval`, a prefix's FIB entry holds exactly the nexthops it held that are
not on the face. -/
theorem cleanupOnFaceRemoval_nextHops (hi : st.Inv) (q : Name) (nh : NextHop) :
    (∃ nhs, (cleanupOnFaceRemoval st hasOtherEntries face).entries.lookup q = some nhs ∧
        nh ∈ nhs) ↔
      (∃ nhs, st.entries.lookup q = some nhs ∧ nh ∈ nhs) ∧ nh.face ≠ face := by
  rw [lookup_cleanupOnFaceRemoval hasOtherEntries face hi]
  cases st.entries.lookup q with
  | none => simp
  | some nhs => simpa using mem_nextHopsAfterRemoval

/-- The cleanup of face 2 after `ADD /a 1 10`. -/
theorem cleanupOnFaceRemoval_nextHops_addNextHop :
    (∃ nhs, (cleanupOnFaceRemoval (FibManager.addNextHop .merge (Fib.State.init 8 (by decide))
        [.generic [0x61]] 1 10).1 (fun _ => false) 2).entries.lookup [.generic [0x61]] =
          some nhs ∧ ⟨1, 10⟩ ∈ nhs) ↔
      (∃ nhs, (FibManager.addNextHop .merge (Fib.State.init 8 (by decide))
        [.generic [0x61]] 1 10).1.entries.lookup [.generic [0x61]] = some nhs ∧ ⟨1, 10⟩ ∈ nhs) ∧
        (⟨1, 10⟩ : NextHop).face ≠ 2 :=
  cleanupOnFaceRemoval_nextHops (fun _ => false) 2
    ((Fib.State.inv_init 8 (by decide)).addNextHop .merge [.generic [0x61]] 1 10)
    [.generic [0x61]] ⟨1, 10⟩

end Assembly

end MwNfd
