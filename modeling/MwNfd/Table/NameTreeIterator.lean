import Mathlib.Data.List.Perm.Subperm
import Mathlib.Algebra.Order.BigOperators.Group.List
import MwNfd.Table.NameTreeLookup

/-!
# Partial enumeration of the NameTree (`name-tree-iterator.cpp`)

`NameTree::partialEnumerate(prefix, f)` visits the subtree of the entry of `prefix` with a
selector that says, of each entry, whether to visit it and whether to go below it.
`PartialEnumerationImpl::advance` keeps only the current entry and its `wantChildren` bit between
calls: it goes down to the first child, across to the later siblings, and back up through the
parents, until it meets the next entry to visit or climbs back to the start.

The meaning of a position of the iterator is the list of entries still to come (`pending`): the
picked entries below the current entry when its children are wanted, then those below the later
siblings of the current entry and of each ancestor up to the start. Each round of the loop either
visits the head of that list, or moves without changing the list while a measure (twice the
entries of the whole remaining traversal, and the depth) goes down.

* `advanceLoop_pending`: with fuel above the measure, the loop visits the head of the pending
  list, and the iterator then stands where the tail is pending.
* `Links.select`, `Links.mem_select_iff`, `Links.nodup_select` (from `Lib.Links`): the pre-order
  list that is pending from the start.
-/

namespace MwNfd

namespace NameTree

namespace State

/-- `NameTree::findExactMatch(name)`: the entry of the whole name, and none for a name longer
than `getMaxDepth()`. -/
def findExactMatch (s : State) (name : Name) : Option Name :=
  if name.length > maxDepth then none else (s.ht.findPrefix name name.length).map (·.name)

/-- A `name_tree::Iterator` of a partial enumeration: the current entry `m_entry` (`none` for
`nullptr`), the entry `m_ref` it enumerates below, and `m_state`, the current entry's
`wantChildren`. -/
structure Iterator where
  entry : Option Name
  ref : Option Name
  state : Bool

/-- `Iterator()`, the value of `NameTree::end()`. -/
def Iterator.endIterator : Iterator := ⟨none, none, false⟩

/-- The inner loop of `advance` over the siblings after the current entry: the first one the
selector wants, or wants the children of, with the selector's answer for it. -/
def nextSibling (f : Name → Bool × Bool) : List Name → Option (Name × Bool × Bool)
  | [] => none
  | sibling :: rest => if (f sibling).1 || (f sibling).2 then some (sibling, f sibling)
    else nextSibling f rest

/-- The `while` loop of `PartialEnumerationImpl::advance`, from the current entry and its
`wantChildren`; `fuel` bounds the rounds. The loop condition and the first branch are tested
together: a round goes to the first child when the children are wanted and there is one, ends
the enumeration at `ref` otherwise, and else goes to the later siblings, then to the parent. -/
def advanceLoop (s : State) (f : Name → Bool × Bool) (ref : Name) :
    Nat → Name → Bool → Iterator
  | 0, _, _ => .endIterator
  | fuel + 1, entry, wantChildren =>
    match wantChildren, s.links.children entry with
    | true, child :: _ =>
      if (f child).1 then ⟨some child, some ref, (f child).2⟩
      else advanceLoop s f ref fuel child (f child).2
    | _, _ =>
      if entry = ref then .endIterator
      else
        match s.links.parent entry with
        -- a parent is dereferenced here; every entry below `ref` has one
        | none => .endIterator
        | some parent =>
          let siblings := s.links.children parent
          match nextSibling f (siblings.drop (siblings.idxOf entry + 1)) with
          | some (sibling, true, wantChildren) => ⟨some sibling, some ref, wantChildren⟩
          | some (sibling, false, wantChildren) =>
            advanceLoop s f ref fuel sibling wantChildren
          | none => advanceLoop s f ref fuel parent false

/-- `PartialEnumerationImpl::advance`: the first call starts at `m_ref` and visits it when the
selector wants it; a later call goes on from the current entry with `m_state`. -/
def advance (s : State) (f : Name → Bool × Bool) (fuel : Nat) (it : Iterator) : Iterator :=
  match it.entry, it.ref with
  | _, none => .endIterator
  | none, some ref =>
    if (f ref).1 then ⟨some ref, some ref, (f ref).2⟩
    else advanceLoop s f ref fuel ref (f ref).2
  | some entry, some ref => advanceLoop s f ref fuel entry it.state

/-- `NameTree::partialEnumerate(name, f)`, as its begin iterator: the constructor of `Iterator`
advances once from the entry of `name`. -/
def partialEnumerate (s : State) (name : Name) (f : Name → Bool × Bool) (fuel : Nat) :
    Iterator :=
  advance s f fuel ⟨none, s.findExactMatch name, false⟩

/-- The entries a range-for over an enumeration visits: the current entry, then `++`, until the
iterator equals `end()`; `none` if `rounds` runs out first. -/
def visitAll (s : State) (f : Name → Bool × Bool) (fuel : Nat) : Nat → Iterator → Option (List Name)
  | 0, _ => none
  | rounds + 1, it =>
    match it.entry with
    | none => some []
    | some entry => (visitAll s f fuel rounds (advance s f fuel it)).map (entry :: ·)

/-! ## The entries still to come -/

section Pending

variable (s : State) (f : Name → Bool × Bool) (ref : Name) (H : Nat)

/-- The entries below `e`, `e` included, that the selector picks, in pre-order, with the depth
bounded by `H`. -/
def subtree (e : Name) : List Name := s.links.select f (H - e.length) e

/-- The siblings after `e` among its parent's children. -/
def laterSiblings (e : Name) : List Name :=
  match s.links.parent e with
  | none => []
  | some p => (s.links.children p).drop ((s.links.children p).idxOf e + 1)

/-- What is still to come once the subtree of `e` is done: the picked entries below the later
siblings of `e` and of each of its ancestors below `ref`; `fuel` bounds the climb. -/
def after : Nat → Name → List Name
  | 0, _ => []
  | fuel + 1, e =>
    if e = ref then []
    else (laterSiblings s e).flatMap (subtree s f H) ++
      match s.links.parent e with
      | none => []
      | some p => after fuel p

/-- What the enumeration still visits from the current entry `e` with its `wantChildren`. -/
def pending (e : Name) (wantChildren : Bool) : List Name :=
  (if wantChildren then (s.links.children e).flatMap (subtree s f H) else []) ++
    after s f ref H e.length e

/-- The measure of a position of the loop: twice the entries of the whole traversal still to
come, and the depth. -/
def loopMeasure (e : Name) (wantChildren : Bool) : Nat :=
  2 * (pending s (fun _ => (true, true)) ref H e wantChildren).length + e.length

end Pending

/-- The length of the longest name of the tree. -/
def height (s : State) : Nat := (s.names.map List.length).foldr max 0

/-- Fuel for every loop of an enumeration below `ref`: above the measure of every position. -/
def enumFuel (s : State) (ref : Name) : Nat :=
  (s.names.map fun e =>
    loopMeasure s ref (s.height + 1) e true + loopMeasure s ref (s.height + 1) e false).sum + 1

/-! ## The tree below an entry -/

theorem prefix_dropLast_of_ne {a b : Name} (h : a <+: b) (hne : a ≠ b) : a <+: b.dropLast := by
  refine List.prefix_of_prefix_length_le h (List.dropLast_prefix b) ?_
  have hlt : a.length < b.length :=
    lt_of_le_of_ne h.length_le fun hlen => hne (h.eq_of_length hlen)
  rw [List.length_dropLast]
  omega

variable {s : State}

/-- A child of `e` is an entry, and `e` is its name without the last component. -/
theorem Wf.mem_children (hw : s.Wf) {c e : Name} (hc : c ∈ s.links.children e) :
    c ∈ s.names ∧ c ≠ [] ∧ c.dropLast = e := by
  have hp := (hw.links.mem_children c e).mp hc
  have hmem : c ∈ s.names := by
    by_contra hn
    rw [hw.parent_none c hn] at hp
    exact absurd hp (by simp)
  have hne : c ≠ [] := by
    rintro rfl
    rw [hw.parent_nil] at hp
    exact absurd hp (by simp)
  rw [hw.parent_eq c hmem hne, Option.some.injEq] at hp
  exact ⟨hmem, hne, hp⟩

theorem Wf.ranked (hw : s.Wf) : s.links.Ranked List.length := by
  intro c p hp
  have hc : c ∈ s.links.children p := (hw.links.mem_children c p).mpr hp
  obtain ⟨-, hne, rfl⟩ := hw.mem_children hc
  rw [List.length_dropLast]
  have := List.length_pos_iff.mpr hne
  omega

/-- An entry strictly below `ref` has its parent, the name without the last component, which
is still below `ref`. -/
theorem Wf.parent_of_ne (hw : s.Wf) {ref e : Name} (he : e ∈ s.names) (href : ref <+: e)
    (hne : e ≠ ref) :
    s.links.parent e = some e.dropLast ∧ e.dropLast ∈ s.names ∧ ref <+: e.dropLast ∧
      e.dropLast.length + 1 = e.length := by
  have hnil : e ≠ [] := by
    rintro rfl
    exact hne (List.prefix_nil.mp href).symm
  refine ⟨hw.parent_eq e he hnil, hw.dropLast_mem e he hnil,
    prefix_dropLast_of_ne href (Ne.symm hne), ?_⟩
  rw [List.length_dropLast]
  have := List.length_pos_iff.mpr hnil
  omega

theorem laterSiblings_of_parent {e p : Name} (hp : s.links.parent e = some p) :
    laterSiblings s e = (s.links.children p).drop ((s.links.children p).idxOf e + 1) := by
  simp only [laterSiblings, hp]

section Unfold

variable (f : Name → Bool × Bool) {ref : Name} {H : Nat}

/-- One level of `subtree`, for an entry within the height bound. -/
theorem Wf.subtree_eq (hw : s.Wf) (hH : ∀ n ∈ s.names, n.length < H) {e : Name}
    (he : e ∈ s.names) :
    subtree s f H e = (if (f e).1 then [e] else []) ++
      (if (f e).2 then (s.links.children e).flatMap (subtree s f H) else []) := by
  have hfuel : H - e.length = (H - e.length - 1) + 1 := by
    have := hH e he
    omega
  rw [subtree, hfuel, Links.select]
  congr 2
  refine List.flatMap_congr fun c hc => ?_
  obtain ⟨hcmem, hne, rfl⟩ := hw.mem_children hc
  have hlen : c.dropLast.length = c.length - 1 := List.length_dropLast
  have := List.length_pos_iff.mpr hne
  rw [subtree]
  congr 1
  omega

theorem after_self (fuel : Nat) : after s f ref H fuel ref = [] := by
  cases fuel <;> simp [after]

/-- `after` climbs one level from an entry strictly below `ref`. -/
theorem Wf.after_eq (hw : s.Wf) {e : Name} (he : e ∈ s.names) (href : ref <+: e)
    (hne : e ≠ ref) :
    after s f ref H e.length e = (laterSiblings s e).flatMap (subtree s f H) ++
      after s f ref H e.dropLast.length e.dropLast := by
  obtain ⟨hp, -, -, hlen⟩ := hw.parent_of_ne he href hne
  rw [← hlen, after, if_neg hne, hp]

theorem pending_of_not_descend {e : Name} {wc : Bool}
    (h : wc = false ∨ s.links.children e = []) :
    pending s f ref H e wc = after s f ref H e.length e := by
  rcases h with rfl | h
  · simp [pending]
  · simp [pending, h]

/-- From an entry below `ref` that goes no further down, what is pending is below its later
siblings, then what is pending from its parent. -/
theorem Wf.pending_climb (hw : s.Wf) {e : Name} {wc : Bool} (he : e ∈ s.names)
    (href : ref <+: e) (hne : e ≠ ref) (h : wc = false ∨ s.links.children e = []) :
    pending s f ref H e wc =
      (laterSiblings s e).flatMap (subtree s f H) ++ pending s f ref H e.dropLast false := by
  rw [pending_of_not_descend f h, hw.after_eq f he href hne, pending_of_not_descend f (.inl rfl)]

end Unfold

/-! ## The siblings after an entry -/

/-- In a list without repeats, what comes after an element. -/
theorem drop_idxOf_of_eq_append {l pre post : List Name} {x : Name} (hl : l.Nodup)
    (h : l = pre ++ x :: post) : l.drop (l.idxOf x + 1) = post := by
  have hx : x ∉ pre := by
    rw [h] at hl
    exact fun hmem => (List.nodup_append.mp hl).2.2 x hmem x List.mem_cons_self rfl
  rw [h, List.idxOf_append_of_notMem hx, List.idxOf_cons_self, Nat.add_zero]
  simp [List.drop_append]

theorem Wf.laterSiblings_of_head (hw : s.Wf) {e c : Name} {cs : List Name}
    (hch : s.links.children e = c :: cs) : laterSiblings s c = cs := by
  have hp : s.links.parent c = some e :=
    (hw.links.mem_children c e).mp (hch ▸ List.mem_cons_self)
  rw [laterSiblings_of_parent hp, hch, List.idxOf_cons_self]
  rfl

/-- A sibling after `e` is a child of `e`'s parent, and the siblings after it are those after it
in the siblings after `e`. -/
theorem Wf.laterSiblings_of_later (hw : s.Wf) {e p x : Name} {pre post : List Name}
    (hp : s.links.parent e = some p) (hlater : laterSiblings s e = pre ++ x :: post) :
    x ∈ s.links.children p ∧ laterSiblings s x = post := by
  rw [laterSiblings_of_parent hp] at hlater
  have hx : x ∈ s.links.children p :=
    List.mem_of_mem_drop (hlater ▸ List.mem_append_right pre List.mem_cons_self)
  refine ⟨hx, ?_⟩
  rw [laterSiblings_of_parent ((hw.links.mem_children x p).mp hx)]
  apply drop_idxOf_of_eq_append (hw.links.nodup p)
  rw [← List.take_append_drop ((s.links.children p).idxOf e + 1) (s.links.children p), hlater,
    List.append_assoc]

section Rounds

variable (f : Name → Bool × Bool) {ref : Name} {H : Nat}

theorem nextSibling_eq_none {l : List Name} (h : nextSibling f l = none) :
    ∀ x ∈ l, (f x).1 = false ∧ (f x).2 = false := by
  induction l with
  | nil => simp
  | cons y l ih =>
    simp only [nextSibling] at h
    split at h
    · cases h
    · next hy =>
      intro x hx
      rcases List.mem_cons.mp hx with rfl | hx
      · simpa using hy
      · exact ih h x hx

theorem nextSibling_eq_some {l : List Name} {x : Name} {ws wc : Bool}
    (h : nextSibling f l = some (x, ws, wc)) :
    ∃ pre post, l = pre ++ x :: post ∧ (∀ y ∈ pre, (f y).1 = false ∧ (f y).2 = false) ∧
      f x = (ws, wc) ∧ (ws = true ∨ wc = true) := by
  induction l with
  | nil => cases h
  | cons y l ih =>
    simp only [nextSibling] at h
    split at h
    · next hy =>
      simp only [Option.some.injEq, Prod.mk.injEq] at h
      obtain ⟨rfl, hfx⟩ := h
      rw [hfx] at hy
      exact ⟨[], l, rfl, by simp, hfx, by simpa using hy⟩
    · next hy =>
      obtain ⟨pre, post, rfl, hpre, hfx, hor⟩ := ih h
      refine ⟨y :: pre, post, rfl, ?_, hfx, hor⟩
      intro z hz
      rcases List.mem_cons.mp hz with rfl | hz
      · simpa using hy
      · exact hpre z hz

/-- Entries the selector neither wants nor wants the children of contribute nothing. -/
theorem Wf.flatMap_subtree_eq_nil (hw : s.Wf) (hH : ∀ n ∈ s.names, n.length < H)
    {l : List Name} (hl : ∀ x ∈ l, x ∈ s.names)
    (hf : ∀ x ∈ l, (f x).1 = false ∧ (f x).2 = false) : l.flatMap (subtree s f H) = [] := by
  rw [List.flatMap_eq_nil_iff]
  intro x hx
  rw [hw.subtree_eq f hH (hl x hx), (hf x hx).1, (hf x hx).2]
  rfl

/-- Going down to the first child `c`: what is pending is `c` if it is wanted, then what is
pending from `c`. -/
theorem Wf.pending_descend (hw : s.Wf) (hH : ∀ n ∈ s.names, n.length < H) {e c : Name}
    {cs : List Name} (href : ref <+: e) (hch : s.links.children e = c :: cs) :
    c ∈ s.names ∧ ref <+: c ∧ c.length = e.length + 1 ∧
      pending s f ref H e true = (if (f c).1 then [c] else []) ++ pending s f ref H c (f c).2 := by
  obtain ⟨hcn, hne, hcd⟩ := hw.mem_children (hch ▸ List.mem_cons_self)
  have hlen : c.length = e.length + 1 := by
    rw [← hcd, List.length_dropLast]
    have := List.length_pos_iff.mpr hne
    omega
  have hrefc : ref <+: c :=
    (show ref <+: c.dropLast by rw [hcd]; exact href).trans (List.dropLast_prefix c)
  have hcref : c ≠ ref := fun h => by
    have := href.length_le
    rw [← h] at this
    omega
  refine ⟨hcn, hrefc, hlen, ?_⟩
  rw [pending, if_pos rfl, hch, List.flatMap_cons, hw.subtree_eq f hH hcn, pending,
    hw.after_eq f hcn hrefc hcref, hcd, hw.laterSiblings_of_head hch]
  cases (f c).1 <;> cases (f c).2 <;> simp

/-- Going across to a later sibling `x` of `e`: what is pending from `x` is below it, below the
siblings after it, then what is pending from the parent. -/
theorem Wf.pending_sibling (hw : s.Wf) {e x : Name} {pre post : List Name}
    (he : e ∈ s.names) (href : ref <+: e) (hne : e ≠ ref)
    (hlater : laterSiblings s e = pre ++ x :: post) (wc : Bool) :
    x ∈ s.names ∧ ref <+: x ∧ x.length = e.length ∧ (∀ y ∈ pre, y ∈ s.names) ∧
      pending s f ref H x wc =
        (if wc then (s.links.children x).flatMap (subtree s f H) else []) ++
          post.flatMap (subtree s f H) ++ pending s f ref H e.dropLast false := by
  obtain ⟨hp, -, hrefp, hlen⟩ := hw.parent_of_ne he href hne
  obtain ⟨hx, hxlater⟩ := hw.laterSiblings_of_later hp hlater
  obtain ⟨hxn, hxne, hxd⟩ := hw.mem_children hx
  have hxlen : x.length = e.length := by
    rw [← hlen, ← hxd, List.length_dropLast]
    have := List.length_pos_iff.mpr hxne
    omega
  have hrefx : ref <+: x :=
    (show ref <+: x.dropLast by rw [hxd]; exact hrefp).trans (List.dropLast_prefix x)
  have hxref : x ≠ ref := by
    rintro rfl
    have h1 := hrefp.length_le
    rw [← hxd, List.length_dropLast] at h1
    have := List.length_pos_iff.mpr hxne
    omega
  have hpre : ∀ y ∈ pre, y ∈ s.names := by
    intro y hy
    rw [laterSiblings_of_parent hp] at hlater
    have hyc : y ∈ s.links.children e.dropLast :=
      List.mem_of_mem_drop (hlater ▸ List.mem_append_left _ hy)
    exact (hw.mem_children hyc).1
  refine ⟨hxn, hrefx, hxlen, hpre, ?_⟩
  rw [pending, hw.after_eq f hxn hrefx hxref, hxlater, hxd, pending_of_not_descend f (.inl rfl),
    List.append_assoc]

end Rounds

/-! ## One round of the loop -/

section Loop

variable (f : Name → Bool × Bool) {ref : Name} {fuel : Nat}

theorem advanceLoop_descend {e c : Name} {cs : List Name} (hch : s.links.children e = c :: cs) :
    advanceLoop s f ref (fuel + 1) e true =
      if (f c).1 then ⟨some c, some ref, (f c).2⟩ else advanceLoop s f ref fuel c (f c).2 := by
  simp only [advanceLoop, hch]

theorem advanceLoop_of_not_descend_self {wc : Bool} (h : wc = false ∨ s.links.children ref = []) :
    advanceLoop s f ref (fuel + 1) ref wc = .endIterator := by
  rcases h with rfl | h
  · simp [advanceLoop]
  · cases wc <;> simp [advanceLoop, h]

theorem advanceLoop_climb {e p : Name} {wc : Bool} (h : wc = false ∨ s.links.children e = [])
    (hne : e ≠ ref) (hp : s.links.parent e = some p) :
    advanceLoop s f ref (fuel + 1) e wc =
      match nextSibling f (laterSiblings s e) with
      | some (x, true, w) => ⟨some x, some ref, w⟩
      | some (x, false, w) => advanceLoop s f ref fuel x w
      | none => advanceLoop s f ref fuel p false := by
  rw [laterSiblings_of_parent hp]
  rcases h with rfl | h
  · simp [advanceLoop, hne, hp]
  · cases wc <;> simp [advanceLoop, h, hne, hp]

/-- With fuel above the measure, the loop from an entry below `ref` ends when nothing is
pending, and else visits the head of what is pending and stands where the rest is pending. -/
theorem Wf.advanceLoop_pending (hw : s.Wf) {H : Nat} (hH : ∀ n ∈ s.names, n.length < H)
    {e : Name} {wc : Bool} (he : e ∈ s.names) (href : ref <+: e)
    (hfuel : loopMeasure s ref H e wc < fuel) :
    (pending s f ref H e wc = [] ∧ advanceLoop s f ref fuel e wc = .endIterator) ∨
      ∃ x, advanceLoop s f ref fuel e wc = ⟨some x, some ref, (f x).2⟩ ∧ x ∈ s.names ∧
        ref <+: x ∧ pending s f ref H e wc = x :: pending s f ref H x (f x).2 := by
  -- the induction is on the fuel; each round that visits nothing keeps what is pending and
  -- lowers the measure, computed from the pending entries of the selector that wants all
  induction fuel generalizing e wc with
  | zero => exact absurd hfuel (Nat.not_lt_zero _)
  | succ fuel ih =>
    by_cases hd : wc = true ∧ s.links.children e ≠ []
    · obtain ⟨rfl, hne⟩ := hd
      obtain ⟨c, cs, hch⟩ := List.exists_cons_of_ne_nil hne
      obtain ⟨hcn, hrefc, hlen, hpend⟩ := hw.pending_descend f hH href hch
      have hmeas : loopMeasure s ref H c (f c).2 < loopMeasure s ref H e true := by
        have hg := (hw.pending_descend (fun _ => (true, true)) hH href hch).2.2.2
        simp only [if_true, List.singleton_append] at hg
        have hle : (pending s (fun _ => (true, true)) ref H c (f c).2).length ≤
            (pending s (fun _ => (true, true)) ref H c true).length := by
          cases (f c).2 <;> simp [pending]
        simp only [loopMeasure, hg, List.length_cons]
        omega
      rw [advanceLoop_descend f hch]
      by_cases hc1 : (f c).1 = true
      · exact .inr ⟨c, by rw [if_pos hc1], hcn, hrefc, by rw [hpend, if_pos hc1]; rfl⟩
      · rw [if_neg hc1, hpend, if_neg hc1, List.nil_append]
        exact ih hcn hrefc (by omega)
    · have hnd : wc = false ∨ s.links.children e = [] := by
        cases wc
        · exact .inl rfl
        · exact .inr (by simpa using hd)
      by_cases hne : e = ref
      · subst hne
        refine .inl ⟨?_, advanceLoop_of_not_descend_self f hnd⟩
        rw [pending_of_not_descend f hnd, after_self]
      obtain ⟨hp, hpn, hrefp, hplen⟩ := hw.parent_of_ne he href hne
      have hpend : pending s f ref H e wc = _ := hw.pending_climb f he href hne hnd
      have hgpend : pending s (fun _ => (true, true)) ref H e wc = _ :=
        hw.pending_climb _ he href hne hnd
      rw [advanceLoop_climb f hnd hne hp]
      cases hns : nextSibling f (laterSiblings s e) with
      | none =>
        have hnil := hw.flatMap_subtree_eq_nil f hH (fun x hx => ?_) (nextSibling_eq_none f hns)
        · rw [hpend, hnil, List.nil_append]
          refine ih hpn hrefp ?_
          simp only [loopMeasure, hgpend, List.length_append] at hfuel ⊢
          omega
        · rw [laterSiblings_of_parent hp] at hx
          exact (hw.mem_children (List.mem_of_mem_drop hx)).1
      | some t =>
        obtain ⟨x, ws, wx⟩ := t
        obtain ⟨pre, post, hl, hpre, hfx, hor⟩ := nextSibling_eq_some f hns
        obtain ⟨hxn, hrefx, hxlen, hpren, hxpend⟩ := hw.pending_sibling f he href hne hl wx
        have hprenil := hw.flatMap_subtree_eq_nil f hH hpren hpre
        have hsub := hw.subtree_eq f hH hxn
        rw [hfx] at hsub
        rw [hpend, hl, List.flatMap_append, hprenil, List.nil_append, List.flatMap_cons, hsub]
        cases ws with
        | true =>
          refine .inr ⟨x, by rw [hfx], hxn, hrefx, ?_⟩
          rw [hfx, hxpend]
          simp
        | false =>
          have hwx : wx = true := by simpa using hor
          subst hwx
          rw [if_pos rfl, List.append_assoc] at hxpend
          rw [if_neg (by simp), List.nil_append, if_pos rfl, List.append_assoc, ← hxpend]
          refine ih hxn hrefx ?_
          have hgx : pending s (fun _ => (true, true)) ref H x true = _ :=
            (hw.pending_sibling (fun _ => (true, true)) he href hne hl true).2.2.2.2
          have hgsub := hw.subtree_eq (fun _ => (true, true)) hH hxn
          simp only [if_true, List.singleton_append] at hgx hgsub
          simp only [loopMeasure, hgpend, hl, hgx, hgsub, List.flatMap_append, List.flatMap_cons,
            List.length_append, List.length_cons] at hfuel ⊢
          omega

end Loop

/-! ## The whole enumeration -/

theorem le_foldr_max {l : List Nat} {a : Nat} (ha : a ∈ l) : a ≤ l.foldr max 0 := by
  induction l with
  | nil => cases ha
  | cons m ms ih =>
    rcases List.mem_cons.mp ha with rfl | ha
    · exact le_max_left _ _
    · exact (ih ha).trans (le_max_right _ _)

theorem length_le_height {n : Name} (hn : n ∈ s.names) : n.length ≤ s.height :=
  le_foldr_max (List.mem_map_of_mem hn)

theorem length_lt_height_succ : ∀ n ∈ s.names, n.length < s.height + 1 :=
  fun _ hn => Nat.lt_succ_of_le (length_le_height hn)

theorem loopMeasure_lt_enumFuel {ref e : Name} (he : e ∈ s.names) (wc : Bool) :
    loopMeasure s ref (s.height + 1) e wc < s.enumFuel ref := by
  have hmem := List.le_sum_of_mem (List.mem_map_of_mem (f := fun e =>
    loopMeasure s ref (s.height + 1) e true + loopMeasure s ref (s.height + 1) e false) he)
  unfold enumFuel
  cases wc <;> omega

theorem Wf.findExactMatch_eq (hw : s.Wf) (name : Name) :
    s.findExactMatch name =
      if name.length ≤ maxDepth ∧ name ∈ s.names then some name else none := by
  unfold findExactMatch
  rw [hw.ht.findPrefix, List.take_length]
  by_cases hlen : name.length ≤ maxDepth
  · rw [if_neg (by omega)]
    cases h : s.ht.nodes.find? (fun x => x.name == name) with
    | none =>
      have hn : name ∉ s.names := fun hn => by
        obtain ⟨x, hx, rfl⟩ := mem_names.mp hn
        simpa using List.find?_eq_none.mp h x hx
      simp [hlen, hn]
    | some x =>
      have hx : x.name = name := by simpa using List.find?_some h
      have hn : name ∈ s.names := mem_names.mpr ⟨x, List.mem_of_find?_eq_some h, hx⟩
      simp [hlen, hn, hx]
  · rw [if_pos (by omega), if_neg (by omega)]

theorem Wf.eq_of_findExactMatch (hw : s.Wf) {name ref : Name}
    (h : s.findExactMatch name = some ref) : ref = name ∧ name ∈ s.names := by
  rw [hw.findExactMatch_eq] at h
  split at h
  · next hn =>
    cases h
    exact ⟨rfl, hn.2⟩
  · cases h

variable (f : Name → Bool × Bool)

/-- From an entry below `ref`, with fuel enough, the range-for visits the entry and then what
is pending from it. -/
theorem Wf.visitAll_pending (hw : s.Wf) {ref : Name} {fuel : Nat} (hfuel : s.enumFuel ref ≤ fuel)
    {rounds : Nat} {x : Name} {wc : Bool} (hx : x ∈ s.names) (href : ref <+: x)
    (hrounds : (pending s f ref (s.height + 1) x wc).length + 2 ≤ rounds) :
    visitAll s f fuel rounds ⟨some x, some ref, wc⟩ =
      some (x :: pending s f ref (s.height + 1) x wc) := by
  induction rounds generalizing x wc with
  | zero => omega
  | succ rounds ih =>
    have hstep : advance s f fuel ⟨some x, some ref, wc⟩ = advanceLoop s f ref fuel x wc := rfl
    rw [visitAll, hstep]
    rcases hw.advanceLoop_pending f length_lt_height_succ hx href
        ((loopMeasure_lt_enumFuel hx wc).trans_le hfuel) with
      ⟨hnil, hend⟩ | ⟨y, hy, hyn, hrefy, hpend⟩
    · obtain ⟨r, rfl⟩ := Nat.exists_eq_add_of_lt (show 0 < rounds by omega)
      rw [hend, hnil]
      rfl
    · rw [hy, hpend, ih hyn hrefy (by rw [hpend, List.length_cons] at hrounds; omega)]
      rfl

theorem visitAll_endIterator {fuel rounds : Nat} (h : 0 < rounds) :
    visitAll s f fuel rounds .endIterator = some [] := by
  obtain ⟨r, rfl⟩ := Nat.exists_eq_add_of_lt h
  rfl

/-- The ancestors of an entry are its prefixes. -/
theorem Wf.ancestor_eq (hw : s.Wf) {x : Name} (hx : x ∈ s.names) {k : Nat} (hk : k ≤ x.length) :
    s.links.ancestor k x = some (x.take (x.length - k)) := by
  induction k with
  | zero => rw [Nat.sub_zero, List.take_length]; rfl
  | succ k ih =>
    have hy := hw.take_mem hx (x.length - k)
    have hne : x.take (x.length - k) ≠ [] := by
      rw [ne_eq, List.take_eq_nil_iff, not_or]
      refine ⟨by omega, fun h => ?_⟩
      rw [h, List.length_nil] at hk
      omega
    rw [Links.ancestor_succ', ih (by omega), Option.bind_some, hw.parent_eq _ hy hne,
      show x.length - k = x.length - (k + 1) + 1 by omega, dropLast_take_succ (by omega)]

theorem Wf.ancestor_eq_none (hw : s.Wf) {x : Name} (hx : x ∈ s.names) {k : Nat}
    (hk : x.length < k) : s.links.ancestor k x = none := by
  induction k with
  | zero => omega
  | succ k ih =>
    rw [Links.ancestor_succ']
    rcases Nat.lt_or_ge x.length k with hlt | hge
    · rw [ih hlt]
      rfl
    · rw [hw.ancestor_eq hx hge, show x.length - k = 0 by omega, List.take_zero, Option.bind_some,
        hw.parent_nil]

theorem Wf.mem_names_of_ancestor (hw : s.Wf) {x a : Name} {k : Nat}
    (h : s.links.ancestor k x = some a) (ha : a ∈ s.names) : x ∈ s.names := by
  cases k with
  | zero =>
    cases h
    exact ha
  | succ k =>
    rw [Links.ancestor, Option.bind_eq_some_iff] at h
    obtain ⟨p, hp, -⟩ := h
    by_contra hx
    rw [hw.parent_none x hx] at hp
    cases hp

/-- The entries the selector picks below `ref` are the entries below `ref` that it wants, under
entries whose children it wants all the way down from `ref`. -/
theorem Wf.mem_subtree_iff (hw : s.Wf) {ref x : Name} (href : ref ∈ s.names) :
    x ∈ subtree s f (s.height + 1) ref ↔ x ∈ s.names ∧ ref <+: x ∧ (f x).1 ∧
      ∀ i, ref.length ≤ i → i < x.length → (f (x.take i)).2 := by
  rw [subtree, Links.mem_select_iff hw.links]
  constructor
  · rintro ⟨hfx, k, -, hk, hpath⟩
    have hx := hw.mem_names_of_ancestor hk href
    have hkle : k ≤ x.length := by
      by_contra hlt
      rw [hw.ancestor_eq_none hx (by omega)] at hk
      cases hk
    rw [hw.ancestor_eq hx hkle, Option.some.injEq] at hk
    subst hk
    refine ⟨hx, List.take_prefix _ _, hfx, fun i hi hix => ?_⟩
    rw [List.length_take] at hi
    refine hpath (x.length - i - 1) (by omega) _ ?_
    rw [hw.ancestor_eq hx (by omega), show x.length - (x.length - i - 1 + 1) = i by omega]
  · rintro ⟨hx, hrefx, hfx, hpath⟩
    have hlen := hrefx.length_le
    refine ⟨hfx, x.length - ref.length, ?_, ?_, fun j hj a ha => ?_⟩
    · have := length_le_height hx
      omega
    · rw [hw.ancestor_eq hx (by omega), show x.length - (x.length - ref.length) = ref.length by
        omega, ← List.prefix_iff_eq_take.mp hrefx]
    · rw [hw.ancestor_eq hx (by omega), Option.some.injEq] at ha
      rw [← ha]
      exact hpath _ (by omega) (by omega)

theorem Wf.length_subtree_le (hw : s.Wf) {ref : Name} (href : ref ∈ s.names) :
    (subtree s f (s.height + 1) ref).length ≤ s.names.length := by
  have hnodup := Links.nodup_select hw.links f hw.ranked (s.height + 1 - ref.length) ref
  exact (hnodup.subperm fun x hx => ((hw.mem_subtree_iff f href).mp hx).1).length_le

/-- The start: what is pending from the entry enumerated below is its subtree, less itself. -/
theorem Wf.subtree_self (hw : s.Wf) {ref : Name} (href : ref ∈ s.names) :
    subtree s f (s.height + 1) ref =
      (if (f ref).1 then [ref] else []) ++ pending s f ref (s.height + 1) ref (f ref).2 := by
  rw [hw.subtree_eq f length_lt_height_succ href, pending, after_self, List.append_nil]

/-- A range-for over `partialEnumerate(name, f)` ends, and visits the entries of the subtree of
the entry of `name` that `f` wants, under entries whose children `f` wants, each once, in
pre-order (an entry before its descendants, siblings in the order of the children lists); it
visits nothing when `name` has no entry. -/
theorem partialEnumerate_visits (hw : s.Wf) (name : Name) {fuel rounds : Nat}
    (hfuel : s.enumFuel name ≤ fuel) (hrounds : s.names.length + 2 ≤ rounds) :
    ∃ l, visitAll s f fuel rounds (s.partialEnumerate name f fuel) = some l ∧
      (s.findExactMatch name = none → l = []) ∧
      (s.findExactMatch name = some name →
        l = s.links.select f (s.height + 1 - name.length) name) ∧
      l.Nodup ∧
      ∀ e, e ∈ l ↔ s.findExactMatch name = some name ∧ e ∈ s.names ∧ name <+: e ∧ (f e).1 ∧
        ∀ i, name.length ≤ i → i < e.length → (f (e.take i)).2 := by
  cases hfind : s.findExactMatch name with
  | none =>
    have hbegin : s.partialEnumerate name f fuel = .endIterator := by
      unfold partialEnumerate advance
      rw [hfind]
    refine ⟨[], ?_, fun _ => rfl, fun h => absurd h (by simp), List.nodup_nil, by simp⟩
    rw [hbegin]
    exact visitAll_endIterator f (by omega)
  | some ref =>
    obtain ⟨rfl, href⟩ := hw.eq_of_findExactMatch hfind
    have hsub := hw.subtree_self f href
    have hlen := hw.length_subtree_le f href
    refine ⟨subtree s f (s.height + 1) ref, ?_, fun h => absurd h (by simp), fun _ => rfl,
      Links.nodup_select hw.links f hw.ranked _ _, fun e => ?_⟩
    · unfold partialEnumerate advance
      rw [hfind]
      dsimp only
      by_cases h1 : (f ref).1 = true
      · rw [if_pos h1, hw.visitAll_pending f hfuel href List.prefix_rfl, hsub, if_pos h1]
        · rfl
        · rw [hsub, if_pos h1, List.length_append] at hlen
          simp only [List.length_singleton] at hlen
          omega
      · rw [if_neg h1]
        rw [if_neg h1, List.nil_append] at hsub
        rcases hw.advanceLoop_pending f length_lt_height_succ href
            List.prefix_rfl ((loopMeasure_lt_enumFuel href _).trans_le hfuel) with
          ⟨hnil, hend⟩ | ⟨x, hx, hxn, hrefx, hpend⟩
        · rw [hend, visitAll_endIterator f (by omega), hsub, hnil]
        · rw [hx, hw.visitAll_pending f hfuel hxn hrefx, hsub, hpend]
          rw [hsub, hpend, List.length_cons] at hlen
          omega
    · rw [hw.mem_subtree_iff f href]
      simp

/-- The enumeration from the root of the NameTree of /a/b with a selector that does not go below
/a: /a is visited, /a/b is pruned. -/
theorem partialEnumerate_visits_pruned :
    ∃ l, visitAll ((init 8 (by decide)).lookup [.generic [0x61], .generic [0x62]] 2).1
        (fun e => (true, decide (e ≠ [.generic [0x61]])))
        (((init 8 (by decide)).lookup [.generic [0x61], .generic [0x62]] 2).1.enumFuel [])
        (((init 8 (by decide)).lookup [.generic [0x61], .generic [0x62]] 2).1.names.length + 2)
        (((init 8 (by decide)).lookup [.generic [0x61], .generic [0x62]] 2).1.partialEnumerate []
          (fun e => (true, decide (e ≠ [.generic [0x61]])))
          (((init 8 (by decide)).lookup [.generic [0x61], .generic [0x62]] 2).1.enumFuel [])) =
        some l ∧
      [.generic [0x61]] ∈ l ∧ [.generic [0x61], .generic [0x62]] ∉ l := by
  have hw0 := wf_init 8 (by decide)
  have hk : 2 ≤ [Component.generic [0x61], .generic [0x62]].length := by decide
  obtain ⟨hw, x, hx, -, hxname⟩ := hw0.lookup hk
  -- every prefix of /a/b is an entry
  have hmem : ∀ i ≤ 2, [Component.generic [0x61], .generic [0x62]].take i ∈
      ((init 8 (by decide)).lookup [.generic [0x61], .generic [0x62]] 2).1.names :=
    fun i _ => hw.take_mem (mem_names.mpr ⟨x, hx, hxname⟩) i
  obtain ⟨l, hl, -, -, -, hiff⟩ := partialEnumerate_visits
    (fun e => (true, decide (e ≠ [.generic [0x61]]))) hw [] le_rfl le_rfl
  have hroot : ((init 8 (by decide)).lookup [.generic [0x61], .generic [0x62]] 2).1.findExactMatch
      [] = some [] := by
    rw [hw.findExactMatch_eq, if_pos ⟨by decide, hmem 0 (by decide)⟩]
  refine ⟨l, hl, (hiff _).mpr ⟨hroot, hmem 1 (by decide), List.nil_prefix, rfl, ?_⟩, fun h => ?_⟩
  · -- the only entry above /a is the root, below which the selector goes
    intro i _ hi
    obtain rfl : i = 0 := by simpa using hi
    decide
  · -- /a/b lies below /a, below which the selector does not go
    obtain ⟨-, -, -, -, hall⟩ := (hiff _).mp h
    exact absurd (hall 1 (by decide) (by decide)) (by decide)

end State

end NameTree

end MwNfd
