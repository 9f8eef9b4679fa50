import Mathlib.Algebra.Order.BigOperators.Group.List
import MwNfd.Packet

/-!
# The RIB (`rib.cpp`, `rib-entry.cpp`)

The RIB keeps an entry per name with its routes, each route keyed by its face and origin, and
indexes that `Rib::insert`, `Rib::erase` and `Rib::eraseEntry` keep by hand: each entry's parent
and children, the number of its routes with CAPTURE, the number of routes in the RIB, and for
each face the entries with a route on it. An entry is a `shared_ptr`; here it is named by the
number it was allocated with, so that an index that outlives its entry shows as such.

* `Rib.insert_overwrite_nRoutesWithCaptureSet`: re-registering a route with its CAPTURE flag
  changed leaves the entry's count as it was.
* `Rib.insert_new_origin_faceEntries`: a route of a second origin on a face enters the entry in
  the face index a second time.
* `Rib.Wf.insert`, `Rib.Wf.erase`: the number of routes is kept by every update.
-/

namespace MwNfd

/-- `ndn::nfd::ROUTE_FLAG_CHILD_INHERIT`. -/
def routeFlagChildInherit : Nat := 1

/-- `ndn::nfd::ROUTE_FLAG_CAPTURE`. -/
def routeFlagCapture : Nat := 2

/-- A route of a RIB entry (`rib::Route`); its expiration is not modelled. -/
structure Route where
  faceId : Nat
  origin : Nat
  cost : Nat
  flags : Nat
  deriving DecidableEq

namespace Route

/-- `RouteFlagsTraits::isChildInherit`. -/
def isChildInherit (route : Route) : Bool := route.flags &&& routeFlagChildInherit != 0

/-- `RouteFlagsTraits::isRibCapture`. -/
def isRibCapture (route : Route) : Bool := route.flags &&& routeFlagCapture != 0

end Route

/-- `compareFaceIdAndOrigin`: the key of a route in its entry. -/
def compareFaceIdAndOrigin (lhs rhs : Route) : Bool :=
  lhs.faceId == rhs.faceId && lhs.origin == rhs.origin

/-- `compareFaceId`. -/
def compareFaceId (route : Route) (faceId : Nat) : Bool := route.faceId == faceId

/-- A `RibEntry`, as the `id`-th one allocated. -/
structure RibEntry where
  id : Nat
  name : Name
  children : List Nat
  parent : Option Nat
  routes : List Route
  inheritedRoutes : List Route
  /-- `m_nRoutesWithCaptureSet`, a `uint64_t`. -/
  nRoutesWithCaptureSet : UInt64
  deriving DecidableEq

namespace RibEntry

/-- `RibEntry::findRoute`: the first route of the key. -/
def findRoute (entry : RibEntry) (route : Route) : Option Route :=
  entry.routes.find? (compareFaceIdAndOrigin · route)

/-- `RibEntry::insertRoute`: a route of a new key goes last, counted if it has CAPTURE; for a
key that is there the entry is unchanged and the caller is told so. -/
def insertRoute (entry : RibEntry) (route : Route) : RibEntry × Bool :=
  match entry.findRoute route with
  | none =>
    ({ entry with
        nRoutesWithCaptureSet := if route.isRibCapture then entry.nRoutesWithCaptureSet + 1
          else entry.nRoutesWithCaptureSet
        routes := entry.routes ++ [route] }, true)
  | some _ => (entry, false)

/-- `*entryIt = route` in `Rib::insert`: the route of the key is overwritten. -/
def setRoute (entry : RibEntry) (route : Route) : RibEntry :=
  match entry.routes.findIdx? (compareFaceIdAndOrigin · route) with
  | some i => { entry with routes := entry.routes.set i route }
  | none => entry

/-- `RibEntry::eraseRoute`: the route of the key goes, and the count drops if the route that
goes has CAPTURE. -/
def eraseRoute (entry : RibEntry) (route : Route) : RibEntry :=
  match entry.findRoute route with
  | none => entry
  | some existing =>
    { entry with
        nRoutesWithCaptureSet := if existing.isRibCapture then entry.nRoutesWithCaptureSet - 1
          else entry.nRoutesWithCaptureSet
        routes := entry.routes.eraseP (compareFaceIdAndOrigin · route) }

/-- `RibEntry::hasFaceId`. -/
def hasFaceId (entry : RibEntry) (faceId : Nat) : Bool :=
  entry.routes.any (compareFaceId · faceId)

/-- `RibEntry::hasCapture`. -/
def hasCapture (entry : RibEntry) : Bool := entry.nRoutesWithCaptureSet > 0

/-- The routes with CAPTURE, which `m_nRoutesWithCaptureSet` is meant to count. -/
def nCaptureRoutes (entry : RibEntry) : Nat := entry.routes.countP (·.isRibCapture)

end RibEntry

/-- The RIB: `m_rib` (the order of the map is not modelled), `m_faceEntries` as pairs of a face
and an entry in the order they were put in, `m_nItems`, and the next entry to allocate. -/
structure Rib where
  rib : List RibEntry
  faceEntries : List (Nat × Nat)
  nItems : Nat
  nextId : Nat
  deriving DecidableEq

namespace Rib

def empty : Rib := ⟨[], [], 0, 0⟩

/-- `Rib::find`. -/
def find (R : Rib) (prefix_ : Name) : Option RibEntry := R.rib.find? (·.name == prefix_)

/-- The entry a `shared_ptr` points to, if it is still in the RIB. -/
def get? (R : Rib) (id : Nat) : Option RibEntry := R.rib.find? (·.id == id)

/-- A change to the entry `id` through a `shared_ptr` to it. -/
def update (R : Rib) (id : Nat) (f : RibEntry → RibEntry) : Rib :=
  { R with rib := R.rib.map fun e => if e.id = id then f e else e }

@[simp] theorem rib_update (R : Rib) (id : Nat) (f : RibEntry → RibEntry) :
    (R.update id f).rib = R.rib.map fun e => if e.id = id then f e else e := rfl

/-- `Rib::findParent`: the entry of the longest proper prefix. -/
def findParent (R : Rib) (prefix_ : Name) : Option RibEntry :=
  (List.range prefix_.length).reverse.findSome? fun i => R.find (prefix_.take i)

/-- `Rib::findDescendants`: the entries under `prefix_`. -/
def findDescendants (R : Rib) (prefix_ : Name) : List RibEntry :=
  R.rib.filter fun e => prefix_.isPrefixOf e.name && e.name != prefix_

/-- `RibEntry::addChild` on the entry `parent`. -/
def addChild (R : Rib) (parent child : Nat) : Rib :=
  (R.update child fun c => { c with parent := some parent }).update parent
    fun p => { p with children := p.children ++ [child] }

/-- `RibEntry::removeChild` on the entry `parent`. -/
def removeChild (R : Rib) (parent child : Nat) : Rib :=
  (R.update child fun c => { c with parent := none }).update parent
    fun p => { p with children := p.children.filter (· ≠ child) }

/-- The loop of `Rib::insert` over the new entry's descendants: a descendant whose parent was
the new entry's parent moves under the new entry. -/
def adoptChildren (R : Rib) (entry : Nat) (parent : Option Nat) (children : List RibEntry) :
    Rib :=
  children.foldl (fun R child =>
    if (R.get? child.id).bind (·.parent) = parent then
      let R := match parent with
        | some p => R.removeChild p child.id
        | none => R
      R.addChild entry child.id
    else R) R

/-- `Rib::insert`. -/
def insert (R : Rib) (prefix_ : Name) (route : Route) : Rib :=
  match R.find prefix_ with
  | some entry =>
    let (entry', didInsert) := entry.insertRoute route
    if didInsert then
      { R.update entry.id (fun _ => entry') with
          nItems := R.nItems + 1
          faceEntries := R.faceEntries ++ [(route.faceId, entry.id)] }
    else
      -- the route exists: its fields are overwritten
      R.update entry.id (·.setRoute route)
  | none =>
    -- a new name: the entry, under its parent, above the descendants that were under it
    let entry := (RibEntry.mk R.nextId prefix_ [] none [] [] 0).insertRoute route |>.1
    let R := { R with rib := R.rib ++ [entry], nItems := R.nItems + 1, nextId := R.nextId + 1 }
    let parent := R.findParent prefix_
    let R := match parent with
      | some p => R.addChild p.id entry.id
      | none => R
    let R := R.adoptChildren entry.id (parent.map (·.id)) (R.findDescendants prefix_)
    { R with faceEntries := R.faceEntries ++ [(route.faceId, entry.id)] }

/-- `Rib::eraseEntry`: the entry leaves its parent, which takes its children. -/
def eraseEntry (R : Rib) (id : Nat) : Rib :=
  match R.get? id with
  | none => R
  | some entry =>
    let R := match entry.parent with
      | some p => R.removeChild p id
      | none => R
    let R := entry.children.foldl (fun R child =>
      let R := R.removeChild id child
      match entry.parent with
      | some p => R.addChild p child
      | none => R) R
    { R with rib := R.rib.filter (·.id ≠ id) }

/-- `Rib::erase`. -/
def erase (R : Rib) (prefix_ : Name) (route : Route) : Rib :=
  match R.find prefix_ with
  | none => R
  | some entry =>
    match entry.findRoute route with
    | none => R
    | some _ =>
      let entry' := entry.eraseRoute route
      let R := { R.update entry.id (fun _ => entry') with nItems := R.nItems - 1 }
      -- the entry leaves the face index when it has no route on the face left
      let R := if entry'.hasFaceId route.faceId then R
        else { R with faceEntries := R.faceEntries.erase (route.faceId, entry.id) }
      if entry'.routes = [] then R.eraseEntry entry.id else R

end Rib

/-! ## Finding entries -/

namespace Rib

/-- A change through a `shared_ptr` that keeps the entry's name: `find` sees the changed entry. -/
theorem find_update (R : Rib) (id : Nat) {f : RibEntry → RibEntry}
    (hf : ∀ e, (f e).name = e.name) (prefix_ : Name) :
    (R.update id f).find prefix_ = (R.find prefix_).map fun e => if e.id = id then f e else e := by
  unfold find update
  rw [List.find?_map]
  congr 2
  funext e
  by_cases h : e.id = id <;> simp [h, hf]

/-- `Rib::insert` on a route whose key the entry has: the route is overwritten. -/
theorem insert_of_findRoute_eq_some {R : Rib} {prefix_ : Name} {entry : RibEntry}
    {route existing : Route} (hfind : R.find prefix_ = some entry)
    (hexisting : entry.findRoute route = some existing) :
    R.insert prefix_ route = R.update entry.id (·.setRoute route) := by
  simp [insert, hfind, RibEntry.insertRoute, hexisting]

/-- `Rib::insert` on a route of a new key of an existing entry. -/
theorem insert_of_findRoute_eq_none {R : Rib} {prefix_ : Name} {entry : RibEntry}
    {route : Route} (hfind : R.find prefix_ = some entry) (hnew : entry.findRoute route = none) :
    R.insert prefix_ route =
      { R.update entry.id (fun _ => (entry.insertRoute route).1) with
          nItems := R.nItems + 1
          faceEntries := R.faceEntries ++ [(route.faceId, entry.id)] } := by
  simp [insert, hfind, RibEntry.insertRoute, hnew]

end Rib

namespace RibEntry

/-- The route `setRoute` overwrites is the one `findRoute` finds. -/
theorem setRoute_of_findRoute {entry : RibEntry} {route existing : Route}
    (h : entry.findRoute route = some existing) :
    ∃ i, ∃ hi : i < entry.routes.length, entry.routes[i] = existing ∧
      (entry.setRoute route).routes = entry.routes.set i route := by
  obtain ⟨hp, i, hi, hget, hbefore⟩ := List.find?_eq_some_iff_getElem.mp h
  have hidx : entry.routes.findIdx? (compareFaceIdAndOrigin · route) = some i :=
    List.findIdx?_eq_some_iff_getElem.mpr
      ⟨hi, hget ▸ hp, fun j hj => by simpa using hbefore j hj⟩
  exact ⟨i, hi, hget, by simp [setRoute, hidx]⟩

end RibEntry

/-! ## The CAPTURE count and the face index -/

namespace Rib

/-- Re-registering a route with its CAPTURE flag changed: the route is overwritten, the number
of routes with CAPTURE changes, and `m_nRoutesWithCaptureSet` does not. -/
theorem insert_overwrite_nRoutesWithCaptureSet {R : Rib} {prefix_ : Name} {entry : RibEntry}
    {route existing : Route} (hfind : R.find prefix_ = some entry)
    (hexisting : entry.findRoute route = some existing)
    (hcap : existing.isRibCapture ≠ route.isRibCapture) :
    ∃ entry', (R.insert prefix_ route).find prefix_ = some entry' ∧
      entry'.nRoutesWithCaptureSet = entry.nRoutesWithCaptureSet ∧
      entry'.nCaptureRoutes ≠ entry.nCaptureRoutes := by
  refine ⟨entry.setRoute route, ?_, ?_, ?_⟩
  · rw [insert_of_findRoute_eq_some hfind hexisting, find_update R entry.id (fun e => by
      unfold RibEntry.setRoute; split <;> rfl), hfind]
    simp
  · unfold RibEntry.setRoute
    split <;> rfl
  · -- the count changes by the flag of the route put in less that of the route taken out
    obtain ⟨i, hi, hget, hroutes⟩ := RibEntry.setRoute_of_findRoute hexisting
    have hpos : existing.isRibCapture = true → 0 < entry.nCaptureRoutes := fun h =>
      List.countP_pos_iff.mpr ⟨existing, hget ▸ List.getElem_mem hi, h⟩
    have hcount : (entry.setRoute route).nCaptureRoutes =
        (entry.nCaptureRoutes - if existing.isRibCapture then 1 else 0) +
          if route.isRibCapture then 1 else 0 := by
      unfold RibEntry.nCaptureRoutes
      rw [hroutes, List.countP_set hi, hget]
    rw [hcount]
    cases hx : existing.isRibCapture <;> cases hr : route.isRibCapture
    · exact absurd (hx.trans hr.symm) hcap
    · simp only [Bool.false_eq_true, if_false, if_true]
      omega
    · have hc := hpos hx
      simp only [Bool.false_eq_true, if_false, if_true]
      omega
    · exact absurd (hx.trans hr.symm) hcap

/-- `/a` registered on face 1 with CAPTURE, then again from the same origin without it: the
count stays 1 while no route has CAPTURE. -/
theorem insert_overwrite_nRoutesWithCaptureSet_a :
    ∃ entry', ((empty.insert [Component.generic [0x61]] ⟨1, 0, 0, 2⟩).insert
        [Component.generic [0x61]] ⟨1, 0, 0, 0⟩).find [Component.generic [0x61]] =
        some entry' ∧
      entry'.nRoutesWithCaptureSet = 1 ∧ entry'.nCaptureRoutes ≠ 1 :=
  insert_overwrite_nRoutesWithCaptureSet
    (show (empty.insert [Component.generic [0x61]] ⟨1, 0, 0, 2⟩).find
        [Component.generic [0x61]] =
      some ⟨0, [Component.generic [0x61]], [], none, [⟨1, 0, 0, 2⟩], [], 1⟩ by decide)
    (show RibEntry.findRoute
        ⟨0, [Component.generic [0x61]], [], none, [⟨1, 0, 0, 2⟩], [], 1⟩ ⟨1, 0, 0, 0⟩ =
      some ⟨1, 0, 0, 2⟩ by decide) (by decide)

/-- A route of a new origin on a face the entry already has a route on: the entry is put in the
face index once more. -/
theorem insert_new_origin_faceEntries {R : Rib} {prefix_ : Name} {entry : RibEntry}
    {route : Route} (hfind : R.find prefix_ = some entry) (hnew : entry.findRoute route = none) :
    (R.insert prefix_ route).faceEntries.count (route.faceId, entry.id) =
      R.faceEntries.count (route.faceId, entry.id) + 1 := by
  rw [insert_of_findRoute_eq_none hfind hnew]
  simp

end Rib

/-! ## The number of routes -/

namespace Rib

/-- The number of routes in the RIB. -/
def nRoutes (R : Rib) : Nat := (R.rib.map (·.routes.length)).sum

/-- What the links between entries leave alone: each entry's routes, `m_nItems` and the
allocation. -/
def skeleton (R : Rib) : List (Nat × List Route) × Nat × Nat :=
  (R.rib.map fun e => (e.id, e.routes), R.nItems, R.nextId)

/-- The RIB's own bookkeeping: each entry is allocated once, and `m_nItems` counts the routes. -/
structure Wf (R : Rib) : Prop where
  nodup : (R.rib.map (·.id)).Nodup
  lt_nextId : ∀ e ∈ R.rib, e.id < R.nextId
  nItems_eq : R.nItems = R.nRoutes

theorem Wf.empty : Wf empty := ⟨List.nodup_nil, by simp [Rib.empty], rfl⟩

theorem Wf.of_skeleton {R R' : Rib} (h : R'.skeleton = R.skeleton) (hw : Wf R) : Wf R' := by
  simp only [skeleton, Prod.mk.injEq] at h
  obtain ⟨hrib, hn, hnext⟩ := h
  have hids : R'.rib.map (·.id) = R.rib.map (·.id) := by
    simpa [Function.comp_def] using congrArg (List.map Prod.fst) hrib
  have hlen : R'.nRoutes = R.nRoutes := by
    have := congrArg (fun l => (l.map fun x => x.2.length).sum) hrib
    simpa [nRoutes, Function.comp_def] using this
  refine ⟨hids ▸ hw.nodup, fun e he => ?_, by rw [hn, hlen, hw.nItems_eq]⟩
  have hmem : e.id ∈ R.rib.map (·.id) := hids ▸ List.mem_map.mpr ⟨e, he, rfl⟩
  obtain ⟨e₀, he₀, hid⟩ := List.mem_map.mp hmem
  exact hnext ▸ hid ▸ hw.lt_nextId e₀ he₀

theorem skeleton_update {R : Rib} {id : Nat} {f : RibEntry → RibEntry}
    (hf : ∀ e, (f e).id = e.id ∧ (f e).routes = e.routes) :
    (R.update id f).skeleton = R.skeleton := by
  simp only [skeleton, update, List.map_map, Prod.mk.injEq, and_true]
  apply List.map_congr_left
  intro e _
  by_cases h : e.id = id <;> simp [h, hf]

theorem skeleton_addChild (R : Rib) (parent child : Nat) :
    (R.addChild parent child).skeleton = R.skeleton := by
  unfold addChild
  refine (skeleton_update ?_).trans (skeleton_update ?_) <;> exact fun _ => ⟨rfl, rfl⟩

theorem skeleton_removeChild (R : Rib) (parent child : Nat) :
    (R.removeChild parent child).skeleton = R.skeleton := by
  unfold removeChild
  refine (skeleton_update ?_).trans (skeleton_update ?_) <;> exact fun _ => ⟨rfl, rfl⟩

/-- A loop whose every step only links entries leaves the skeleton. -/
theorem skeleton_foldl {α : Type} {step : Rib → α → Rib}
    (hstep : ∀ R x, (step R x).skeleton = R.skeleton) (l : List α) (R : Rib) :
    (l.foldl step R).skeleton = R.skeleton := by
  induction l generalizing R with
  | nil => rfl
  | cons x l ih => rw [List.foldl_cons, ih, hstep]

theorem skeleton_adoptChildren (R : Rib) (entry : Nat) (parent : Option Nat)
    (children : List RibEntry) : (R.adoptChildren entry parent children).skeleton = R.skeleton := by
  refine skeleton_foldl (fun R child => ?_) children R
  split
  · cases parent <;> simp [skeleton_addChild, skeleton_removeChild]
  · rfl

section Views

/-! A view of the entries (their names and routes, say) that a change does not see. -/

variable {β : Type} (g : RibEntry → β)

theorem map_update {R : Rib} {id : Nat} {f : RibEntry → RibEntry} (hf : ∀ e, g (f e) = g e) :
    (R.update id f).rib.map g = R.rib.map g := by
  simp only [rib_update, List.map_map]
  apply List.map_congr_left
  intro e _
  by_cases h : e.id = id <;> simp [h, hf]

variable {g} (hg : ∀ e parent children, g { e with parent := parent, children := children } = g e)
include hg

theorem map_addChild (R : Rib) (parent child : Nat) :
    (R.addChild parent child).rib.map g = R.rib.map g := by
  unfold addChild
  rw [map_update g fun e => hg e e.parent _, map_update g fun e => hg e _ e.children]

theorem map_removeChild (R : Rib) (parent child : Nat) :
    (R.removeChild parent child).rib.map g = R.rib.map g := by
  unfold removeChild
  rw [map_update g fun e => hg e e.parent _, map_update g fun e => hg e _ e.children]

theorem map_adoptChildren (R : Rib) (entry : Nat) (parent : Option Nat)
    (children : List RibEntry) :
    (R.adoptChildren entry parent children).rib.map g = R.rib.map g := by
  unfold adoptChildren
  induction children generalizing R with
  | nil => rfl
  | cons child children ih =>
    rw [List.foldl_cons, ih]
    split
    · cases parent <;> simp only [map_addChild hg, map_removeChild hg]
    · rfl

end Views

/-- A change to one entry changes the number of routes by the change to its routes. -/
theorem sum_map_update {l : List RibEntry} (hnd : (l.map (·.id)).Nodup) {e : RibEntry}
    (he : e ∈ l) (f : RibEntry → RibEntry) :
    ((l.map fun x => if x.id = e.id then f x else x).map (·.routes.length)).sum +
        e.routes.length = (l.map (·.routes.length)).sum + (f e).routes.length := by
  induction l with
  | nil => cases he
  | cons x l ih =>
    rw [List.map_cons, List.nodup_cons] at hnd
    simp only [List.map_cons, List.sum_cons]
    by_cases hx : x.id = e.id
    · -- `x` is `e`, and no other entry has its number
      have hxe : x = e := by
        rcases List.mem_cons.mp he with rfl | hel
        · rfl
        · have hmem : e.id ∈ l.map (·.id) := List.mem_map.mpr ⟨e, hel, rfl⟩
          exact absurd (hx ▸ hmem) hnd.1
      subst hxe
      have hrest : (l.map fun y => if y.id = x.id then f y else y) = l := by
        refine (List.map_congr_left fun y hy => if_neg fun h => hnd.1 ?_).trans (List.map_id l)
        exact h ▸ List.mem_map.mpr ⟨y, hy, rfl⟩
      rw [if_pos rfl, hrest]
      omega
    · have hel : e ∈ l := (List.mem_cons.mp he).resolve_left fun h => hx (h ▸ rfl)
      rw [if_neg hx]
      have := ih hnd.2 hel
      omega

theorem ids_update (R : Rib) {id : Nat} {f : RibEntry → RibEntry}
    (hf : ∀ x, x.id = id → (f x).id = id) :
    (R.update id f).rib.map (·.id) = R.rib.map (·.id) := by
  simp only [update, List.map_map]
  apply List.map_congr_left
  intro x _
  by_cases h : x.id = id <;> simp [h, hf]

/-- A change to one entry, with `m_nItems` set to count the routes it leaves. -/
theorem Wf.update {R : Rib} (hw : Wf R) {e : RibEntry} (he : e ∈ R.rib)
    {f : RibEntry → RibEntry} (hf : ∀ x, x.id = e.id → (f x).id = e.id) {n : Nat}
    (hn : n + e.routes.length = R.nItems + (f e).routes.length) :
    Wf { R.update e.id f with nItems := n } := by
  have hids := ids_update R hf
  refine ⟨hids ▸ hw.nodup, fun x hx => ?_, ?_⟩
  · have hmem : x.id ∈ R.rib.map (·.id) := hids ▸ List.mem_map.mpr ⟨x, hx, rfl⟩
    obtain ⟨x₀, hx₀, hid⟩ := List.mem_map.mp hmem
    exact hid ▸ hw.lt_nextId x₀ hx₀
  · have hsum := sum_map_update hw.nodup he f
    have hn' := hw.nItems_eq
    simp only [nRoutes, rib_update] at hsum hn' ⊢
    omega

/-- Dropping the entries of a number that has no routes keeps the count. -/
theorem Wf.filter {R : Rib} (hw : Wf R) {id : Nat}
    (hroutes : ∀ x ∈ R.skeleton.1, x.1 = id → x.2 = []) :
    Wf { R with rib := R.rib.filter (·.id ≠ id) } := by
  refine ⟨List.Nodup.sublist (List.filter_sublist.map _) hw.nodup,
    fun x hx => hw.lt_nextId x (List.mem_of_mem_filter hx), ?_⟩
  have hsplit := List.sum_map_filter_add_sum_map_filter_not (fun x : RibEntry => x.id ≠ id)
    (·.routes.length) R.rib
  -- the entries that go have no routes
  have hzero : ((R.rib.filter fun x => ¬ (x.id ≠ id)).map (·.routes.length)).sum = 0 := by
    refine List.sum_eq_zero fun n hn => ?_
    obtain ⟨x, hx, rfl⟩ := List.mem_map.mp hn
    obtain ⟨hx, hid⟩ := List.mem_filter.mp hx
    have hskel : (x.id, x.routes) ∈ R.skeleton.1 := List.mem_map.mpr ⟨x, hx, rfl⟩
    rw [List.length_eq_zero_iff]
    exact hroutes _ hskel (by simpa using hid)
  rw [hzero, Nat.add_zero] at hsplit
  simp only [nRoutes]
  rw [hw.nItems_eq, nRoutes, ← hsplit]

/-- `Rib::eraseEntry` on an entry with no routes. -/
theorem Wf.eraseEntry {R : Rib} (hw : Wf R) {id : Nat}
    (hroutes : ∀ x ∈ R.skeleton.1, x.1 = id → x.2 = []) : Wf (R.eraseEntry id) := by
  unfold Rib.eraseEntry
  cases hget : R.get? id with
  | none => exact hw
  | some entry =>
    dsimp only
    -- the parent and the children are relinked, which leaves the skeleton
    have hlink : ∀ R' : Rib, R'.skeleton = R.skeleton →
        (entry.children.foldl (fun R child =>
          match entry.parent with
          | some p => (R.removeChild id child).addChild p child
          | none => R.removeChild id child) R').skeleton = R.skeleton := by
      intro R' hR'
      refine (skeleton_foldl (fun R child => ?_) _ R').trans hR'
      cases entry.parent <;> simp [skeleton_addChild, skeleton_removeChild]
    have hparent : (match entry.parent with
        | some p => R.removeChild p id
        | none => R).skeleton = R.skeleton := by
      cases entry.parent <;> simp [skeleton_removeChild]
    have hskel := hlink _ hparent
    exact (Wf.of_skeleton hskel hw).filter (hskel ▸ hroutes)

end Rib

namespace RibEntry

theorem id_insertRoute (entry : RibEntry) (route : Route) :
    (entry.insertRoute route).1.id = entry.id := by
  unfold insertRoute
  split <;> rfl

theorem routes_insertRoute_of_findRoute_eq_none {entry : RibEntry} {route : Route}
    (h : entry.findRoute route = none) :
    (entry.insertRoute route).1.routes = entry.routes ++ [route] := by
  simp [insertRoute, h]

theorem id_setRoute (entry : RibEntry) (route : Route) : (entry.setRoute route).id = entry.id := by
  unfold setRoute
  split <;> rfl

theorem length_setRoute (entry : RibEntry) (route : Route) :
    (entry.setRoute route).routes.length = entry.routes.length := by
  unfold setRoute
  split <;> simp

theorem id_eraseRoute (entry : RibEntry) (route : Route) :
    (entry.eraseRoute route).id = entry.id := by
  unfold eraseRoute
  split <;> rfl

theorem length_eraseRoute_of_findRoute_eq_some {entry : RibEntry} {route existing : Route}
    (h : entry.findRoute route = some existing) :
    (entry.eraseRoute route).routes.length + 1 = entry.routes.length := by
  have hmem := List.mem_of_find?_eq_some h
  have hfind : entry.routes.find? (compareFaceIdAndOrigin · route) = some existing := h
  have hp := List.find?_some hfind
  simp only [eraseRoute, h]
  rw [List.length_eraseP_of_mem hmem hp]
  have := List.length_pos_of_mem hmem
  omega

end RibEntry

namespace Rib

/-- The face index is not part of the invariant. -/
theorem Wf.setFaceEntries {R : Rib} (hw : Wf R) (faceEntries : List (Nat × Nat)) :
    Wf { R with faceEntries := faceEntries } :=
  ⟨hw.nodup, hw.lt_nextId, hw.nItems_eq⟩

/-- A change that empties the entry `id` leaves it no routes in the skeleton. -/
theorem routes_update_eq_nil {R : Rib} {id : Nat} {f : RibEntry → RibEntry}
    (hf : ∀ x, x.id = id → (f x).routes = []) :
    ∀ x ∈ (R.update id f).skeleton.1, x.1 = id → x.2 = [] := by
  intro x hx hid
  obtain ⟨y, hy, rfl⟩ := List.mem_map.mp hx
  obtain ⟨z, -, rfl⟩ := List.mem_map.mp hy
  by_cases hz : z.id = id
  · simp only [if_pos hz]
    exact hf z hz
  · simp only [if_neg hz] at hid
    exact absurd hid hz

/-- A new entry, allocated under the next number. -/
theorem Wf.push {R : Rib} (hw : Wf R) {e : RibEntry} (hid : e.id = R.nextId) {n : Nat}
    (hn : n = R.nItems + e.routes.length) :
    Wf { R with rib := R.rib ++ [e], nItems := n, nextId := R.nextId + 1 } := by
  refine ⟨?_, fun x hx => ?_, ?_⟩
  · rw [List.map_append, List.nodup_append]
    refine ⟨hw.nodup, by simp, fun a ha b hb => ?_⟩
    obtain ⟨x, hx, rfl⟩ := List.mem_map.mp ha
    rw [List.map_singleton, List.mem_singleton] at hb
    rw [hb, hid]
    exact (hw.lt_nextId x hx).ne
  · rcases List.mem_append.mp hx with hx | hx
    · exact Nat.lt_succ_of_lt (hw.lt_nextId x hx)
    · rw [List.mem_singleton.mp hx, hid]
      exact Nat.lt_succ_self _
  · simp [nRoutes, hn, hw.nItems_eq]

theorem Wf.insert {R : Rib} (hw : Wf R) (prefix_ : Name) (route : Route) :
    Wf (R.insert prefix_ route) := by
  cases hfind : R.find prefix_ with
  | some entry =>
    have he : entry ∈ R.rib := List.mem_of_find?_eq_some hfind
    cases hr : entry.findRoute route with
    | none =>
      -- a new key: one route more
      rw [insert_of_findRoute_eq_none hfind hr]
      have hlen := congrArg List.length (RibEntry.routes_insertRoute_of_findRoute_eq_none hr)
      rw [List.length_append, List.length_singleton] at hlen
      exact (hw.update he (fun _ _ => RibEntry.id_insertRoute entry route)
        (show R.nItems + 1 + entry.routes.length = _ by omega)).setFaceEntries _
    | some existing =>
      -- the route is overwritten in place
      rw [insert_of_findRoute_eq_some hfind hr]
      exact hw.update he (fun x hx => (RibEntry.id_setRoute x route).trans hx)
        (by rw [RibEntry.length_setRoute])
  | none =>
    unfold Rib.insert
    rw [hfind]
    dsimp only
    have hw₁ :=
      hw.push (RibEntry.id_insertRoute (RibEntry.mk R.nextId prefix_ [] none [] [] 0) route)
      (show R.nItems + 1 = R.nItems + [route].length from rfl)
    refine Wf.of_skeleton ((skeleton_adoptChildren _ _ _ _).trans ?_) hw₁
    split
    · exact skeleton_addChild _ _ _
    · rfl

theorem Wf.erase {R : Rib} (hw : Wf R) (prefix_ : Name) (route : Route) :
    Wf (R.erase prefix_ route) := by
  unfold Rib.erase
  cases hfind : R.find prefix_ with
  | none => exact hw
  | some entry =>
    dsimp only
    cases hr : entry.findRoute route with
    | none => exact hw
    | some existing =>
      dsimp only
      have he : entry ∈ R.rib := List.mem_of_find?_eq_some hfind
      have hlen := RibEntry.length_eraseRoute_of_findRoute_eq_some hr
      have hle : entry.routes.length ≤ R.nItems :=
        hw.nItems_eq ▸ List.le_sum_of_mem (List.mem_map.mpr ⟨entry, he, rfl⟩)
      have hw₁ := hw.update he (fun _ _ => RibEntry.id_eraseRoute entry route)
        (show R.nItems - 1 + entry.routes.length = _ by omega)
      -- the face index is not part of the invariant
      by_cases hempty : (entry.eraseRoute route).routes = []
      · rw [if_pos hempty]
        refine Wf.eraseEntry ?_ ?_
        · split
          · exact hw₁
          · exact hw₁.setFaceEntries _
        · split <;> exact routes_update_eq_nil fun _ _ => hempty
      · rw [if_neg hempty]
        split
        · exact hw₁
        · exact hw₁.setFaceEntries _

end Rib

end MwNfd
