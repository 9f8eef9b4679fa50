import MwNfd.Rib.FibUpdater

/-!
# Computing FIB updates from RIB updates (`fib-updater.cpp`, `rib.cpp`)

Before a RIB update is applied, `FibUpdater::computeUpdates` works out, from the RIB as it is,
the FIB updates that the change will need: the route itself, the routes the name inherits from
its ancestors, and the routes its descendants inherit from it, through a walk of the subtree that
stops at a CAPTURE route and at a face the descendant has a CHILD_INHERIT route on. The routes
inherited from ancestors are a `Rib::RouteSet`, a set ordered by face id alone.

The FIB the RIB stands for is `Rib.refCost`: a name's own lowest cost on a face, or else the
lowest-cost CHILD_INHERIT route on the face at the nearest ancestor that has one, scanning up to
the first ancestor with CAPTURE.

* `Rib.applyWithFib`: one RIB update applied through `Rib::beginApplyUpdate` with every FIB
  command succeeding.
* `Rib.applyWithFib_inherits_first_route`: a new name inherits, on a face, the first
  CHILD_INHERIT route its parent lists there, not the cheapest.
-/

namespace MwNfd

/-! ## Route sets and the entries' route queries -/

namespace RouteSet

/-- `RouteSet::insert` into a `std::set` ordered by `sortRoutes`, which compares face ids only:
the set is kept in order of face, and a route on a face the set has is not inserted. -/
def insert : List Route → Route → List Route
  | [], route => [route]
  | r :: rs, route =>
    if route.faceId < r.faceId then route :: r :: rs
    else if route.faceId = r.faceId then r :: rs
    else r :: insert rs route

/-- The CHILD_INHERIT routes among `routes` inserted into the set, in order. -/
def insertChildInherit (ancestorRoutes routes : List Route) : List Route :=
  routes.foldl (fun ancestorRoutes route =>
    if route.isChildInherit then insert ancestorRoutes route else ancestorRoutes) ancestorRoutes

/-- `RouteSet::find`: the route of the set on the route's face. -/
def find (routes : List Route) (route : Route) : Option Route :=
  routes.find? (·.faceId = route.faceId)

/-- `RouteSet::erase` of what `find` finds. -/
def erase (routes : List Route) (route : Route) : List Route :=
  routes.filter (·.faceId ≠ route.faceId)

end RouteSet

/-- The loops of `getRouteWithLowestCostByFaceId` and its CHILD_INHERIT variant over the routes
they match: the first of the lowest cost. -/
def lowestCostRoute (routes : List Route) : Option Route :=
  routes.foldl (fun candidate route =>
    match candidate with
    | none => some route
    | some c => if route.cost < c.cost then some route else some c) none

namespace RibEntry

/-- `RibEntry::getNRoutes`. -/
def getNRoutes (entry : RibEntry) : Nat := entry.routes.length

/-- `RibEntry::hasChildInheritOnFaceId`. -/
def hasChildInheritOnFaceId (entry : RibEntry) (faceId : Nat) : Bool :=
  entry.routes.any fun route => route.faceId == faceId && route.isChildInherit

/-- `RibEntry::hasInheritedRoute`: an inherited route on the route's face. -/
def hasInheritedRoute (entry : RibEntry) (route : Route) : Bool :=
  entry.inheritedRoutes.any (compareFaceId · route.faceId)

/-- `RibEntry::getRouteWithLowestCostByFaceId`. -/
def getRouteWithLowestCostByFaceId (entry : RibEntry) (faceId : Nat) : Option Route :=
  lowestCostRoute (entry.routes.filter (·.faceId = faceId))

/-- `RibEntry::getRouteWithLowestCostAndChildInheritByFaceId`. -/
def getRouteWithLowestCostAndChildInheritByFaceId (entry : RibEntry) (faceId : Nat) :
    Option Route :=
  lowestCostRoute (entry.routes.filter fun route => route.faceId = faceId ∧ route.isChildInherit)

/-- `RibEntry::getRouteWithSecondLowestCostByFaceId`: `std::nth_element` puts a route of the
second lowest cost at index 1; among routes of equal cost the one taken here is the one a stable
sort puts there. -/
def getRouteWithSecondLowestCostByFaceId (entry : RibEntry) (faceId : Nat) : Option Route :=
  let sameFace := entry.routes.filter (·.faceId = faceId)
  if sameFace.length < 2 then none
  else (sameFace.mergeSort fun lhs rhs => lhs.cost ≤ rhs.cost)[1]?

end RibEntry

/-! ## Ancestors and descendants -/

namespace Rib

/-- `Rib::findDescendantsForNonInsertedName`. -/
def findDescendantsForNonInsertedName (R : Rib) (prefix_ : Name) : List RibEntry :=
  R.rib.filter fun e => prefix_.isPrefixOf e.name

/-- The entries of a child list, through their `shared_ptr`s. -/
def childrenOf (R : Rib) (entry : RibEntry) : List RibEntry := entry.children.filterMap R.get?

/-- The loop of `Rib::getAncestorRoutes` from `parent` upward, for at most `fuel` entries: each
entry's CHILD_INHERIT routes go into the set, and the walk stops after an entry with CAPTURE. -/
def ancestorRoutesFrom (R : Rib) : Nat → Option Nat → List Route → List Route
  | 0, _, ancestorRoutes => ancestorRoutes
  | _ + 1, none, ancestorRoutes => ancestorRoutes
  | fuel + 1, some id, ancestorRoutes =>
    match R.get? id with
    | none => ancestorRoutes
    | some parent =>
      let ancestorRoutes := RouteSet.insertChildInherit ancestorRoutes parent.routes
      if parent.hasCapture then ancestorRoutes
      else ancestorRoutesFrom R fuel parent.parent ancestorRoutes

/-- `Rib::getAncestorRoutes(const RibEntry&)`; a chain of parents has at most as many entries as
the RIB. -/
def getAncestorRoutes (R : Rib) (entry : RibEntry) : List Route :=
  R.ancestorRoutesFrom R.rib.length entry.parent []

/-- `Rib::getAncestorRoutes(const Name&)`, from `findParent`. -/
def getAncestorRoutesOfName (R : Rib) (name : Name) : List Route :=
  R.ancestorRoutesFrom R.rib.length ((R.findParent name).map (·.id)) []

end Rib

/-! ## Route sets -/

namespace RouteSet

/-- A route set's order: faces strictly increasing. -/
def Sorted (routes : List Route) : Prop := routes.Pairwise fun a b => a.faceId < b.faceId

theorem mem_insert {routes : List Route} {route r : Route} (h : r ∈ insert routes route) :
    r = route ∨ r ∈ routes := by
  induction routes with
  | nil => exact .inl (List.mem_singleton.mp h)
  | cons x xs ih =>
    unfold insert at h
    split_ifs at h
    · exact (List.mem_cons.mp h).imp id id
    · exact .inr h
    · rcases List.mem_cons.mp h with rfl | h
      · exact .inr List.mem_cons_self
      · exact (ih h).imp id (List.mem_cons_of_mem x)

theorem sorted_insert {routes : List Route} (hs : Sorted routes) (route : Route) :
    Sorted (insert routes route) := by
  induction routes with
  | nil => exact List.pairwise_singleton _ _
  | cons x xs ih =>
    obtain ⟨hx, hxs⟩ := List.pairwise_cons.mp hs
    unfold insert
    split_ifs with hlt heq
    · refine List.Pairwise.cons (fun y hy => ?_) hs
      rcases List.mem_cons.mp hy with rfl | hy
      · exact hlt
      · exact Nat.lt_trans hlt (hx y hy)
    · exact hs
    · -- the route goes after `x`, whose face is smaller
      refine List.Pairwise.cons (fun y hy => ?_) (ih hxs)
      rcases mem_insert hy with rfl | hy
      · omega
      · exact hx y hy

theorem find?_eq_none_of_forall_lt {routes : List Route} {f : Nat}
    (hlt : ∀ y ∈ routes, f < y.faceId) : routes.find? (·.faceId = f) = none := by
  refine List.find?_eq_none.mpr fun y hy h => ?_
  have hy' := hlt y hy
  simp only [decide_eq_true_eq] at h
  omega

/-- The route a sorted set has on a face after an insertion: the one it had, or else the route
inserted if it is on that face. -/
theorem find?_insert {routes : List Route} (hs : Sorted routes) (route : Route) (f : Nat) :
    (insert routes route).find? (·.faceId = f) =
      (routes.find? (·.faceId = f)).or (if route.faceId = f then some route else none) := by
  induction routes with
  | nil => by_cases h : route.faceId = f <;> simp [insert, h]
  | cons x xs ih =>
    obtain ⟨hx, hxs⟩ := List.pairwise_cons.mp hs
    by_cases hlt : route.faceId < x.faceId
    · -- the route goes first, below every face of the set
      rw [insert, if_pos hlt]
      by_cases hf : route.faceId = f
      · have hnone : (x :: xs).find? (·.faceId = f) = none :=
          find?_eq_none_of_forall_lt fun y hy => by
            rcases List.mem_cons.mp hy with rfl | hy
            · omega
            · have := hx y hy
              omega
        simp [hf, hnone]
      · simp [hf]
    · by_cases heq : route.faceId = x.faceId
      · -- the face is there: the set is unchanged
        rw [insert, if_neg hlt, if_pos heq]
        by_cases hf : x.faceId = f <;> simp [hf, heq]
      · rw [insert, if_neg hlt, if_neg heq]
        by_cases hf : x.faceId = f <;> simp [hf, ih hxs]

theorem sorted_insertChildInherit {routes : List Route} (hs : Sorted routes) (more : List Route) :
    Sorted (insertChildInherit routes more) := by
  induction more generalizing routes with
  | nil => exact hs
  | cons r rs ih =>
    unfold insertChildInherit
    rw [List.foldl_cons]
    split
    · exact ih (sorted_insert hs r)
    · exact ih hs

/-- After the CHILD_INHERIT routes of a list are inserted, the route of a face is the one the set
had, or else the list's first CHILD_INHERIT route on the face. -/
theorem find?_insertChildInherit {routes : List Route} (hs : Sorted routes) (more : List Route)
    (f : Nat) :
    (insertChildInherit routes more).find? (·.faceId = f) =
      (routes.find? (·.faceId = f)).or
        (more.find? fun r => r.faceId = f ∧ r.isChildInherit) := by
  induction more generalizing routes with
  | nil => simp [insertChildInherit]
  | cons r rs ih =>
    unfold insertChildInherit
    rw [List.foldl_cons]
    by_cases hci : r.isChildInherit
    · rw [if_pos hci]
      refine (ih (sorted_insert hs r)).trans ?_
      rw [find?_insert hs]
      by_cases hf : r.faceId = f <;> cases routes.find? (·.faceId = f) <;> simp [hf, hci]
    · rw [if_neg hci]
      refine (ih hs).trans ?_
      simp [hci]

/-- A sorted set has one route a face. -/
theorem filter_eq_of_find? {routes : List Route} (hs : Sorted routes) {f : Nat} {x : Route}
    (h : routes.find? (·.faceId = f) = some x) : routes.filter (·.faceId = f) = [x] := by
  induction routes with
  | nil => cases h
  | cons y ys ih =>
    obtain ⟨hy, hys⟩ := List.pairwise_cons.mp hs
    by_cases hf : y.faceId = f
    · have hx : y = x := by simpa [List.find?_cons, hf] using h
      subst hx
      have hrest : ys.filter (·.faceId = f) = [] :=
        List.filter_eq_nil_iff.mpr fun z hz => by have := hy z hz; simp; omega
      simp [hf, hrest]
    · simp only [List.find?_cons, hf, decide_false] at h
      simp [hf, ih hys h]

end RouteSet

namespace Rib

theorem sorted_ancestorRoutesFrom (R : Rib) (fuel : Nat) (parent : Option Nat)
    {routes : List Route} (hs : RouteSet.Sorted routes) :
    RouteSet.Sorted (R.ancestorRoutesFrom fuel parent routes) := by
  induction fuel generalizing parent routes with
  | zero => exact hs
  | succ fuel ih =>
    cases parent with
    | none => exact hs
    | some id =>
      unfold ancestorRoutesFrom
      split
      · exact hs
      · dsimp only
        split
        · exact RouteSet.sorted_insertChildInherit hs _
        · exact ih _ (RouteSet.sorted_insertChildInherit hs _)

/-- The walk up the ancestors keeps the route a face has. -/
theorem find?_ancestorRoutesFrom (R : Rib) (fuel : Nat) (parent : Option Nat)
    {routes : List Route} (hs : RouteSet.Sorted routes) {f : Nat} {x : Route}
    (h : routes.find? (·.faceId = f) = some x) :
    (R.ancestorRoutesFrom fuel parent routes).find? (·.faceId = f) = some x := by
  induction fuel generalizing parent routes with
  | zero => exact h
  | succ fuel ih =>
    cases parent with
    | none => exact h
    | some id =>
      unfold ancestorRoutesFrom
      split
      · exact h
      · next parent _ =>
        dsimp only
        have hkeep : (RouteSet.insertChildInherit routes parent.routes).find? (·.faceId = f) =
            some x := by
          rw [RouteSet.find?_insertChildInherit hs, h]
          rfl
        split
        · exact hkeep
        · exact ih _ (RouteSet.sorted_insertChildInherit hs _) hkeep

/-- An entry of a RIB whose entries are numbered once is what `get?` finds under its number. -/
theorem get?_of_mem {R : Rib} (hnd : (R.rib.map (·.id)).Nodup) {e : RibEntry} (he : e ∈ R.rib) :
    R.get? e.id = some e := by
  obtain ⟨l₁, l₂, hl⟩ := List.append_of_mem he
  rw [hl, List.map_append, List.map_cons, List.nodup_append] at hnd
  have hnone : l₁.find? (·.id == e.id) = none := List.find?_eq_none.mpr fun x hx h => by
    have hx' : x.id ∈ l₁.map (·.id) := List.mem_map.mpr ⟨x, hx, rfl⟩
    exact hnd.2.2 _ hx' _ List.mem_cons_self (by simpa using h)
  simp [get?, hl, List.find?_append, hnone]

theorem mem_of_findParent {R : Rib} {name : Name} {parent : RibEntry}
    (h : R.findParent name = some parent) : parent ∈ R.rib := by
  obtain ⟨i, -, hi⟩ := List.exists_of_findSome?_eq_some h
  exact List.mem_of_find?_eq_some hi

/-- A name whose parent lists a CHILD_INHERIT route on a face first inherits that route on it. -/
theorem find?_getAncestorRoutesOfName {R : Rib} (hw : R.Wf) {name : Name} {parent : RibEntry}
    (hparent : R.findParent name = some parent) {f : Nat} {first : Route}
    (hfirst : parent.routes.find? (fun r => r.faceId = f ∧ r.isChildInherit) = some first) :
    (R.getAncestorRoutesOfName name).find? (·.faceId = f) = some first := by
  have hmem := mem_of_findParent hparent
  obtain ⟨n, hn⟩ : ∃ n, R.rib.length = n + 1 :=
    Nat.exists_eq_add_one.mpr (List.length_pos_of_mem hmem)
  have hset :
      (RouteSet.insertChildInherit [] parent.routes).find? (·.faceId = f) = some first := by
    rw [RouteSet.find?_insertChildInherit List.Pairwise.nil, hfirst]
    rfl
  have hsorted := RouteSet.sorted_insertChildInherit (List.Pairwise.nil) parent.routes
  unfold getAncestorRoutesOfName
  rw [hparent, hn, Option.map_some, ancestorRoutesFrom, get?_of_mem hw.nodup hmem]
  dsimp only
  split
  · exact hset
  · exact find?_ancestorRoutesFrom R n _ hsorted hset

end Rib

/-! ## The computation -/

/-- `RibUpdate::Action`. -/
inductive RibUpdate.Action
  | register
  | unregister
  | removeFace
  deriving DecidableEq

/-- A `RibUpdate`: the action, the name and the route. -/
structure RibUpdate where
  action : RibUpdate.Action
  name : Name
  route : Route
  deriving DecidableEq

/-- What `computeUpdates` writes: the FIB updates it passes to `addFibUpdate`, in order, and
`m_inheritedRoutes`. -/
structure Computed where
  updates : List FibUpdate
  inheritedRoutes : List RibUpdate
  deriving DecidableEq

namespace Computed

/-- `FibUpdater::addFibUpdate`, as the call it is: `FibUpdater.addFibUpdate` then sorts the
calls into the two lists. -/
def addFibUpdate (C : Computed) (update : FibUpdate) : Computed :=
  { C with updates := C.updates ++ [update] }

/-- `FibUpdater::addInheritedRoute`. -/
def addInheritedRoute (C : Computed) (name : Name) (route : Route) : Computed :=
  { C with inheritedRoutes := C.inheritedRoutes ++ [⟨.register, name, route⟩] }

/-- `FibUpdater::removeInheritedRoute`. -/
def removeInheritedRoute (C : Computed) (name : Name) (route : Route) : Computed :=
  { C with inheritedRoutes := C.inheritedRoutes ++ [⟨.unregister, name, route⟩] }

/-- A route inherited by `name`, with the FIB update that installs it. -/
def inherit (C : Computed) (name : Name) (route : Route) : Computed :=
  (C.addInheritedRoute name route).addFibUpdate
    (FibUpdate.createAddUpdate name route.faceId route.cost route.flags)

/-- A route no longer inherited by `name`, with the FIB update that removes it. -/
def disinherit (C : Computed) (name : Name) (route : Route) : Computed :=
  (C.removeInheritedRoute name route).addFibUpdate (FibUpdate.createRemoveUpdate name route.faceId)

end Computed

namespace FibUpdater

/-- The loops of the two `FibUpdater::addInheritedRoutes`: each route that `keep` admits is
inherited by `name`. -/
def addInheritedRoutesWhere (name : Name) (routesToAdd : List Route) (keep : Route → Bool)
    (C : Computed) : Computed :=
  routesToAdd.foldl (fun C route => if keep route then C.inherit name route else C) C

/-- `FibUpdater::addInheritedRoutes(const RibEntry&, const RouteSet&)`: a face the entry has a
route on is not inherited. -/
def addInheritedRoutes (entry : RibEntry) (routesToAdd : List Route) (C : Computed) : Computed :=
  addInheritedRoutesWhere entry.name routesToAdd (fun route => !entry.hasFaceId route.faceId) C

/-- `FibUpdater::addInheritedRoutes(const Name&, const RouteSet&, const Route& ignore)`: the face
of `ignore` is not inherited. -/
def addInheritedRoutesIgnoring (name : Name) (routesToAdd : List Route) (ignore : Route)
    (C : Computed) : Computed :=
  addInheritedRoutesWhere name routesToAdd (fun route => route.faceId != ignore.faceId) C

/-- `FibUpdater::removeInheritedRoutes`: only routes the entry inherits are removed. -/
def removeInheritedRoutes (entry : RibEntry) (routesToRemove : List Route) (C : Computed) :
    Computed :=
  routesToRemove.foldl (fun C route =>
    if entry.hasInheritedRoute route then C.disinherit entry.name route else C) C

/-- `FibUpdater::traverseSubTree`, for a subtree at most `fuel` deep. A route on a face the entry
has a CHILD_INHERIT route on leaves the sets for the entry and its subtree. -/
def traverseSubTree (R : Rib) :
    Nat → RibEntry → List Route → List Route → Computed → Computed
  | 0, _, _, _, C => C
  | fuel + 1, entry, routesToAdd, routesToRemove, C =>
    if entry.hasCapture then C
    else
      let (routesToRemove, C) := routesToRemove.foldl (fun (kept, C) route =>
        if entry.hasChildInheritOnFaceId route.faceId then (kept, C)
        else if entry.hasInheritedRoute route then (kept ++ [route], C.disinherit entry.name route)
        else (kept ++ [route], C)) ([], C)
      let (routesToAdd, C) := routesToAdd.foldl (fun (kept, C) route =>
        if entry.hasChildInheritOnFaceId route.faceId then (kept, C)
        else if !entry.hasFaceId route.faceId then (kept ++ [route], C.inherit entry.name route)
        else (kept ++ [route], C)) ([], C)
      (R.childrenOf entry).foldl (fun C child =>
        traverseSubTree R fuel child routesToAdd routesToRemove C) C

/-- `FibUpdater::modifyChildrensInheritedRoutes`. -/
def modifyChildrensInheritedRoutes (R : Rib) (children : List RibEntry)
    (routesToAdd routesToRemove : List Route) (C : Computed) : Computed :=
  children.foldl (fun C child =>
    traverseSubTree R R.rib.length child routesToAdd routesToRemove C) C

/-- `route.cost` is at most that of `other`, or there is no `other`: the test
`other == nullptr || route.cost <= other->cost` of the source. -/
def costAtMost (route : Route) (other : Option Route) : Bool :=
  match other with
  | none => true
  | some other => route.cost ≤ other.cost

/-- `FibUpdater::createFibUpdatesForNewRibEntry`. -/
def createFibUpdatesForNewRibEntry (R : Rib) (name : Name) (route : Route)
    (children : List RibEntry) (C : Computed) : Computed :=
  let C := C.addFibUpdate (FibUpdate.createAddUpdate name route.faceId route.cost route.flags)
  if !route.isChildInherit && !route.isRibCapture then
    -- no flags: the entry inherits its ancestors' routes
    addInheritedRoutesIgnoring name (R.getAncestorRoutesOfName name) route C
  else if route.isChildInherit && route.isRibCapture then
    modifyChildrensInheritedRoutes R children [route] (R.getAncestorRoutesOfName name) C
  else if route.isChildInherit then
    let ancestorRoutes := R.getAncestorRoutesOfName name
    let C := addInheritedRoutesIgnoring name ancestorRoutes route C
    -- the new route takes the place of an ancestor's route on its face
    let ancestorRoutes := RouteSet.insert (RouteSet.erase ancestorRoutes route) route
    modifyChildrensInheritedRoutes R children ancestorRoutes [] C
  else if route.isRibCapture then
    modifyChildrensInheritedRoutes R children [] (R.getAncestorRoutesOfName name) C
  else C

/-- `FibUpdater::createFibUpdatesForNewRoute`, on the entry before the route is inserted. -/
def createFibUpdatesForNewRoute (R : Rib) (entry : RibEntry) (route : Route)
    (captureWasTurnedOn : Bool) (C : Computed) : Computed :=
  let prevRoute := entry.getRouteWithLowestCostAndChildInheritByFaceId route.faceId
  let routesToAdd := if route.isChildInherit && costAtMost route prevRoute then [route] else []
  let routesToRemove := if captureWasTurnedOn then R.getAncestorRoutes entry else []
  let C := if captureWasTurnedOn then removeInheritedRoutes entry routesToRemove C else C
  let C := modifyChildrensInheritedRoutes R (R.childrenOf entry) routesToAdd routesToRemove C
  -- last, so that an add replaces a removal of the same face
  if costAtMost route (entry.getRouteWithLowestCostByFaceId route.faceId) then
    C.addFibUpdate (FibUpdate.createAddUpdate entry.name route.faceId route.cost route.flags)
  else C

/-- The part of `FibUpdater::createFibUpdatesForUpdatedRoute` for a changed cost: the updates it
makes, and whether the function returns there. -/
def updatedRouteCost (R : Rib) (entry : RibEntry) (route existingRoute : Route)
    (prevRoute : Option Route) (C : Computed) : Computed × Bool :=
  let lowest := entry.getRouteWithLowestCostByFaceId route.faceId
  let C :=
    if costAtMost route lowest then
      C.addFibUpdate (FibUpdate.createAddUpdate entry.name route.faceId route.cost route.flags)
    else
      match lowest with
      | some lowest =>
        if existingRoute.cost < lowest.cost then
          -- the route was the cheapest and no longer is: `prevRoute` is dereferenced unchecked
          match prevRoute with
          | some prev =>
            C.addFibUpdate (FibUpdate.createAddUpdate entry.name prev.faceId prev.cost prev.flags)
          | none => C
        else C
      | none => C
  if costAtMost route prevRoute && route.flags == existingRoute.flags && route.isChildInherit then
    (modifyChildrensInheritedRoutes R (R.childrenOf entry) [route] [] C, true)
  else (C, false)

/-- `FibUpdater::createFibUpdatesForUpdatedRoute`, on the entry with the route updated. -/
def createFibUpdatesForUpdatedRoute (R : Rib) (entry : RibEntry) (route existingRoute : Route)
    (C : Computed) : Computed :=
  let costDidChange := route.cost != existingRoute.cost
  let prevRoute := entry.getRouteWithLowestCostAndChildInheritByFaceId route.faceId
  if route.flags == existingRoute.flags && !costDidChange then C
  else
    let (C, returned) :=
      if costDidChange then updatedRouteCost R entry route existingRoute prevRoute C
      else (C, false)
    if returned then C
    else
      let children := R.childrenOf entry
      let C :=
        if !existingRoute.isChildInherit && route.isChildInherit then
          if costAtMost route prevRoute then modifyChildrensInheritedRoutes R children [route] [] C
          else C
        else if existingRoute.isChildInherit && !route.isChildInherit then
          -- another CHILD_INHERIT route on the face, or else an ancestor's, goes to the children
          let routesToAdd := match prevRoute with
            | some prev => [prev]
            | none => (RouteSet.find (R.getAncestorRoutes entry) route).toList
          modifyChildrensInheritedRoutes R children routesToAdd [route] C
        else C
      if !existingRoute.isRibCapture && route.isRibCapture then
        let ancestorRoutes := R.getAncestorRoutes entry
        let C := removeInheritedRoutes entry ancestorRoutes C
        modifyChildrensInheritedRoutes R children [] ancestorRoutes C
      else if existingRoute.isRibCapture && !route.isRibCapture then
        let ancestorRoutes := R.getAncestorRoutes entry
        let C := addInheritedRoutes entry ancestorRoutes C
        modifyChildrensInheritedRoutes R children ancestorRoutes [] C
      else C

/-- The ancestors' routes that an entry whose CAPTURE was turned off inherits again, if it keeps
a route. -/
def captureTurnedOff (R : Rib) (entry : RibEntry) (captureWasTurnedOff : Bool) (C : Computed) :
    List Route × Computed :=
  if captureWasTurnedOff && entry.getNRoutes != 0 then
    let routesToAdd := R.getAncestorRoutes entry
    (routesToAdd, addInheritedRoutes entry routesToAdd C)
  else ([], C)

/-- `FibUpdater::createFibUpdatesForErasedRoute`, on the entry with the route erased. -/
def createFibUpdatesForErasedRoute (R : Rib) (entry : RibEntry) (route : Route)
    (captureWasTurnedOff : Bool) (C : Computed) : Computed :=
  let C := C.addFibUpdate (FibUpdate.createRemoveUpdate entry.name route.faceId)
  let children := R.childrenOf entry
  let C :=
    if route.isChildInherit && route.isRibCapture then
      let (routesToAdd, C) := captureTurnedOff R entry captureWasTurnedOff C
      modifyChildrensInheritedRoutes R children routesToAdd [route] C
    else if route.isChildInherit then
      let routesToAdd := if !entry.hasCapture then R.getAncestorRoutes entry else []
      modifyChildrensInheritedRoutes R children routesToAdd [route] C
    else if route.isRibCapture then
      let (routesToAdd, C) := captureTurnedOff R entry captureWasTurnedOff C
      modifyChildrensInheritedRoutes R children routesToAdd [] C
    else C
  -- the erased route may have hidden an ancestor's route on its face
  if !entry.hasCapture && entry.getNRoutes != 0 then
    match RouteSet.find (R.getAncestorRoutes entry) route with
    | some ancestor => C.inherit entry.name ancestor
    | none => C
  else C

/-- `FibUpdater::createFibUpdatesForErasedRibEntry`. -/
def createFibUpdatesForErasedRibEntry (entry : RibEntry) (C : Computed) : Computed :=
  entry.inheritedRoutes.foldl (fun C route =>
    C.addFibUpdate (FibUpdate.createRemoveUpdate entry.name route.faceId)) C

/-- `FibUpdater::computeUpdatesForRegistration`. -/
def computeUpdatesForRegistration (R : Rib) (update : RibUpdate) (C : Computed) : Computed :=
  match R.find update.name with
  | some entry =>
    match entry.findRoute update.route with
    | none =>
      let willCaptureBeTurnedOn := !entry.hasCapture && update.route.isRibCapture
      createFibUpdatesForNewRoute R entry update.route willCaptureBeTurnedOn C
    | some existingRoute =>
      -- a copy of the entry with the route's flags and cost updated
      createFibUpdatesForUpdatedRoute R (entry.setRoute update.route) update.route existingRoute C
  | none =>
    let parent := R.findParent update.name
    let children := (R.findDescendantsForNonInsertedName update.name).filter fun descendant =>
      descendant.parent == parent.map (·.id)
    createFibUpdatesForNewRibEntry R update.name update.route children C

/-- `FibUpdater::computeUpdatesForUnregistration`. -/
def computeUpdatesForUnregistration (R : Rib) (update : RibUpdate) (C : Computed) : Computed :=
  match R.find update.name with
  | none => C
  | some entry =>
    match entry.findRoute update.route with
    | none => C
    | some existing =>
      let temp := entry.eraseRoute update.route
      let captureWasTurnedOff := entry.hasCapture && !temp.hasCapture
      let C := createFibUpdatesForErasedRoute R temp existing captureWasTurnedOff C
      -- the next cheapest route on the face replaces the erased one
      let C := match entry.getRouteWithSecondLowestCostByFaceId update.route.faceId with
        | some next => createFibUpdatesForNewRoute R temp next false C
        | none => C
      if entry.getNRoutes = 1 then createFibUpdatesForErasedRibEntry entry C else C

/-- `FibUpdater::computeUpdates` for a batch on the face `batchFaceId`. A face removal clears the
list of the batch's face, that is, drops every update on that face written so far. -/
def computeUpdates (R : Rib) (batchFaceId : Nat) (batch : List RibUpdate) : Computed :=
  batch.foldl (fun C update =>
    match update.action with
    | .register => computeUpdatesForRegistration R update C
    | .unregister => computeUpdatesForUnregistration R update C
    | .removeFace =>
      let C := computeUpdatesForUnregistration R update C
      { C with updates := C.updates.filter (·.faceId ≠ batchFaceId) }) ⟨[], []⟩

end FibUpdater

/-! ## Applying a batch -/

namespace Rib

/-- `Rib::modifyInheritedRoutes`. -/
def modifyInheritedRoutes (R : Rib) (inheritedRoutes : List RibUpdate) : Rib :=
  inheritedRoutes.foldl (fun R update =>
    match R.find update.name with
    | none => R
    | some entry =>
      match update.action with
      | .register => R.update entry.id fun e =>
          { e with inheritedRoutes := e.inheritedRoutes ++ [update.route] }
      | .unregister => R.update entry.id fun e =>
          { e with
            inheritedRoutes := e.inheritedRoutes.filter (!compareFaceId · update.route.faceId) }
      | .removeFace => R) R

/-- `Rib::onFibUpdateSuccess`: the batch's updates, then the inherited routes computed for it. -/
def onFibUpdateSuccess (R : Rib) (batch : List RibUpdate) (inheritedRoutes : List RibUpdate) :
    Rib :=
  (batch.foldl (fun R update =>
    match update.action with
    | .register => R.insert update.name update.route
    | .unregister | .removeFace => R.erase update.name update.route) R).modifyInheritedRoutes
    inheritedRoutes

/-- A RIB update applied through `Rib::beginApplyUpdate` with every FIB command succeeding: the
FIB updates of its batch, as `FibUpdater` holds them in its two lists, and the RIB after
`Rib::onFibUpdateSuccess`. -/
def applyWithFib (R : Rib) (update : RibUpdate) : List FibUpdate × Rib :=
  let C := FibUpdater.computeUpdates R update.route.faceId [update]
  let U := FibUpdater.empty.computeAndSendFibUpdates 0 update.route.faceId C.updates
  (U.updatesForBatchFaceId ++ U.updatesForNonBatchFaceId,
    R.onFibUpdateSuccess [update] C.inheritedRoutes)

end Rib

/-! ## The FIB the RIB stands for -/

/-- A FIB as the cost of each name's nexthop on each face. -/
abbrev FibCosts := Name → Nat → Option Nat

/-- A FIB update applied: an add sets the nexthop's cost, a removal drops it. -/
def applyFibUpdate (fib : FibCosts) (update : FibUpdate) : FibCosts := fun name faceId =>
  if name = update.name ∧ faceId = update.faceId then
    match update.action with
    | .addNexthop => some update.cost
    | .removeNexthop => none
  else fib name faceId

def applyFibUpdates (fib : FibCosts) (updates : List FibUpdate) : FibCosts :=
  updates.foldl applyFibUpdate fib

namespace Rib

/-- The lowest cost among routes. -/
def lowestCost (routes : List Route) : Option Nat := (routes.map (·.cost)).min?

/-- The inherited cost on a face of a name without routes of its own there: the ancestors are
scanned from the longest prefix up; the first with a CHILD_INHERIT route on the face gives the
lowest cost of those, and the scan stops after an ancestor with a CAPTURE route. -/
def inheritedCost (R : Rib) (name : Name) (faceId : Nat) : List Nat → Option Nat
  | [] => none
  | i :: is =>
    match R.find (name.take i) with
    | none => R.inheritedCost name faceId is
    | some ancestor =>
      match lowestCost (ancestor.routes.filter fun r => r.faceId = faceId ∧ r.isChildInherit) with
      | some cost => some cost
      | none =>
        if ancestor.routes.any (·.isRibCapture) then none
        else R.inheritedCost name faceId is

/-- The reference FIB of a RIB: for an entry and a face, its own lowest cost there, or else,
without a CAPTURE route, the cost it inherits. -/
def refCost (R : Rib) : FibCosts := fun name faceId =>
  match R.find name with
  | none => none
  | some entry =>
    match lowestCost (entry.routes.filter (·.faceId = faceId)) with
    | some cost => some cost
    | none =>
      if entry.routes.any (·.isRibCapture) then none
      else R.inheritedCost name faceId (List.range name.length).reverse

end Rib

/-! ## The FIB of a list of updates -/

section Apply

variable (fib : FibCosts) (name : Name) (faceId : Nat)

@[simp] theorem applyFibUpdates_nil : applyFibUpdates fib [] = fib := rfl

@[simp] theorem applyFibUpdates_cons (update : FibUpdate) (updates : List FibUpdate) :
    applyFibUpdates fib (update :: updates) = applyFibUpdates (applyFibUpdate fib update) updates :=
  rfl

theorem applyFibUpdates_append (updates more : List FibUpdate) :
    applyFibUpdates fib (updates ++ more) = applyFibUpdates (applyFibUpdates fib updates) more :=
  List.foldl_append

theorem applyFibUpdate_of_ne {update : FibUpdate}
    (h : ¬ (update.name = name ∧ update.faceId = faceId)) :
    applyFibUpdate fib update name faceId = fib name faceId :=
  if_neg fun h' => h ⟨h'.1.symm, h'.2.symm⟩

/-- What the FIB has at a name and face after the updates depends only on what it had there. -/
theorem applyFibUpdates_congr {fib fib' : FibCosts} (h : fib name faceId = fib' name faceId)
    (updates : List FibUpdate) :
    applyFibUpdates fib updates name faceId = applyFibUpdates fib' updates name faceId := by
  induction updates generalizing fib fib' with
  | nil => exact h
  | cons update updates ih =>
    refine ih ?_
    unfold applyFibUpdate
    split
    · rfl
    · exact h

/-- Only the updates of a name and face change the FIB there. -/
theorem applyFibUpdates_filter (updates : List FibUpdate) :
    applyFibUpdates fib updates name faceId =
      applyFibUpdates fib (updates.filter fun u => u.name = name ∧ u.faceId = faceId) name
        faceId := by
  induction updates generalizing fib with
  | nil => rfl
  | cons update updates ih =>
    by_cases hu : update.name = name ∧ update.faceId = faceId
    · rw [List.filter_cons_of_pos (by simpa using hu), applyFibUpdates_cons, applyFibUpdates_cons,
        ih]
    · rw [List.filter_cons_of_neg (by simpa using hu), applyFibUpdates_cons, ih]
      exact applyFibUpdates_congr name faceId (applyFibUpdate_of_ne fib name faceId hu) _

/-- A list with one update a name and face. -/
def OneEach (updates : List FibUpdate) : Prop :=
  (updates.map fun u => (u.name, u.faceId)).Nodup

/-- In a list with one update a name and face, no other update is for the name and face of one
of them. -/
theorem filter_eq_nil_of_oneEach {L₁ L₂ : List FibUpdate} {a : FibUpdate}
    (h : OneEach (L₁ ++ a :: L₂)) (hk : a.name = name ∧ a.faceId = faceId) :
    L₁.filter (fun u => u.name = name ∧ u.faceId = faceId) = [] ∧
      L₂.filter (fun u => u.name = name ∧ u.faceId = faceId) = [] := by
  rw [OneEach, List.map_append, List.map_cons, List.nodup_append, List.nodup_cons] at h
  obtain ⟨-, ⟨ha₂, -⟩, hdisj⟩ := h
  constructor
  · refine List.filter_eq_nil_iff.mpr fun x hx hpx => ?_
    simp only [decide_eq_true_eq] at hpx
    exact hdisj _ (List.mem_map.mpr ⟨x, hx, rfl⟩) _ List.mem_cons_self
      (by rw [hpx.1, hpx.2, hk.1, hk.2])
  · refine List.filter_eq_nil_iff.mpr fun x hx hpx => ?_
    simp only [decide_eq_true_eq] at hpx
    exact ha₂ (List.mem_map.mpr ⟨x, hx, by rw [hpx.1, hpx.2, hk.1, hk.2]⟩)

theorem oneEach_addFibUpdateTo {L : List FibUpdate} (hL : OneEach L) (update : FibUpdate) :
    OneEach (FibUpdater.addFibUpdateTo L update) := by
  unfold FibUpdater.addFibUpdateTo
  split
  · next i hi =>
    -- an update of the same name and face is overwritten in place
    obtain ⟨hlt, -⟩ := List.findIdx?_eq_some_iff_getElem.mp hi
    obtain ⟨L₁, a, L₂, rfl, -, hmod⟩ := List.exists_of_modify
      (fun existing => { existing with action := update.action, cost := update.cost }) hlt
    rw [hmod]
    simpa [OneEach] using hL
  · next hi =>
    have hnew : (update.name, update.faceId) ∉ L.map fun u => (u.name, u.faceId) := by
      intro h
      obtain ⟨x, hx, hkey⟩ := List.mem_map.mp h
      have := List.findIdx?_eq_none_iff.mp hi x hx
      simp only [Prod.mk.injEq] at hkey
      simp [hkey.1, hkey.2] at this
    rw [OneEach, List.map_append, List.nodup_append]
    refine ⟨hL, List.nodup_cons.mpr ⟨List.not_mem_nil, List.nodup_nil⟩,
      fun x hx y hy hxy => ?_⟩
    simp only [List.map_cons, List.map_nil, List.mem_singleton] at hy
    subst hy hxy
    exact hnew hx

/-- `addFibUpdateTo` gives the FIB what appending the update gives. -/
theorem applyFibUpdates_addFibUpdateTo {L : List FibUpdate} (hL : OneEach L)
    (update : FibUpdate) :
    applyFibUpdates fib (FibUpdater.addFibUpdateTo L update) =
      applyFibUpdates fib (L ++ [update]) := by
  funext name faceId
  unfold FibUpdater.addFibUpdateTo
  split
  · next i hi =>
    obtain ⟨hlt, hp, -⟩ := List.findIdx?_eq_some_iff_getElem.mp hi
    obtain ⟨L₁, a, L₂, rfl, hlen, hmod⟩ := List.exists_of_modify
      (fun existing => { existing with action := update.action, cost := update.cost }) hlt
    have ha : (L₁ ++ a :: L₂)[i] = a := by simp [← hlen]
    rw [ha] at hp
    simp only [Bool.and_eq_true, beq_iff_eq] at hp
    rw [hmod, applyFibUpdates_filter, applyFibUpdates_filter fib name faceId (_ ++ [update])]
    by_cases hk : a.name = name ∧ a.faceId = faceId
    · -- the overwritten update is the only one there, and takes the new action and cost
      obtain ⟨h₁, h₂⟩ := filter_eq_nil_of_oneEach name faceId hL hk
      have hu : update.name = name ∧ update.faceId = faceId :=
        ⟨hp.1.trans hk.1, hp.2.trans hk.2⟩
      simp only [List.filter_append, List.filter_cons, h₁, h₂, hk, hu, and_self, decide_true,
        if_true, List.nil_append, List.filter_nil, List.cons_append]
      simp [applyFibUpdate, hu]
    · have hu : ¬ (update.name = name ∧ update.faceId = faceId) := by
        rwa [hp.1, hp.2]
      simp [List.filter_append, hk, hu]
  · rfl

/-- Merging updates into a list with one update a name and face changes nothing the FIB gets. -/
theorem applyFibUpdates_foldl_addFibUpdateTo (updates : List FibUpdate) {L : List FibUpdate}
    (hL : OneEach L) :
    applyFibUpdates fib (updates.foldl FibUpdater.addFibUpdateTo L) =
      applyFibUpdates fib (L ++ updates) := by
  induction updates generalizing L with
  | nil => simp
  | cons update updates ih =>
    rw [List.foldl_cons, ih (oneEach_addFibUpdateTo hL update), applyFibUpdates_append,
      applyFibUpdates_addFibUpdateTo fib hL, ← applyFibUpdates_append]
    simp

/-- What `FibUpdater` holds once a batch is computed gives the FIB what the computed updates
give, applied in the order computed: merging the updates of a name and face, and sorting the
updates by face, change nothing. -/
theorem applyFibUpdates_computeAndSendFibUpdates (U : FibUpdater) (batch batchFaceId : Nat)
    (updates : List FibUpdate) :
    applyFibUpdates fib
        ((U.computeAndSendFibUpdates batch batchFaceId updates).updatesForBatchFaceId ++
          (U.computeAndSendFibUpdates batch batchFaceId updates).updatesForNonBatchFaceId) =
      applyFibUpdates fib updates := by
  let V : FibUpdater := { U with
    batchFaceId := batchFaceId
    updatesForBatchFaceId := []
    updatesForNonBatchFaceId := [] }
  obtain ⟨-, hB, hN⟩ := FibUpdater.lists_foldl_addFibUpdate updates V
  obtain ⟨-, hsendB, hsendN⟩ :=
    FibUpdater.lists_sendUpdatesForBatchFaceId (updates.foldl FibUpdater.addFibUpdate V) batch
  have hnil : OneEach [] := List.nodup_nil
  rw [show U.computeAndSendFibUpdates batch batchFaceId updates =
      (updates.foldl FibUpdater.addFibUpdate V).sendUpdatesForBatchFaceId batch from rfl,
    hsendB, hsendN, hB, hN, applyFibUpdates_append, applyFibUpdates_foldl_addFibUpdateTo _ _ hnil,
    applyFibUpdates_foldl_addFibUpdateTo _ _ hnil, List.nil_append, List.nil_append,
    ← applyFibUpdates_append]
  dsimp only [V]
  -- at each name and face only the updates of that face count, and they are in one of the lists
  funext name faceId
  rw [applyFibUpdates_filter, applyFibUpdates_filter fib name faceId updates, List.filter_append,
    List.filter_filter, List.filter_filter]
  congr 1
  by_cases hf : faceId = batchFaceId
  · have hoff : updates.filter (fun a => decide (a.name = name ∧ a.faceId = faceId) &&
        decide (a.faceId ≠ batchFaceId)) = [] :=
      List.filter_eq_nil_iff.mpr fun u _ => by grind
    rw [hoff, List.append_nil]
    exact List.filter_congr fun u _ => by grind
  · have hon : updates.filter (fun a => decide (a.name = name ∧ a.faceId = faceId) &&
        decide (a.faceId = batchFaceId)) = [] :=
      List.filter_eq_nil_iff.mpr fun u _ => by grind
    rw [hon, List.nil_append]
    exact List.filter_congr fun u _ => by grind

end Apply

/-! ## Registering a name without flags under a parent -/

namespace FibUpdater

theorem updates_addInheritedRoutesWhere (name : Name) (routes : List Route) (keep : Route → Bool)
    (C : Computed) :
    (addInheritedRoutesWhere name routes keep C).updates =
      C.updates ++ (routes.filter keep).map fun r =>
        FibUpdate.createAddUpdate name r.faceId r.cost r.flags := by
  induction routes generalizing C with
  | nil => simp [addInheritedRoutesWhere]
  | cons r routes ih =>
    unfold addInheritedRoutesWhere at ih ⊢
    rw [List.foldl_cons]
    by_cases hr : keep r
    · rw [if_pos hr, ih, List.filter_cons_of_pos hr]
      simp [Computed.inherit, Computed.addFibUpdate, Computed.addInheritedRoute]
    · rw [if_neg hr, ih, List.filter_cons_of_neg hr]

/-- A new name registered with a route without flags: the route, and every route its ancestors
pass down on another face. -/
theorem computeUpdates_register_new {R : Rib} {name : Name} {route : Route}
    (hnew : R.find name = none) (hflags : route.flags = 0) (batchFaceId : Nat) :
    (computeUpdates R batchFaceId [⟨.register, name, route⟩]).updates =
      FibUpdate.createAddUpdate name route.faceId route.cost route.flags ::
        ((R.getAncestorRoutesOfName name).filter (·.faceId != route.faceId)).map fun r =>
          FibUpdate.createAddUpdate name r.faceId r.cost r.flags := by
  have hci : route.isChildInherit = false := by simp [Route.isChildInherit, hflags]
  have hcap : route.isRibCapture = false := by simp [Route.isRibCapture, hflags]
  simp only [computeUpdates, List.foldl_cons, List.foldl_nil, computeUpdatesForRegistration, hnew,
    createFibUpdatesForNewRibEntry, hci, hcap, Bool.not_false, Bool.and_self, if_true,
    addInheritedRoutesIgnoring, updates_addInheritedRoutesWhere]
  rfl

end FibUpdater

namespace Rib

theorem map_modifyInheritedRoutes {β : Type} {g : RibEntry → β}
    (hg : ∀ e inheritedRoutes, g { e with inheritedRoutes := inheritedRoutes } = g e) (R : Rib)
    (inheritedRoutes : List RibUpdate) :
    (R.modifyInheritedRoutes inheritedRoutes).rib.map g = R.rib.map g := by
  unfold modifyInheritedRoutes
  induction inheritedRoutes generalizing R with
  | nil => rfl
  | cons update updates ih =>
    rw [List.foldl_cons, ih]
    split
    · rfl
    · split
      · exact map_update g fun e => hg e _
      · exact map_update g fun e => hg e _
      · rfl

/-- A new name enters the RIB last, and the links the insertion makes are not seen. -/
theorem map_insert_of_find_eq_none {β : Type} {g : RibEntry → β}
    (hg : ∀ e parent children, g { e with parent := parent, children := children } = g e)
    {R : Rib} {name : Name} (hnew : R.find name = none) (route : Route) :
    (R.insert name route).rib.map g =
      R.rib.map g ++ [g ((RibEntry.mk R.nextId name [] none [] [] 0).insertRoute route).1] := by
  unfold Rib.insert
  rw [hnew]
  dsimp only
  rw [map_adoptChildren hg]
  split
  · rw [map_addChild hg]
    simp
  · simp

/-- The routes `find` gives, read off the names and routes of the entries. -/
theorem routes_find (R : Rib) (n : Name) :
    (R.find n).map (·.routes) =
      ((R.rib.map fun e => (e.name, e.routes)).find? (·.1 == n)).map (·.2) := by
  simp [find, List.find?_map, Option.map_map, Function.comp_def]

/-- The names and routes of a RIB with one more name: `find` sees the others as before, and the
new one with its routes. -/
theorem routes_find_of_map_eq {R R' : Rib} {name : Name} {routes : List Route}
    (h : R'.rib.map (fun e => (e.name, e.routes)) =
      R.rib.map (fun e => (e.name, e.routes)) ++ [(name, routes)]) (n : Name) :
    (R'.find n).map (·.routes) =
      if (R.find n).isNone ∧ n = name then some routes else (R.find n).map (·.routes) := by
  rw [routes_find R', h, List.find?_append, routes_find R]
  cases hR : (R.rib.map fun e => (e.name, e.routes)).find? (·.1 == n) with
  | some x =>
    have hsome : (R.find n).isSome := by
      have := congrArg Option.isSome (routes_find R n)
      simpa [hR] using this
    simp [Option.isSome_iff_ne_none.mp hsome]
  | none =>
    have hnone : R.find n = none := by
      have := routes_find R n
      rw [hR] at this
      simpa using this
    by_cases hn : n = name
    · subst hn
      simp [hnone]
    · simp [hnone, hn, Ne.symm hn]

theorem lowestCost_le_of_mem {routes : List Route} {r : Route} (h : r ∈ routes) :
    ∃ cost ≤ r.cost, lowestCost routes = some cost := by
  have hmem : r.cost ∈ routes.map (·.cost) := List.mem_map.mpr ⟨r, h, rfl⟩
  obtain ⟨cost, hcost⟩ := Option.isSome_iff_exists.mp (List.isSome_min?_of_mem hmem)
  exact ⟨cost, (List.min?_eq_some_iff.mp hcost).2 _ hmem, hcost⟩

/-- The inherited cost reads only the routes of the prefixes it scans. -/
theorem inheritedCost_congr {R R' : Rib} {name : Name} {faceId : Nat} {is : List Nat}
    (h : ∀ i ∈ is,
      (R.find (name.take i)).map (·.routes) = (R'.find (name.take i)).map (·.routes)) :
    R.inheritedCost name faceId is = R'.inheritedCost name faceId is := by
  induction is with
  | nil => rfl
  | cons i is ih =>
    have hi := h i List.mem_cons_self
    have ih := ih fun j hj => h j (List.mem_cons_of_mem i hj)
    unfold inheritedCost
    cases hR : R.find (name.take i) <;> cases hR' : R'.find (name.take i) <;>
      simp only [hR, hR', Option.map_none, Option.map_some, reduceCtorEq,
        Option.some.injEq] at hi
    · exact ih
    · simp only [hi, ih]

/-- The scan for an inherited cost stops at the first prefix with an entry, the one `findParent`
finds, when that entry has a CHILD_INHERIT route on the face. -/
theorem inheritedCost_of_findSome? {R : Rib} {name : Name} {faceId : Nat} {parent : RibEntry}
    {cost : Nat} {is : List Nat}
    (hparent : is.findSome? (fun i => R.find (name.take i)) = some parent)
    (hcost : lowestCost (parent.routes.filter fun r => r.faceId = faceId ∧ r.isChildInherit) =
      some cost) :
    R.inheritedCost name faceId is = some cost := by
  induction is with
  | nil => cases hparent
  | cons i is ih =>
    unfold inheritedCost
    rw [List.findSome?_cons] at hparent
    cases hR : R.find (name.take i) with
    | none =>
      rw [hR] at hparent
      exact ih hparent
    | some a =>
      rw [hR] at hparent
      cases hparent
      dsimp only
      rw [hcost]

/-- A name registered with a route without flags, under a parent that lists on another face a
CHILD_INHERIT route `first` ahead of a cheaper CHILD_INHERIT route: the FIB is given the cost of
`first`, while the RIB it leaves stands for the cheaper cost or less. -/
theorem applyWithFib_inherits_first_route {R : Rib} (hw : R.Wf) {name : Name} {route : Route}
    {parent : RibEntry} {first cheaper : Route}
    (hnew : R.find name = none) (hparent : R.findParent name = some parent)
    (hfirst : parent.routes.find? (fun r => r.faceId = first.faceId ∧ r.isChildInherit) =
      some first)
    (hcheaper : cheaper ∈ parent.routes) (hface : cheaper.faceId = first.faceId)
    (hci : cheaper.isChildInherit = true) (hcost : cheaper.cost < first.cost)
    (hflags : route.flags = 0) (hroute : route.faceId ≠ first.faceId) :
    applyFibUpdates R.refCost (R.applyWithFib ⟨.register, name, route⟩).1 name first.faceId =
        some first.cost ∧
      (R.applyWithFib ⟨.register, name, route⟩).2.refCost name first.faceId ≠
        some first.cost ∧
      ∃ cost ≤ cheaper.cost,
        (R.applyWithFib ⟨.register, name, route⟩).2.refCost name first.faceId = some cost := by
  -- the FIB: of the routes the ancestors pass down, `first` is the one on its face
  have hsorted : RouteSet.Sorted (R.getAncestorRoutesOfName name) :=
    R.sorted_ancestorRoutesFrom _ _ List.Pairwise.nil
  have hone := RouteSet.filter_eq_of_find? hsorted (find?_getAncestorRoutesOfName hw hparent hfirst)
  have hsel : ((R.getAncestorRoutesOfName name).filter (·.faceId != route.faceId)).filter
      (·.faceId = first.faceId) = [first] := by
    rw [List.filter_filter, ← hone]
    refine List.filter_congr fun r _ => ?_
    by_cases h : r.faceId = first.faceId
    · simp [h, Ne.symm hroute]
    · simp [h]
  have hfib : applyFibUpdates R.refCost (R.applyWithFib ⟨.register, name, route⟩).1 name
      first.faceId = some first.cost := by
    simp only [applyWithFib]
    rw [applyFibUpdates_computeAndSendFibUpdates,
      FibUpdater.computeUpdates_register_new hnew hflags,
      applyFibUpdates_filter, List.filter_cons_of_neg (by simp [FibUpdate.createAddUpdate, hroute]),
      List.filter_map]
    simp [Function.comp_def, FibUpdate.createAddUpdate, hsel, applyFibUpdate]
  -- the RIB: the new entry has its one route, and every prefix its routes as before
  have hmap :
      (R.applyWithFib ⟨.register, name, route⟩).2.rib.map (fun e => (e.name, e.routes)) =
      R.rib.map (fun e => (e.name, e.routes)) ++ [(name, [route])] := by
    simp only [applyWithFib, onFibUpdateSuccess, List.foldl_cons, List.foldl_nil]
    rw [map_modifyInheritedRoutes (fun _ _ => rfl),
      map_insert_of_find_eq_none (fun _ _ _ => rfl) hnew]
    rfl
  obtain ⟨entry, hentry, hroutes⟩ : ∃ entry,
      (R.applyWithFib ⟨.register, name, route⟩).2.find name = some entry ∧
        entry.routes = [route] := by
    have hown := routes_find_of_map_eq hmap name
    rw [hnew] at hown
    simp only [Option.isNone_none, and_self, if_true] at hown
    obtain ⟨entry, hentry, hroutes⟩ := Option.map_eq_some_iff.mp hown
    exact ⟨entry, hentry, hroutes⟩
  have hprefix : ∀ i ∈ (List.range name.length).reverse,
      (R.find (name.take i)).map (·.routes) =
        ((R.applyWithFib ⟨.register, name, route⟩).2.find (name.take i)).map (·.routes) := by
    intro i hi
    rw [routes_find_of_map_eq hmap]
    have hne : name.take i ≠ name := fun h => by
      have := congrArg List.length h
      simp only [List.mem_reverse, List.mem_range] at hi
      simp only [List.length_take] at this
      omega
    simp [hne]
  obtain ⟨cost, hle, hc⟩ := lowestCost_le_of_mem
    (List.mem_filter.mpr ⟨hcheaper, by simp [hface, hci]⟩ :
      cheaper ∈ parent.routes.filter fun r => r.faceId = first.faceId ∧ r.isChildInherit)
  have hinherited :=
    (inheritedCost_congr hprefix).symm.trans (inheritedCost_of_findSome? hparent hc)
  have href :
      (R.applyWithFib ⟨.register, name, route⟩).2.refCost name first.faceId = some cost := by
    have hcap : route.isRibCapture = false := by simp [Route.isRibCapture, hflags]
    unfold refCost
    rw [hentry]
    simp [hroutes, hroute, lowestCost, hcap, hinherited]
  refine ⟨hfib, ?_, cost, hle, href⟩
  rw [href]
  intro h
  have := Option.some.inj h
  omega

/-- From the empty RIB, `/a` is registered on face 1 with CHILD_INHERIT at cost 10 from origin 0,
then at cost 5 from origin 255; then `/a/b` on face 2 without flags: the FIB gets `/a/b` on
face 1 at cost 10, where the RIB stands for cost 5. -/
theorem applyWithFib_inherits_first_route_ab :
    applyFibUpdates
        ((Rib.empty.applyWithFib
            ⟨.register, [Component.generic [0x61]], ⟨1, 0, 10, 1⟩⟩).2.applyWithFib
          ⟨.register, [Component.generic [0x61]], ⟨1, 255, 5, 1⟩⟩).2.refCost
        (((Rib.empty.applyWithFib
            ⟨.register, [Component.generic [0x61]], ⟨1, 0, 10, 1⟩⟩).2.applyWithFib
          ⟨.register, [Component.generic [0x61]], ⟨1, 255, 5, 1⟩⟩).2.applyWithFib
          ⟨.register, [Component.generic [0x61], Component.generic [0x62]], ⟨2, 0, 1, 0⟩⟩).1
        [Component.generic [0x61], Component.generic [0x62]] 1 = some 10 ∧
      (((Rib.empty.applyWithFib
            ⟨.register, [Component.generic [0x61]], ⟨1, 0, 10, 1⟩⟩).2.applyWithFib
          ⟨.register, [Component.generic [0x61]], ⟨1, 255, 5, 1⟩⟩).2.applyWithFib
          ⟨.register, [Component.generic [0x61], Component.generic [0x62]],
            ⟨2, 0, 1, 0⟩⟩).2.refCost
        [Component.generic [0x61], Component.generic [0x62]] 1 ≠ some 10 ∧
      ∃ cost ≤ 5,
        (((Rib.empty.applyWithFib
            ⟨.register, [Component.generic [0x61]], ⟨1, 0, 10, 1⟩⟩).2.applyWithFib
          ⟨.register, [Component.generic [0x61]], ⟨1, 255, 5, 1⟩⟩).2.applyWithFib
          ⟨.register, [Component.generic [0x61], Component.generic [0x62]],
            ⟨2, 0, 1, 0⟩⟩).2.refCost
        [Component.generic [0x61], Component.generic [0x62]] 1 = some cost :=
  @applyWithFib_inherits_first_route
    ((Rib.empty.applyWithFib
        ⟨.register, [Component.generic [0x61]], ⟨1, 0, 10, 1⟩⟩).2.applyWithFib
      ⟨.register, [Component.generic [0x61]], ⟨1, 255, 5, 1⟩⟩).2
    ⟨by decide, by decide, by decide⟩ [Component.generic [0x61], Component.generic [0x62]]
    ⟨2, 0, 1, 0⟩
    ⟨0, [Component.generic [0x61]], [], none, [⟨1, 0, 10, 1⟩, ⟨1, 255, 5, 1⟩], [], 0⟩
    ⟨1, 0, 10, 1⟩ ⟨1, 255, 5, 1⟩ (by decide) (by decide) (by decide) (by decide) rfl rfl
    (by decide) rfl (by decide)

end Rib

end MwNfd
