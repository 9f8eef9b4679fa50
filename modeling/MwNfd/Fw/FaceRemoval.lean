import MwNfd.Worker.Fib

/-!
# Face removal while the workers forward (`face-table.cpp`, `forwarder.cpp`, `mw-nfd-worker.cpp`)

`FaceTable::remove(f)` runs on the main thread. The main forwarder's `beforeRemove` handler
broadcasts `MW_NFDC_VERB_DESTROYED` with `emitMwNfdcCommand`, to one worker after another, each
answering before the next is sent. A worker that still finds `f` in `g_faceTable` runs
`cleanupOnFaceRemoval` on its FIB and PIT, and every worker erases its link service for `f`.
Only then is `f` erased from `g_faceTable`; a second `DESTROYED` broadcast follows, which finds
no face and cleans nothing. The workers go on draining their queues all along. `g_faceTable`
is shared: each worker's `Forwarder` is built on it, so a strategy that walks the face table
sees `f` until the erase.

The model keeps the ids of the face table, and for each worker the nexthops of its FIB, the
in- and out-records of its PIT entries and the faces it has a link service for. An event is a
worker handling `DESTROYED`, the erase, or a worker handling a packet from its queues.

* `faceStep_mem_faces`: a step makes a worker name only faces it named before or faces of the
  table; so every event but the erase keeps the workers' tables clean (`faceStep_clean`).
* `faceRun_freeOf`: with strategies that forward only to FIB nexthops, a worker that names no
  `f` and has no link service for it never names `f` again.
* `faceRun_destroyedBroadcast`: the effect of one whole broadcast.
-/

namespace MwNfd

/-- A PIT entry: its name, and the faces of its in-records and of its out-records. -/
structure PitEntry where
  name : Name
  inRecords : List Nat
  outRecords : List Nat
  deriving DecidableEq

/-- The faces a PIT entry's records name. -/
def PitEntry.faces (e : PitEntry) : List Nat := e.inRecords ++ e.outRecords

/-- `Pit::deleteInOutRecords`: the entry's in-record and out-record on `f` are deleted. -/
def PitEntry.deleteInOutRecords (e : PitEntry) (f : Nat) : PitEntry :=
  { e with inRecords := e.inRecords.filter (· ≠ f),
           outRecords := e.outRecords.filter (· ≠ f) }

/-- `Pit::insert` and the records the Interest pipeline adds: the entry of `name`, a new one if
there is none, gets an in-record on `inFace` (`insertOrUpdateInRecord`) and an out-record on
each face of `outFaces` (`insertOrUpdateOutRecord`). -/
def pitInsert (pit : List PitEntry) (name : Name) (inFace : Nat) (outFaces : List Nat) :
    List PitEntry :=
  let e := (pit.find? (·.name = name)).getD ⟨name, [], []⟩
  { e with inRecords := e.inRecords.insert inFace, outRecords := e.outRecords ∪ outFaces } ::
    pit.filter (·.name ≠ name)

/-- A worker's tables as far as they name faces: its FIB's nexthops as (prefix, face), its PIT,
and the faces of `m_genericLinkServiceList`. -/
structure WorkerTables where
  fib : List (Name × Nat)
  pit : List PitEntry
  linkServices : List Nat
  deriving DecidableEq

/-- The faces a worker's FIB and PIT name. -/
def WorkerTables.faces (t : WorkerTables) : List Nat :=
  t.fib.map Prod.snd ++ t.pit.flatMap PitEntry.faces

/-- The nexthops of the entry `Fib::findLongestPrefixMatch` finds for `name`; `s_emptyEntry`
has none. A FIB entry whose last nexthop is removed is erased, so every prefix here has one. -/
def fibNextHops (fib : List (Name × Nat)) (name : Name) : List Nat :=
  match Fib.findLongestPrefixMatch (fib.map Prod.fst) name with
  | none => []
  | some p => (fib.filter (·.1 = p)).map Prod.snd

/-- How a strategy picks the faces of a new Interest. -/
inductive StrategyKind where
  /-- `BestRouteStrategy2`: the first eligible nexthop. -/
  | bestRoute
  /-- `MulticastStrategy`: every eligible nexthop. -/
  | multicast
  /-- `SelfLearningStrategy`: every eligible nexthop, and when the FIB entry has none, every
  non-local face of the face table (`broadcastInterest`). -/
  | selfLearning
  deriving DecidableEq

/-- The faces `afterReceiveInterest` sends an Interest from `inFace` to. Of the eligibility
tests only the incoming face and, in the broadcast, the local scope are kept; the others
(scope violations, hop limit, pending out-records) only leave faces out. -/
def afterReceiveInterest (isLocal : Nat → Bool) (faces nexthops : List Nat) (inFace : Nat) :
    StrategyKind → List Nat
  | .bestRoute => (nexthops.filter (· ≠ inFace)).take 1
  | .multicast => nexthops.filter (· ≠ inFace)
  | .selfLearning =>
    if nexthops = [] then faces.reverse.filter fun x => x ≠ inFace ∧ isLocal x = false
    else nexthops.filter (· ≠ inFace)

/-- What the workers' forwarding reads and never changes: the scope of each face, and the
strategy each name is forwarded by. -/
structure ForwardingEnv where
  isLocal : Nat → Bool
  strategyOf : Name → StrategyKind

/-- Strategies that send only to FIB nexthops: no name is forwarded by self-learning. -/
def ForwardingEnv.FibConfined (env : ForwardingEnv) : Prop :=
  ∀ name, env.strategyOf name ≠ .selfLearning

/-- A packet a worker takes from its queues. -/
inductive NetPacket where
  | interest (name : Name)
  | data (name : Name)
  deriving DecidableEq

/-- `cleanupOnFaceRemoval`: the face's nexthops leave the FIB (`Fib::removeNextHop`) and its
records leave every PIT entry. -/
def WorkerTables.cleanupOnFaceRemoval (t : WorkerTables) (f : Nat) : WorkerTables :=
  { t with fib := t.fib.filter (·.2 ≠ f), pit := t.pit.map (·.deleteInOutRecords f) }

/-- `processNfdcCommand` on `MW_NFDC_MGR_FACE`/`MW_NFDC_VERB_DESTROYED`: the cleanup runs only
when `m_faceTable->get(faceId)` still finds the face; the link service is erased in any case. -/
def WorkerTables.faceDestroyed (faces : List Nat) (t : WorkerTables) (f : Nat) : WorkerTables :=
  let t := if f ∈ faces then t.cleanupOnFaceRemoval f else t
  { t with linkServices := t.linkServices.filter (· ≠ f) }

/-- The link service's `receivePacket` and the forwarder's pipelines on a packet from `face`.
An Interest gets the PIT entry of its name an in-record on the face and out-records on the faces
the strategy picks. A Data satisfies the PIT entry of its name, which leaves the PIT with its
records. -/
def WorkerTables.receivePacket (env : ForwardingEnv) (faces : List Nat) (t : WorkerTables)
    (face : Nat) : NetPacket → WorkerTables
  | .interest name =>
    let out := afterReceiveInterest env.isLocal faces (fibNextHops t.fib name) face
      (env.strategyOf name)
    { t with pit := pitInsert t.pit name face out }
  | .data name => { t with pit := t.pit.filter (·.name ≠ name) }

/-- `MwNfd::decodeNetPacketFromMq`: a packet from a face that `g_faceTable` no longer has, or
that the worker has no link service for, is dropped. -/
def WorkerTables.decodeNetPacketFromMq (env : ForwardingEnv) (faces : List Nat)
    (t : WorkerTables) (face : Nat) (pkt : NetPacket) : WorkerTables :=
  if face ∈ faces ∧ face ∈ t.linkServices then t.receivePacket env faces face pkt else t

/-- The ids of `g_faceTable`, and each worker's tables. -/
structure FaceState where
  faces : List Nat
  workers : Nat → WorkerTables

def FaceState.updateWorker (s : FaceState) (w : Nat) (t : WorkerTables) : FaceState :=
  { s with workers := Function.update s.workers w t }

/-- What happens to the faces: worker `w` handles `DESTROYED` for `f`, the main thread erases `f`
from the face table, or worker `w` takes a packet that arrived on `face` from its queues. -/
inductive FaceEvent where
  | destroyed (w f : Nat)
  | erase (f : Nat)
  | packet (w face : Nat) (pkt : NetPacket)
  deriving DecidableEq

/-- The main thread's events; the packets are the workers' own. -/
def FaceEvent.isMain : FaceEvent → Bool
  | .packet .. => false
  | _ => true

def faceStep (env : ForwardingEnv) (s : FaceState) : FaceEvent → FaceState
  | .destroyed w f => s.updateWorker w ((s.workers w).faceDestroyed s.faces f)
  | .erase f => { s with faces := s.faces.filter (· ≠ f) }
  | .packet w face pkt =>
    s.updateWorker w ((s.workers w).decodeNetPacketFromMq env s.faces face pkt)

def faceRun (env : ForwardingEnv) (s : FaceState) (es : List FaceEvent) : FaceState :=
  es.foldl (faceStep env) s

/-- One `DESTROYED` broadcast of `emitMwNfdcCommand` to the `n` workers, in order. -/
def destroyedBroadcast (n f : Nat) : List FaceEvent :=
  (List.range n).map (FaceEvent.destroyed · f)

/-- Every face that a worker `w < n` names in its FIB or PIT is in the face table. -/
def Clean (n : Nat) (s : FaceState) : Prop :=
  ∀ w < n, ∀ x ∈ (s.workers w).faces, x ∈ s.faces

instance (n : Nat) (s : FaceState) : Decidable (Clean n s) :=
  inferInstanceAs (Decidable (∀ w < n, ∀ x ∈ (s.workers w).faces, x ∈ s.faces))

/-- Worker tables that know nothing of `f`: no link service for it, no nexthop or record on it. -/
def FreeOf (f : Nat) (t : WorkerTables) : Prop :=
  f ∉ t.linkServices ∧ f ∉ t.faces

/-! ## The tables of one worker -/

theorem mem_fibNextHops {fib : List (Name × Nat)} {name : Name} {x : Nat}
    (hx : x ∈ fibNextHops fib name) : x ∈ fib.map Prod.snd := by
  unfold fibNextHops at hx
  split at hx
  · simp at hx
  · obtain ⟨q, hq, rfl⟩ := List.mem_map.mp hx
    exact List.mem_map_of_mem (List.mem_filter.mp hq).1

/-- A name with no nexthop in a FIB has none once nexthops are removed from it. -/
theorem fibNextHops_filter_eq_nil {fib : List (Name × Nat)} {name : Name}
    (q : Name × Nat → Bool) (h : fibNextHops fib name = []) :
    fibNextHops (fib.filter q) name = [] := by
  -- the search found no prefix: the prefix it found would have a nexthop
  have hnone : Fib.findLongestPrefixMatch (fib.map Prod.fst) name = none := by
    cases hm : Fib.findLongestPrefixMatch (fib.map Prod.fst) name with
    | none => rfl
    | some p =>
      have hsel := PrefixMatch.sel_of_longestPrefixMatch_eq_some hm
      obtain ⟨⟨p', x⟩, hpx, rfl⟩ := List.mem_map.mp (of_decide_eq_true hsel)
      have hx : x ∈ fibNextHops fib name := by
        rw [fibNextHops, hm]
        exact List.mem_map.mpr ⟨(p', x), List.mem_filter.mpr ⟨hpx, by simp⟩, rfl⟩
      rw [h] at hx
      cases hx
  have hnone' : Fib.findLongestPrefixMatch ((fib.filter q).map Prod.fst) name = none := by
    apply PrefixMatch.longestPrefixMatch_eq_none_of_imp _ hnone
    intro p hp
    obtain ⟨y, hy, rfl⟩ := List.mem_map.mp (of_decide_eq_true hp)
    exact decide_eq_true (List.mem_map_of_mem (List.mem_filter.mp hy).1)
  rw [fibNextHops, hnone']

/-- A strategy sends to nexthops, and only self-learning to other faces of the table. -/
theorem mem_afterReceiveInterest {isLocal : Nat → Bool} {faces nexthops : List Nat}
    {inFace x : Nat} {k : StrategyKind}
    (hx : x ∈ afterReceiveInterest isLocal faces nexthops inFace k) :
    x ∈ nexthops ∨ (k = .selfLearning ∧ x ∈ faces) := by
  cases k with
  | bestRoute => exact .inl (List.mem_filter.mp (List.mem_of_mem_take hx)).1
  | multicast => exact .inl (List.mem_filter.mp hx).1
  | selfLearning =>
    unfold afterReceiveInterest at hx
    split_ifs at hx
    · exact .inr ⟨rfl, List.mem_reverse.mp (List.mem_filter.mp hx).1⟩
    · exact .inl (List.mem_filter.mp hx).1

/-- Self-learning without a nexthop sends to every non-local face of the table but the
incoming one. -/
theorem mem_afterReceiveInterest_selfLearning {isLocal : Nat → Bool} {faces : List Nat}
    {inFace x : Nat} (hx : x ∈ faces) (hne : x ≠ inFace) (hl : isLocal x = false) :
    x ∈ afterReceiveInterest isLocal faces [] inFace .selfLearning := by
  simp [afterReceiveInterest, hx, hne, hl]

theorem PitEntry.mem_faces_deleteInOutRecords {e : PitEntry} {f x : Nat} :
    x ∈ (e.deleteInOutRecords f).faces ↔ x ∈ e.faces ∧ x ≠ f := by
  simp only [PitEntry.deleteInOutRecords, PitEntry.faces, List.mem_append, List.mem_filter,
    decide_eq_true_eq]
  tauto

/-- The entry `pitInsert` updates names the faces it named before, the incoming face and the
faces the Interest is sent to; the other entries are kept as they are. -/
theorem mem_faces_pitInsert {pit : List PitEntry} {name : Name} {inFace x : Nat}
    {out : List Nat} (hx : x ∈ (pitInsert pit name inFace out).flatMap PitEntry.faces) :
    x ∈ pit.flatMap PitEntry.faces ∨ x = inFace ∨ x ∈ out := by
  -- the entry updated is one of the PIT's, or a new one without records
  have hold : ∀ y ∈ ((pit.find? (·.name = name)).getD ⟨name, [], []⟩).faces,
      y ∈ pit.flatMap PitEntry.faces := by
    intro y hy
    cases hf : pit.find? (·.name = name) with
    | none => simp [hf, PitEntry.faces] at hy
    | some e =>
      rw [hf, Option.getD_some] at hy
      exact List.mem_flatMap.mpr ⟨e, List.mem_of_find?_eq_some hf, hy⟩
  simp only [pitInsert, List.flatMap_cons, List.mem_append] at hx
  rcases hx with hhead | htail
  · simp only [PitEntry.faces, List.mem_append, List.mem_insert_iff, List.mem_union_iff] at hhead
    rcases hhead with (rfl | hin) | (hout | hout)
    · exact .inr (.inl rfl)
    · exact .inl (hold x (List.mem_append_left _ hin))
    · exact .inl (hold x (List.mem_append_right _ hout))
    · exact .inr (.inr hout)
  · obtain ⟨e, he, hxe⟩ := List.mem_flatMap.mp htail
    exact .inl (List.mem_flatMap.mpr ⟨e, (List.mem_filter.mp he).1, hxe⟩)

/-- After `pitInsert` the entry of the name has an out-record on each face the Interest is
sent to. -/
theorem exists_outRecords_pitInsert (pit : List PitEntry) (name : Name) (inFace : Nat)
    (out : List Nat) :
    ∃ e ∈ pitInsert pit name inFace out,
      e.name = name ∧ ∀ x ∈ out, x ∈ e.outRecords := by
  simp only [pitInsert]
  refine ⟨_, List.mem_cons_self, ?_, fun x hx => List.mem_union_iff.mpr (.inr hx)⟩
  -- the entry found has the name, and a new one is made with it
  cases hf : pit.find? (·.name = name) with
  | none => rfl
  | some e => simpa using List.find?_some hf

theorem WorkerTables.mem_faces_cleanupOnFaceRemoval {t : WorkerTables} {f x : Nat}
    (hx : x ∈ (t.cleanupOnFaceRemoval f).faces) : x ∈ t.faces ∧ x ≠ f := by
  unfold WorkerTables.faces WorkerTables.cleanupOnFaceRemoval at hx
  rw [List.mem_append] at hx
  rcases hx with hfib | hpit
  · obtain ⟨⟨p, y⟩, hy, rfl⟩ := List.mem_map.mp hfib
    obtain ⟨hy, hne⟩ := List.mem_filter.mp hy
    exact ⟨List.mem_append_left _ (List.mem_map_of_mem hy), of_decide_eq_true hne⟩
  · obtain ⟨e, he, hxe⟩ := List.mem_flatMap.mp hpit
    obtain ⟨e₀, he₀, rfl⟩ := List.mem_map.mp he
    obtain ⟨hx₀, hne⟩ := PitEntry.mem_faces_deleteInOutRecords.mp hxe
    exact ⟨List.mem_append_right _ (List.mem_flatMap.mpr ⟨e₀, he₀, hx₀⟩), hne⟩

theorem WorkerTables.linkServices_faceDestroyed (faces : List Nat) (t : WorkerTables) (f : Nat) :
    (t.faceDestroyed faces f).linkServices = t.linkServices.filter (· ≠ f) := by
  unfold WorkerTables.faceDestroyed
  split_ifs <;> rfl

theorem WorkerTables.fib_faceDestroyed_of_mem {faces : List Nat} {f : Nat} (hf : f ∈ faces)
    (t : WorkerTables) : (t.faceDestroyed faces f).fib = t.fib.filter (·.2 ≠ f) := by
  simp [WorkerTables.faceDestroyed, hf, WorkerTables.cleanupOnFaceRemoval]

/-- The second broadcast, once the face is gone, leaves the PIT as it is. -/
theorem WorkerTables.pit_faceDestroyed_of_not_mem {faces : List Nat} {f : Nat} (hf : f ∉ faces)
    (t : WorkerTables) : (t.faceDestroyed faces f).pit = t.pit := by
  simp [WorkerTables.faceDestroyed, hf]

theorem WorkerTables.mem_faces_faceDestroyed {faces : List Nat} {t : WorkerTables} {f x : Nat}
    (hx : x ∈ (t.faceDestroyed faces f).faces) : x ∈ t.faces := by
  unfold WorkerTables.faceDestroyed at hx
  split_ifs at hx
  · exact (mem_faces_cleanupOnFaceRemoval hx).1
  · exact hx

/-- A worker that handles `DESTROYED` while the face is in the table forgets it. -/
theorem freeOf_faceDestroyed {faces : List Nat} {f : Nat} (hf : f ∈ faces) (t : WorkerTables) :
    FreeOf f (t.faceDestroyed faces f) := by
  refine ⟨?_, fun hx => ?_⟩
  · rw [WorkerTables.linkServices_faceDestroyed]
    simp
  · unfold WorkerTables.faceDestroyed at hx
    rw [if_pos hf] at hx
    exact (WorkerTables.mem_faces_cleanupOnFaceRemoval hx).2 rfl

theorem FreeOf.faceDestroyed {faces : List Nat} {t : WorkerTables} {f : Nat} (h : FreeOf f t)
    (g : Nat) : FreeOf f (t.faceDestroyed faces g) := by
  refine ⟨fun hl => ?_, fun hx => h.2 (WorkerTables.mem_faces_faceDestroyed hx)⟩
  rw [WorkerTables.linkServices_faceDestroyed] at hl
  exact h.1 (List.mem_filter.mp hl).1

@[simp] theorem WorkerTables.linkServices_decodeNetPacketFromMq (env : ForwardingEnv)
    (faces : List Nat) (t : WorkerTables) (face : Nat) (pkt : NetPacket) :
    (t.decodeNetPacketFromMq env faces face pkt).linkServices = t.linkServices := by
  unfold WorkerTables.decodeNetPacketFromMq
  split_ifs
  · cases pkt <;> rfl
  · rfl

theorem WorkerTables.pit_decodeNetPacketFromMq_interest {env : ForwardingEnv} {faces : List Nat}
    {t : WorkerTables} {face : Nat} (hface : face ∈ faces) (hls : face ∈ t.linkServices)
    (name : Name) :
    (t.decodeNetPacketFromMq env faces face (.interest name)).pit =
      pitInsert t.pit name face
        (afterReceiveInterest env.isLocal faces (fibNextHops t.fib name) face
          (env.strategyOf name)) := by
  rw [WorkerTables.decodeNetPacketFromMq, if_pos ⟨hface, hls⟩]
  rfl

/-- What a packet makes a worker name: the faces it named before, and faces of the table,
namely the packet's face when the worker has its link service, or the faces self-learning
broadcasts an Interest to. -/
theorem WorkerTables.mem_faces_decodeNetPacketFromMq {env : ForwardingEnv} {faces : List Nat}
    {t : WorkerTables} {face x : Nat} {pkt : NetPacket}
    (hx : x ∈ (t.decodeNetPacketFromMq env faces face pkt).faces) :
    x ∈ t.faces ∨ x ∈ faces ∧
      (x ∈ t.linkServices ∨
        ∃ name, pkt = .interest name ∧ env.strategyOf name = .selfLearning) := by
  unfold WorkerTables.decodeNetPacketFromMq at hx
  split_ifs at hx with hgate
  · cases pkt with
    | interest name =>
      simp only [WorkerTables.receivePacket, WorkerTables.faces, List.mem_append] at hx
      rcases hx with hfib | hpit
      · exact .inl (List.mem_append_left _ hfib)
      · rcases mem_faces_pitInsert hpit with h | rfl | hout
        · exact .inl (List.mem_append_right _ h)
        · exact .inr ⟨hgate.1, .inl hgate.2⟩
        · -- a face the strategy picks: a nexthop, or a face of the table under self-learning
          rcases mem_afterReceiveInterest hout with hnh | ⟨hsl, hmem⟩
          · exact .inl (List.mem_append_left _ (mem_fibNextHops hnh))
          · exact .inr ⟨hmem, .inr ⟨name, rfl, hsl⟩⟩
    | data name =>
      simp only [WorkerTables.receivePacket, WorkerTables.faces, List.mem_append] at hx
      rcases hx with hfib | hpit
      · exact .inl (List.mem_append_left _ hfib)
      · obtain ⟨e, he, hxe⟩ := List.mem_flatMap.mp hpit
        exact .inl (List.mem_append_right _
          (List.mem_flatMap.mpr ⟨e, (List.mem_filter.mp he).1, hxe⟩))
  · exact .inl hx

/-- With strategies that forward only to FIB nexthops, a packet does not make a worker name a
face it knows nothing of. -/
theorem FreeOf.decodeNetPacketFromMq {env : ForwardingEnv} (hconf : env.FibConfined)
    {faces : List Nat} {t : WorkerTables} {f : Nat} (h : FreeOf f t) (face : Nat)
    (pkt : NetPacket) : FreeOf f (t.decodeNetPacketFromMq env faces face pkt) := by
  refine ⟨by simpa using h.1, fun hx => ?_⟩
  rcases WorkerTables.mem_faces_decodeNetPacketFromMq hx with
    hold | ⟨-, hls | ⟨name, -, hsl⟩⟩
  · exact h.2 hold
  · exact h.1 hls
  · exact hconf name hsl

/-! ## Steps and runs -/

section Steps

variable {env : ForwardingEnv} {s : FaceState}

@[simp] theorem FaceState.updateWorker_faces (w : Nat) (t : WorkerTables) :
    (s.updateWorker w t).faces = s.faces := rfl

theorem FaceState.updateWorker_workers (w : Nat) (t : WorkerTables) (w' : Nat) :
    (s.updateWorker w t).workers w' = if w' = w then t else s.workers w' :=
  Function.update_apply s.workers w t w'

theorem faceRun_cons (e : FaceEvent) (es : List FaceEvent) :
    faceRun env s (e :: es) = faceRun env (faceStep env s e) es := rfl

theorem faceRun_append (es es' : List FaceEvent) :
    faceRun env s (es ++ es') = faceRun env (faceRun env s es) es' :=
  List.foldl_append

theorem faceStep_faces {e : FaceEvent} (he : ∀ f, e ≠ .erase f) :
    (faceStep env s e).faces = s.faces := by
  cases e with
  | destroyed w f => rfl
  | erase f => exact absurd rfl (he f)
  | packet w face pkt => rfl

/-- After a step, a worker names only faces it named before or faces of the table. -/
theorem faceStep_mem_faces {e : FaceEvent} {w x : Nat}
    (hx : x ∈ ((faceStep env s e).workers w).faces) :
    x ∈ (s.workers w).faces ∨ x ∈ s.faces := by
  cases e with
  | destroyed w' f =>
    rw [faceStep, FaceState.updateWorker_workers] at hx
    split_ifs at hx with hw
    · subst hw
      exact .inl (WorkerTables.mem_faces_faceDestroyed hx)
    · exact .inl hx
  | erase f => exact .inl hx
  | packet w' face pkt =>
    rw [faceStep, FaceState.updateWorker_workers] at hx
    split_ifs at hx with hw
    · subst hw
      rcases WorkerTables.mem_faces_decodeNetPacketFromMq hx with h | ⟨h, -⟩
      · exact .inl h
      · exact .inr h
    · exact .inl hx

theorem faceStep_clean {n : Nat} {e : FaceEvent} (hc : Clean n s) (he : ∀ f, e ≠ .erase f) :
    Clean n (faceStep env s e) := by
  intro w hw x hx
  rw [faceStep_faces he]
  rcases faceStep_mem_faces hx with h | h
  · exact hc w hw x h
  · exact h

/-- The erase keeps the tables clean when no worker names the face any more. -/
theorem faceStep_erase_clean {n f : Nat} (hc : Clean n s)
    (hfree : ∀ w < n, f ∉ (s.workers w).faces) : Clean n (faceStep env s (.erase f)) := by
  intro w hw x hx
  -- the erase changes no worker
  have hx' : x ∈ (s.workers w).faces := hx
  refine List.mem_filter.mpr ⟨hc w hw x hx', decide_eq_true ?_⟩
  rintro rfl
  exact hfree w hw hx'

theorem faceStep_freeOf (hconf : env.FibConfined) {f w : Nat} (h : FreeOf f (s.workers w))
    (e : FaceEvent) : FreeOf f ((faceStep env s e).workers w) := by
  cases e with
  | destroyed w' g =>
    rw [faceStep, FaceState.updateWorker_workers]
    split_ifs with hw
    · subst hw
      exact h.faceDestroyed g
    · exact h
  | erase g => exact h
  | packet w' face pkt =>
    rw [faceStep, FaceState.updateWorker_workers]
    split_ifs with hw
    · subst hw
      exact h.decodeNetPacketFromMq hconf face pkt
    · exact h

theorem faceStep_destroyed_freeOf {f : Nat} (hf : f ∈ s.faces) (w : Nat) :
    FreeOf f ((faceStep env s (.destroyed w f)).workers w) := by
  rw [faceStep, FaceState.updateWorker_workers, if_pos rfl]
  exact freeOf_faceDestroyed hf _

/-- A run without an erase keeps the tables clean. The induction is on the events, with
`faceStep_clean` for each. -/
theorem faceRun_clean {n : Nat} {es : List FaceEvent} (hc : Clean n s)
    (hes : ∀ e ∈ es, ∀ f, e ≠ .erase f) : Clean n (faceRun env s es) := by
  induction es generalizing s with
  | nil => exact hc
  | cons e es ih =>
    exact ih (faceStep_clean hc (hes e List.mem_cons_self))
      fun e' he' => hes e' (List.mem_cons_of_mem _ he')

/-- With strategies that forward only to FIB nexthops, a worker that knows nothing of `f` never
learns of it again, whatever the run. -/
theorem faceRun_freeOf (hconf : env.FibConfined) {f w : Nat} (h : FreeOf f (s.workers w))
    (es : List FaceEvent) : FreeOf f ((faceRun env s es).workers w) := by
  induction es generalizing s with
  | nil => exact h
  | cons e es ih => exact ih (faceStep_freeOf hconf h e)

/-- A worker that handles `DESTROYED` for `f` while `f` is in the table knows nothing of `f`
from then on. -/
theorem faceRun_freeOf_of_destroyed (hconf : env.FibConfined) {f w : Nat} (hf : f ∈ s.faces)
    {es : List FaceEvent} (hes : ∀ e ∈ es, ∀ g, e ≠ .erase g) (hd : .destroyed w f ∈ es) :
    FreeOf f ((faceRun env s es).workers w) := by
  induction es generalizing s with
  | nil => cases hd
  | cons e es ih =>
    rw [faceRun_cons]
    rcases List.mem_cons.mp hd with rfl | hd
    · exact faceRun_freeOf hconf (faceStep_destroyed_freeOf hf w) es
    · have hf' : f ∈ (faceStep env s e).faces := by
        rw [faceStep_faces (hes e List.mem_cons_self)]
        exact hf
      exact ih hf' (fun e' he' => hes e' (List.mem_cons_of_mem _ he')) hd

theorem destroyedBroadcast_succ (n f : Nat) :
    destroyedBroadcast (n + 1) f = destroyedBroadcast n f ++ [.destroyed n f] := by
  simp [destroyedBroadcast, List.range_succ]

theorem mem_destroyedBroadcast {n f : Nat} {e : FaceEvent} :
    e ∈ destroyedBroadcast n f ↔ ∃ w < n, e = .destroyed w f := by
  simp [destroyedBroadcast, eq_comm]

@[simp] theorem filter_isMain_destroyedBroadcast (n f : Nat) :
    (destroyedBroadcast n f).filter FaceEvent.isMain = destroyedBroadcast n f :=
  List.filter_eq_self.mpr fun e he => by
    obtain ⟨w, -, rfl⟩ := mem_destroyedBroadcast.mp he
    rfl

/-- A run whose main-thread events are `DESTROYED` broadcasts has no erase. -/
theorem ne_erase_of_filter_isMain {es : List FaceEvent} {n f : Nat}
    (h : ∀ e ∈ es.filter FaceEvent.isMain, e ∈ destroyedBroadcast n f) :
    ∀ e ∈ es, ∀ g, e ≠ .erase g := by
  rintro e he g rfl
  obtain ⟨w, -, hw⟩ := mem_destroyedBroadcast.mp (h _ (List.mem_filter.mpr ⟨he, rfl⟩))
  cases hw

/-- One whole broadcast: each of the `n` workers has handled `DESTROYED` on the same table. -/
theorem faceRun_destroyedBroadcast (s : FaceState) (n f : Nat) :
    (faceRun env s (destroyedBroadcast n f)).faces = s.faces ∧
      ∀ w, (faceRun env s (destroyedBroadcast n f)).workers w =
        if w < n then (s.workers w).faceDestroyed s.faces f else s.workers w := by
  induction n with
  | zero => exact ⟨rfl, fun w => by simp [destroyedBroadcast, faceRun]⟩
  | succ n ih =>
    obtain ⟨hfaces, hworkers⟩ := ih
    rw [destroyedBroadcast_succ, faceRun_append]
    refine ⟨hfaces, fun w => ?_⟩
    rw [faceRun_cons, faceRun, List.foldl_nil, faceStep, FaceState.updateWorker_workers,
      hfaces, hworkers n, if_neg (Nat.lt_irrefl n)]
    by_cases hw : w = n
    · subst hw
      simp
    · rw [if_neg hw, hworkers w]
      have hlt : w < n ↔ w < n + 1 := by omega
      simp only [hlt]

end Steps

/-! ## `FaceTable::remove` -/

section Remove

variable {env : ForwardingEnv}

/-- With strategies that forward only to FIB nexthops, `FaceTable::remove(f)` leaves no worker
with a reference to `f`. Whatever the workers take from their queues meanwhile, at every point
after the erase the workers' tables are clean and none of them knows `f`. `pre` is the run up to
the erase, the first broadcast among its events; `post` is the run after it, up to any point of
the second broadcast. -/
theorem removeFace_leaves_no_reference (hconf : env.FibConfined) {s : FaceState} {n f : Nat}
    (hc : Clean n s) (hf : f ∈ s.faces) {pre post : List FaceEvent}
    (hpre : pre.filter FaceEvent.isMain = destroyedBroadcast n f)
    (hpost : post.filter FaceEvent.isMain <+: destroyedBroadcast n f) :
    Clean n (faceRun env s (pre ++ .erase f :: post)) ∧
      ∀ w < n, FreeOf f ((faceRun env s (pre ++ .erase f :: post)).workers w) := by
  have hpre' : ∀ e ∈ pre, ∀ g, e ≠ .erase g :=
    ne_erase_of_filter_isMain fun e he => by rwa [hpre] at he
  have hpost' : ∀ e ∈ post, ∀ g, e ≠ .erase g :=
    ne_erase_of_filter_isMain fun e he => hpost.subset he
  -- the first broadcast: every worker has forgotten `f` before the erase
  have hfree₁ : ∀ w < n, FreeOf f ((faceRun env s pre).workers w) := by
    intro w hw
    apply faceRun_freeOf_of_destroyed hconf hf hpre'
    have hd : FaceEvent.destroyed w f ∈ pre.filter FaceEvent.isMain := by
      rw [hpre]
      exact mem_destroyedBroadcast.mpr ⟨w, hw, rfl⟩
    exact (List.mem_filter.mp hd).1
  have hc₁ : Clean n (faceRun env s pre) := faceRun_clean hc hpre'
  -- the erase, then the rest of the run
  have hc₂ : Clean n (faceStep env (faceRun env s pre) (.erase f)) :=
    faceStep_erase_clean hc₁ fun w hw => (hfree₁ w hw).2
  rw [faceRun_append, faceRun_cons]
  exact ⟨faceRun_clean hc₂ hpost', fun w hw =>
    faceRun_freeOf hconf (faceStep_freeOf hconf (hfree₁ w hw) _) post⟩

/-- One worker and best-route: the Interest `/a` from face 1 is sent to face 2 before the
cleanup and finds no nexthop after it. -/
theorem removeFace_leaves_no_reference_bestRoute :
    Clean 1 (faceRun ⟨fun _ => false, fun _ => .bestRoute⟩
      ⟨[1, 2], fun _ => ⟨[([Component.generic [0x61]], 2)], [], [1, 2]⟩⟩
      ([.packet 0 1 (.interest [Component.generic [0x61]]), .destroyed 0 2,
        .packet 0 1 (.interest [Component.generic [0x61]])] ++ .erase 2 :: [])) ∧
    ∀ w < 1, FreeOf 2 ((faceRun ⟨fun _ => false, fun _ => .bestRoute⟩
      ⟨[1, 2], fun _ => ⟨[([Component.generic [0x61]], 2)], [], [1, 2]⟩⟩
      ([.packet 0 1 (.interest [Component.generic [0x61]]), .destroyed 0 2,
        .packet 0 1 (.interest [Component.generic [0x61]])] ++ .erase 2 :: [])).workers w) :=
  removeFace_leaves_no_reference (fun _ h => StrategyKind.noConfusion h) (by decide) (by decide)
    (by decide) (List.nil_prefix)

/-- A worker under self-learning keeps a record on a removed face. After its cleanup, worker `w`
takes an Interest from another face `g` whose name has no FIB nexthop; `broadcastInterest` walks
`g_faceTable`, which holds `f` until the erase, and sends the Interest to `f`. The out-record
outlives the erase, and the second broadcast no longer finds the face to clean. -/
theorem removeFace_dangling_outRecord {s : FaceState} {n w f g : Nat} {name : Name}
    (hw : w < n) (hf : f ∈ s.faces) (hg : g ∈ s.faces) (hgf : g ≠ f)
    (hls : g ∈ (s.workers w).linkServices) (hlocal : env.isLocal f = false)
    (hsl : env.strategyOf name = .selfLearning) (hfib : fibNextHops (s.workers w).fib name = []) :
    ∃ pre post : List FaceEvent,
      pre.filter FaceEvent.isMain = destroyedBroadcast n f ∧
      post.filter FaceEvent.isMain = destroyedBroadcast n f ∧
      f ∉ (faceRun env s (pre ++ .erase f :: post)).faces ∧
      ∃ e ∈ ((faceRun env s (pre ++ .erase f :: post)).workers w).pit,
        e.name = name ∧ f ∈ e.outRecords := by
  refine ⟨destroyedBroadcast n f ++ [.packet w g (.interest name)], destroyedBroadcast n f,
    by simp [FaceEvent.isMain], filter_isMain_destroyedBroadcast n f, ?_⟩
  -- the first broadcast: worker `w` has cleaned up `f` and kept its link service for `g`
  obtain ⟨hfaces₁, hworkers₁⟩ := @faceRun_destroyedBroadcast env s n f
  set s₁ := faceRun env s (destroyedBroadcast n f)
  have hw₁ : s₁.workers w = (s.workers w).faceDestroyed s.faces f := by
    rw [hworkers₁, if_pos hw]
  have hls₁ : g ∈ (s₁.workers w).linkServices := by
    rw [hw₁, WorkerTables.linkServices_faceDestroyed]
    exact List.mem_filter.mpr ⟨hls, decide_eq_true hgf⟩
  have hfib₁ : fibNextHops (s₁.workers w).fib name = [] := by
    rw [hw₁, WorkerTables.fib_faceDestroyed_of_mem hf]
    exact fibNextHops_filter_eq_nil _ hfib
  -- the Interest from `g`: self-learning finds no nexthop and broadcasts it, to `f` as well
  have hpit₂ : ((faceStep env s₁ (.packet w g (.interest name))).workers w).pit =
      pitInsert (s₁.workers w).pit name g
        (afterReceiveInterest env.isLocal s.faces [] g .selfLearning) := by
    rw [faceStep, FaceState.updateWorker_workers, if_pos rfl,
      WorkerTables.pit_decodeNetPacketFromMq_interest (by rw [hfaces₁]; exact hg) hls₁, hfib₁,
      hsl, hfaces₁]
  have hout : f ∈ afterReceiveInterest env.isLocal s.faces [] g .selfLearning :=
    mem_afterReceiveInterest_selfLearning hf (Ne.symm hgf) hlocal
  -- the erase, and the second broadcast, which finds no face to clean
  set s₃ := faceStep env (faceStep env s₁ (.packet w g (.interest name))) (.erase f) with hs₃
  have hf₃ : f ∉ s₃.faces := by
    rw [hs₃, faceStep, List.mem_filter]
    simp
  obtain ⟨hfaces₄, hworkers₄⟩ := @faceRun_destroyedBroadcast env s₃ n f
  have hrun : faceRun env s ((destroyedBroadcast n f ++ [.packet w g (.interest name)]) ++
      .erase f :: destroyedBroadcast n f) = faceRun env s₃ (destroyedBroadcast n f) := by
    rw [faceRun_append, faceRun_cons, faceRun_append]
    rfl
  rw [hrun, hfaces₄, hworkers₄, if_pos hw, WorkerTables.pit_faceDestroyed_of_not_mem hf₃]
  refine ⟨hf₃, ?_⟩
  -- the erase changes no worker
  have hpit₃ : (s₃.workers w).pit =
      ((faceStep env s₁ (.packet w g (.interest name))).workers w).pit := rfl
  rw [hpit₃, hpit₂]
  obtain ⟨e, he, hname, hrec⟩ := exists_outRecords_pitInsert (s₁.workers w).pit name g _
  exact ⟨e, he, hname, hrec f hout⟩

/-- Faces 1 and 2, two workers under self-learning with empty FIBs: worker 0 takes an Interest
`/a` from face 1 after its cleanup, and keeps an out-record on face 2 after the erase. -/
theorem removeFace_dangling_outRecord_a :
    ∃ pre post : List FaceEvent,
      pre.filter FaceEvent.isMain = destroyedBroadcast 2 2 ∧
      post.filter FaceEvent.isMain = destroyedBroadcast 2 2 ∧
      2 ∉ (faceRun ⟨fun _ => false, fun _ => .selfLearning⟩
        ⟨[1, 2], fun _ => ⟨[], [], [1, 2]⟩⟩
        (pre ++ .erase 2 :: post)).faces ∧
      ∃ e ∈ ((faceRun ⟨fun _ => false, fun _ => .selfLearning⟩
          ⟨[1, 2], fun _ => ⟨[], [], [1, 2]⟩⟩ (pre ++ .erase 2 :: post)).workers 0).pit,
        e.name = [Component.generic [0x61]] ∧ 2 ∈ e.outRecords :=
  @removeFace_dangling_outRecord ⟨fun _ => false, fun _ => .selfLearning⟩
    ⟨[1, 2], fun _ => ⟨[], [], [1, 2]⟩⟩ 2 0 2 1 [Component.generic [0x61]]
    (by decide) (by decide) (by decide) (by decide) (by decide) rfl rfl rfl

example :
    ((faceRun ⟨fun _ => false, fun _ => .selfLearning⟩
      ⟨[1, 2], fun _ => ⟨[], [], [1, 2]⟩⟩
      [.destroyed 0 2, .packet 0 1 (.interest [Component.generic [0x61]]), .erase 2,
        .destroyed 0 2]).workers 0).pit = [⟨[Component.generic [0x61]], [1], [2]⟩] := by
  decide

end Remove

end MwNfd
