import MwNfd.Rib.Table

/-!
# Sending FIB updates (`fib-updater.cpp`)

The `FibUpdater` sends a batch's FIB updates as control commands: first those on the batch's
face, then the others once the first list has emptied, and it calls the batch's `onSuccess` when
the second list empties or `onFailure` when a command on the batch's face fails because the face
is gone. A command that times out is sent again. Each command's callbacks are bound to the
update and to the `onSuccess`/`onFailure` pair it was sent with, which is named here by the
number of its batch; the commands awaiting an answer are a list, and the controller may answer
any of them at any time.

* `FibUpdater.nameFace_run`: every command sent names its update's name and face.
* `FibUpdater.faithful_run`: while no command times out, every command sent has its update's
  action.
* `FibUpdater.respond_timeout_removeNexthop`: a removal that times out is sent again as an
  add-nexthop command.
* `FibUpdater.onSuccess_after_onFailure`: a batch whose command failed gets its `onSuccess` called
  when a command it left behind succeeds during the next batch.
-/

namespace MwNfd

/-- `FibUpdate::Action`. -/
inductive FibUpdate.Action
  | addNexthop
  | removeNexthop
  deriving DecidableEq

/-- A `FibUpdate`; the derived equality is `FibUpdate::operator==`, which compares every field. -/
structure FibUpdate where
  name : Name
  faceId : Nat
  cost : Nat
  action : FibUpdate.Action
  /-- Set in the DCN routing build; 0 otherwise. -/
  flags : Nat
  deriving DecidableEq

namespace FibUpdate

/-- `FibUpdate::createAddUpdate`. -/
def createAddUpdate (name : Name) (faceId cost flags : Nat) : FibUpdate :=
  ⟨name, faceId, cost, .addNexthop, flags⟩

/-- `FibUpdate::createRemoveUpdate`: the cost and the flags keep their defaults. -/
def createRemoveUpdate (name : Name) (faceId : Nat) : FibUpdate :=
  ⟨name, faceId, 0, .removeNexthop, 0⟩

end FibUpdate

/-- The two control commands, with the parameters `FibUpdater` sets on them. -/
inductive FibCommand
  /-- `FibAddNextHopCommand`. -/
  | addNextHop (name : Name) (faceId cost flags : Nat)
  /-- `FibRemoveNextHopCommand`. -/
  | removeNextHop (name : Name) (faceId : Nat)
  deriving DecidableEq

namespace FibCommand

def name : FibCommand → Name
  | addNextHop name .. => name
  | removeNextHop name _ => name

def faceId : FibCommand → Nat
  | addNextHop _ faceId .. => faceId
  | removeNextHop _ faceId => faceId

end FibCommand

/-- The command an update is meant to be sent as: the one of its action. -/
def FibUpdate.command (update : FibUpdate) : FibCommand :=
  match update.action with
  | .addNexthop => .addNextHop update.name update.faceId update.cost update.flags
  | .removeNexthop => .removeNextHop update.name update.faceId

/-- `MAX_NUM_TIMEOUTS`. -/
def maxNumTimeouts : Nat := 10

/-- `ERROR_FACE_NOT_FOUND`. -/
def errorFaceNotFound : Nat := 410

/-- `Controller::ERROR_TIMEOUT`. -/
def errorTimeout : Nat := 10060

/-- How the controller answers a command: through its success callback, or through its failure
callback with the response's code. -/
inductive Reply
  | success
  | failure (code : Nat)
  deriving DecidableEq

/-- A command started through `Controller::start` and not answered yet, with what its callbacks
are bound to: the update, the callbacks of the batch numbered `batch`, and for the failure
callback the number of timeouts so far. -/
structure Started where
  command : FibCommand
  update : FibUpdate
  batch : Nat
  nTimeouts : Nat
  deriving DecidableEq

/-- A call of one of a batch's callbacks, or the exception `onUpdateError` throws. -/
inductive Callback
  | onSuccess (batch : Nat)
  | onFailure (batch code : Nat)
  | nonRecoverable (code : Nat)
  deriving DecidableEq

/-- The `FibUpdater`: `m_batchFaceId` and the two update lists, the commands awaiting an answer,
and the callbacks called so far. `m_inheritedRoutes`, which `onSuccess` is passed, is left out. -/
structure FibUpdater where
  batchFaceId : Nat
  updatesForBatchFaceId : List FibUpdate
  updatesForNonBatchFaceId : List FibUpdate
  started : List Started
  calls : List Callback
  deriving DecidableEq

namespace FibUpdater

def empty : FibUpdater := ⟨0, [], [], [], []⟩

/-- `Controller::start`: the command awaits an answer. -/
def start (U : FibUpdater) (s : Started) : FibUpdater := { U with started := U.started ++ [s] }

/-- A callback is called. -/
def call (U : FibUpdater) (c : Callback) : FibUpdater := { U with calls := U.calls ++ [c] }

/-- `FibUpdater::sendAddNextHopUpdate`. -/
def sendAddNextHopUpdate (U : FibUpdater) (update : FibUpdate) (batch nTimeouts : Nat) :
    FibUpdater :=
  U.start ⟨.addNextHop update.name update.faceId update.cost update.flags, update, batch,
    nTimeouts⟩

/-- `FibUpdater::sendRemoveNextHopUpdate`. -/
def sendRemoveNextHopUpdate (U : FibUpdater) (update : FibUpdate) (batch nTimeouts : Nat) :
    FibUpdater :=
  U.start ⟨.removeNextHop update.name update.faceId, update, batch, nTimeouts⟩

/-- `FibUpdater::sendUpdates`. -/
def sendUpdates (U : FibUpdater) (updates : List FibUpdate) (batch : Nat) : FibUpdater :=
  updates.foldl (fun U update =>
    match update.action with
    | .addNexthop => U.sendAddNextHopUpdate update batch 0
    | .removeNexthop => U.sendRemoveNextHopUpdate update batch 0) U

/-- `FibUpdater::sendUpdatesForNonBatchFaceId`. -/
def sendUpdatesForNonBatchFaceId (U : FibUpdater) (batch : Nat) : FibUpdater :=
  if 0 < U.updatesForNonBatchFaceId.length then U.sendUpdates U.updatesForNonBatchFaceId batch
  else U.call (.onSuccess batch)

/-- `FibUpdater::sendUpdatesForBatchFaceId`. -/
def sendUpdatesForBatchFaceId (U : FibUpdater) (batch : Nat) : FibUpdater :=
  if 0 < U.updatesForBatchFaceId.length then U.sendUpdates U.updatesForBatchFaceId batch
  else U.sendUpdatesForNonBatchFaceId batch

/-- `m_updatesForNonBatchFaceId.remove(update)`, then `onSuccess` if the list is empty: the
same lines end `onUpdateSuccess` and the face-not-found case of `onUpdateError`. -/
def removeNonBatch (U : FibUpdater) (update : FibUpdate) (batch : Nat) : FibUpdater :=
  let U := { U with updatesForNonBatchFaceId := U.updatesForNonBatchFaceId.filter (· ≠ update) }
  if U.updatesForNonBatchFaceId.length = 0 then U.call (.onSuccess batch) else U

/-- `FibUpdater::onUpdateSuccess`. -/
def onUpdateSuccess (U : FibUpdater) (update : FibUpdate) (batch : Nat) : FibUpdater :=
  if update.faceId = U.batchFaceId then
    let U := { U with updatesForBatchFaceId := U.updatesForBatchFaceId.filter (· ≠ update) }
    if U.updatesForBatchFaceId.length = 0 then U.sendUpdatesForNonBatchFaceId batch else U
  else U.removeNonBatch update batch

/-- `FibUpdater::onUpdateError`. -/
def onUpdateError (U : FibUpdater) (update : FibUpdate) (batch code nTimeouts : Nat) :
    FibUpdater :=
  if code = errorTimeout ∧ nTimeouts < maxNumTimeouts then
    -- the retry goes through `sendAddNextHopUpdate` whatever the update's action
    U.sendAddNextHopUpdate update batch (nTimeouts + 1)
  else if code = errorFaceNotFound then
    if update.faceId = U.batchFaceId then U.call (.onFailure batch code)
    else U.removeNonBatch update batch
  else U.call (.nonRecoverable code)

/-- The list `addFibUpdate` puts an update in: an update of the same name and face is overwritten
in its action and cost, and otherwise the update goes last. -/
def addFibUpdateTo (updates : List FibUpdate) (update : FibUpdate) : List FibUpdate :=
  match updates.findIdx? (fun other => update.name == other.name && update.faceId == other.faceId)
  with
  | some i => updates.modify i fun existing =>
      { existing with action := update.action, cost := update.cost }
  | none => updates ++ [update]

/-- `FibUpdater::addFibUpdate`. -/
def addFibUpdate (U : FibUpdater) (update : FibUpdate) : FibUpdater :=
  if update.faceId = U.batchFaceId then
    { U with updatesForBatchFaceId := addFibUpdateTo U.updatesForBatchFaceId update }
  else { U with updatesForNonBatchFaceId := addFibUpdateTo U.updatesForNonBatchFaceId update }

/-- `FibUpdater::computeAndSendFibUpdates` for the batch numbered `batch`, on the face
`batchFaceId`, whose `computeUpdates` adds `updates` in this order. -/
def computeAndSendFibUpdates (U : FibUpdater) (batch batchFaceId : Nat)
    (updates : List FibUpdate) : FibUpdater :=
  let U := { U with
    batchFaceId := batchFaceId
    updatesForBatchFaceId := []
    updatesForNonBatchFaceId := [] }
  (updates.foldl addFibUpdate U).sendUpdatesForBatchFaceId batch

/-- The controller answers the `i`-th command awaiting an answer. -/
def respond (U : FibUpdater) (i : Nat) (reply : Reply) : FibUpdater :=
  match U.started[i]? with
  | none => U
  | some s =>
    let U := { U with started := U.started.eraseIdx i }
    match reply with
    | .success => U.onUpdateSuccess s.update s.batch
    | .failure code => U.onUpdateError s.update s.batch code s.nTimeouts

/-- What happens to the `FibUpdater`: the RIB starts a batch, or the controller answers. -/
inductive Op
  | computeAndSend (batch batchFaceId : Nat) (updates : List FibUpdate)
  | respond (i : Nat) (reply : Reply)
  deriving DecidableEq

def step (U : FibUpdater) : Op → FibUpdater
  | .computeAndSend batch batchFaceId updates =>
    U.computeAndSendFibUpdates batch batchFaceId updates
  | .respond i reply => U.respond i reply

def run (U : FibUpdater) (ops : List Op) : FibUpdater := ops.foldl step U

end FibUpdater

/-- A command sent for an update's action, before any timeout. -/
def Started.fresh (batch : Nat) (update : FibUpdate) : Started :=
  ⟨update.command, update, batch, 0⟩

/-- A command names its update's name and face. -/
def Started.NameFace (s : Started) : Prop :=
  s.command.name = s.update.name ∧ s.command.faceId = s.update.faceId

namespace FibUpdater

/-! ## The commands each function starts -/

@[simp] theorem started_start (U : FibUpdater) (s : Started) :
    (U.start s).started = U.started ++ [s] := rfl

@[simp] theorem started_call (U : FibUpdater) (c : Callback) : (U.call c).started = U.started :=
  rfl

/-- `sendUpdates` starts the command of each update's action, in order, and changes nothing
else. -/
theorem sendUpdates_eq (U : FibUpdater) (updates : List FibUpdate) (batch : Nat) :
    U.sendUpdates updates batch =
      { U with started := U.started ++ updates.map (Started.fresh batch) } := by
  induction updates generalizing U with
  | nil => simp [sendUpdates]
  | cons update updates ih =>
    simp only [sendUpdates, List.foldl_cons] at ih ⊢
    rw [ih]
    cases h : update.action <;>
      simp [h, sendAddNextHopUpdate, sendRemoveNextHopUpdate, start, Started.fresh,
        FibUpdate.command]

theorem started_sendUpdates (U : FibUpdater) (updates : List FibUpdate) (batch : Nat) :
    (U.sendUpdates updates batch).started = U.started ++ updates.map (Started.fresh batch) := by
  rw [sendUpdates_eq]

theorem started_sendUpdatesForNonBatchFaceId (U : FibUpdater) (batch : Nat) :
    ∃ updates : List FibUpdate, (U.sendUpdatesForNonBatchFaceId batch).started =
      U.started ++ updates.map (Started.fresh batch) := by
  unfold sendUpdatesForNonBatchFaceId
  split
  · exact ⟨_, started_sendUpdates U _ batch⟩
  · exact ⟨[], by simp⟩

theorem started_sendUpdatesForBatchFaceId (U : FibUpdater) (batch : Nat) :
    ∃ updates : List FibUpdate, (U.sendUpdatesForBatchFaceId batch).started =
      U.started ++ updates.map (Started.fresh batch) := by
  unfold sendUpdatesForBatchFaceId
  split
  · exact ⟨_, started_sendUpdates U _ batch⟩
  · exact started_sendUpdatesForNonBatchFaceId U batch

@[simp] theorem started_removeNonBatch (U : FibUpdater) (update : FibUpdate) (batch : Nat) :
    (U.removeNonBatch update batch).started = U.started := by
  unfold removeNonBatch
  dsimp only
  split <;> rfl

theorem started_onUpdateSuccess (U : FibUpdater) (update : FibUpdate) (batch : Nat) :
    ∃ updates : List FibUpdate, (U.onUpdateSuccess update batch).started =
      U.started ++ updates.map (Started.fresh batch) := by
  unfold onUpdateSuccess
  split
  · dsimp only
    split
    · exact started_sendUpdatesForNonBatchFaceId _ batch
    · exact ⟨[], by simp⟩
  · exact ⟨[], by simp⟩

/-- `onUpdateError` starts a command only on a timeout, and then the add-nexthop one. -/
theorem started_onUpdateError (U : FibUpdater) (update : FibUpdate) (batch code nTimeouts : Nat) :
    (code = errorTimeout ∧ nTimeouts < maxNumTimeouts ∧
      (U.onUpdateError update batch code nTimeouts).started = U.started ++
        [⟨.addNextHop update.name update.faceId update.cost update.flags, update, batch,
          nTimeouts + 1⟩]) ∨
    (U.onUpdateError update batch code nTimeouts).started = U.started := by
  unfold onUpdateError
  split
  · next h => exact .inl ⟨h.1, h.2, rfl⟩
  · right
    split
    · split <;> simp
    · rfl

@[simp] theorem started_addFibUpdate (U : FibUpdater) (update : FibUpdate) :
    (U.addFibUpdate update).started = U.started := by
  unfold addFibUpdate
  split <;> rfl

theorem started_foldl_addFibUpdate (U : FibUpdater) (updates : List FibUpdate) :
    (updates.foldl addFibUpdate U).started = U.started := by
  induction updates generalizing U with
  | nil => rfl
  | cons update updates ih => rw [List.foldl_cons, ih, started_addFibUpdate]

theorem started_computeAndSendFibUpdates (U : FibUpdater) (batch batchFaceId : Nat)
    (updates : List FibUpdate) :
    ∃ sent : List FibUpdate, (U.computeAndSendFibUpdates batch batchFaceId updates).started =
      U.started ++ sent.map (Started.fresh batch) := by
  obtain ⟨sent, h⟩ := started_sendUpdatesForBatchFaceId
    (updates.foldl addFibUpdate { U with
      batchFaceId := batchFaceId
      updatesForBatchFaceId := []
      updatesForNonBatchFaceId := [] }) batch
  rw [started_foldl_addFibUpdate] at h
  exact ⟨sent, h⟩

/-- What awaits an answer after a step: a command that awaited one before, a command sent for
its update's action, or, on a timeout, the add-nexthop retry of an update. -/
theorem mem_started_step {U : FibUpdater} {op : Op} {s : Started}
    (h : s ∈ (U.step op).started) :
    s ∈ U.started ∨ s.command = s.update.command ∨
      ((∃ i, op = .respond i (.failure errorTimeout)) ∧
        s.command = .addNextHop s.update.name s.update.faceId s.update.cost s.update.flags) := by
  cases op with
  | computeAndSend batch batchFaceId updates =>
    obtain ⟨sent, hsent⟩ := started_computeAndSendFibUpdates U batch batchFaceId updates
    rw [step, hsent, List.mem_append, List.mem_map] at h
    rcases h with h | ⟨update, -, rfl⟩
    · exact .inl h
    · exact .inr (.inl rfl)
  | respond i reply =>
    simp only [step, respond] at h
    split at h
    · exact .inl h
    · next s₀ hs₀ =>
      -- the command answered leaves the list; the handler may start new ones
      have hkeep : s ∈ U.started.eraseIdx i → s ∈ U.started := List.mem_of_mem_eraseIdx
      cases reply with
      | success =>
        obtain ⟨sent, hsent⟩ := started_onUpdateSuccess
          { U with started := U.started.eraseIdx i } s₀.update s₀.batch
        rw [hsent, List.mem_append, List.mem_map] at h
        rcases h with h | ⟨update, -, rfl⟩
        · exact .inl (hkeep h)
        · exact .inr (.inl rfl)
      | failure code =>
        rcases started_onUpdateError { U with started := U.started.eraseIdx i } s₀.update
          s₀.batch code s₀.nTimeouts with ⟨hcode, -, hsent⟩ | hsent
        · rw [hsent, List.mem_append, List.mem_singleton] at h
          rcases h with h | rfl
          · exact .inl (hkeep h)
          · exact .inr (.inr ⟨⟨i, by rw [hcode]⟩, rfl⟩)
        · rw [hsent] at h
          exact .inl (hkeep h)

/-! ## Invariants of every run -/

/-- An invariant that every step of a run keeps holds after the run. -/
theorem run_invariant {P : FibUpdater → Prop} {ops : List Op}
    (hstep : ∀ U, ∀ op ∈ ops, P U → P (U.step op)) {U : FibUpdater} (hU : P U) :
    P (U.run ops) := by
  induction ops generalizing U with
  | nil => exact hU
  | cons op ops ih =>
    exact ih (fun V o ho => hstep V o (List.mem_cons_of_mem op ho))
      (hstep U op List.mem_cons_self hU)

theorem nameFace_command (update : FibUpdate) :
    update.command.name = update.name ∧ update.command.faceId = update.faceId := by
  unfold FibUpdate.command
  split <;> exact ⟨rfl, rfl⟩

theorem nameFace_step {U : FibUpdater} (op : Op) (hU : ∀ s ∈ U.started, s.NameFace) :
    ∀ s ∈ (U.step op).started, s.NameFace := by
  intro s hs
  rcases mem_started_step hs with h | h | ⟨-, h⟩
  · exact hU s h
  · rw [Started.NameFace, h]
    exact nameFace_command s.update
  · rw [Started.NameFace, h]
    exact ⟨rfl, rfl⟩

/-- Every command awaiting an answer, in every run, names its update's name and face. -/
theorem nameFace_run (U : FibUpdater) (ops : List Op) (hU : ∀ s ∈ U.started, s.NameFace) :
    ∀ s ∈ (U.run ops).started, s.NameFace :=
  @run_invariant (fun U => ∀ s ∈ U.started, s.NameFace) ops (fun _ op _ => nameFace_step op) U
    hU

/-- While no command times out, every command awaiting an answer is that of its update's
action. -/
theorem faithful_run (U : FibUpdater) (ops : List Op)
    (hnoTimeout : ∀ i, .respond i (.failure errorTimeout) ∉ ops)
    (hU : ∀ s ∈ U.started, s.command = s.update.command) :
    ∀ s ∈ (U.run ops).started, s.command = s.update.command := by
  refine @run_invariant (fun U => ∀ s ∈ U.started, s.command = s.update.command) ops
    (fun V op hop hV s hs => ?_) U hU
  rcases mem_started_step hs with h | h | ⟨⟨i, rfl⟩, -⟩
  · exact hV s h
  · exact h
  · exact absurd hop (hnoTimeout i)

/-! ## Timeouts -/

/-- A command of a removal that times out is sent again as an add-nexthop command, bound to the
same update. -/
theorem respond_timeout_removeNexthop {U : FibUpdater} {i : Nat} {s : Started}
    (hs : U.started[i]? = some s) (hremove : s.update.action = .removeNexthop)
    (hn : s.nTimeouts < maxNumTimeouts) :
    ∃ s' ∈ (U.respond i (.failure errorTimeout)).started, s'.update = s.update ∧
      s'.command = .addNextHop s.update.name s.update.faceId s.update.cost s.update.flags ∧
      s'.command ≠ s'.update.command := by
  refine ⟨⟨.addNextHop s.update.name s.update.faceId s.update.cost s.update.flags, s.update,
    s.batch, s.nTimeouts + 1⟩, ?_, rfl, rfl, ?_⟩
  · simp [respond, hs, onUpdateError, hn, sendAddNextHopUpdate]
  · simp [FibUpdate.command, hremove]

/-- `/a` removed from face 1, and the command times out. -/
theorem respond_timeout_removeNexthop_a :
    ∃ s' ∈ ((empty.computeAndSendFibUpdates 0 1
        [FibUpdate.createRemoveUpdate [Component.generic [0x61]] 1]).respond 0
        (.failure errorTimeout)).started,
      s'.update = FibUpdate.createRemoveUpdate [Component.generic [0x61]] 1 ∧
      s'.command = .addNextHop [Component.generic [0x61]] 1 0 0 ∧
      s'.command ≠ s'.update.command :=
  respond_timeout_removeNexthop
    (show (empty.computeAndSendFibUpdates 0 1
        [FibUpdate.createRemoveUpdate [Component.generic [0x61]] 1]).started[0]? =
      some ⟨.removeNextHop [Component.generic [0x61]] 1,
        FibUpdate.createRemoveUpdate [Component.generic [0x61]] 1, 0, 0⟩ by decide)
    rfl (by decide)

/-! ## Answers after the next batch has started -/

/-- Sending a batch's first list leaves the face and the lists as they are. -/
theorem lists_sendUpdatesForBatchFaceId (U : FibUpdater) (batch : Nat) :
    (U.sendUpdatesForBatchFaceId batch).batchFaceId = U.batchFaceId ∧
      (U.sendUpdatesForBatchFaceId batch).updatesForBatchFaceId = U.updatesForBatchFaceId ∧
      (U.sendUpdatesForBatchFaceId batch).updatesForNonBatchFaceId =
        U.updatesForNonBatchFaceId := by
  unfold sendUpdatesForBatchFaceId sendUpdatesForNonBatchFaceId
  split_ifs <;> simp [sendUpdates_eq, call]

/-- `addFibUpdate` sorts the updates by face into the two lists. -/
theorem lists_foldl_addFibUpdate (updates : List FibUpdate) (U : FibUpdater) :
    (updates.foldl addFibUpdate U).batchFaceId = U.batchFaceId ∧
      (updates.foldl addFibUpdate U).updatesForBatchFaceId =
        (updates.filter (·.faceId = U.batchFaceId)).foldl addFibUpdateTo
          U.updatesForBatchFaceId ∧
      (updates.foldl addFibUpdate U).updatesForNonBatchFaceId =
        (updates.filter (·.faceId ≠ U.batchFaceId)).foldl addFibUpdateTo
          U.updatesForNonBatchFaceId := by
  induction updates generalizing U with
  | nil => exact ⟨rfl, rfl, rfl⟩
  | cons u updates ih =>
    rw [List.foldl_cons]
    by_cases hu : u.faceId = U.batchFaceId
    · have hadd : U.addFibUpdate u =
          { U with updatesForBatchFaceId := addFibUpdateTo U.updatesForBatchFaceId u } := if_pos hu
      rw [hadd]
      obtain ⟨h₁, h₂, h₃⟩ := ih { U with
        updatesForBatchFaceId := addFibUpdateTo U.updatesForBatchFaceId u }
      refine ⟨h₁, ?_, ?_⟩
      · rw [h₂, List.filter_cons_of_pos (by simpa using hu)]
        rfl
      · rw [h₃, List.filter_cons_of_neg (by simpa using hu)]
    · have hadd : U.addFibUpdate u =
          { U with updatesForNonBatchFaceId := addFibUpdateTo U.updatesForNonBatchFaceId u } :=
        if_neg hu
      rw [hadd]
      obtain ⟨h₁, h₂, h₃⟩ := ih { U with
        updatesForNonBatchFaceId := addFibUpdateTo U.updatesForNonBatchFaceId u }
      refine ⟨h₁, ?_, ?_⟩
      · rw [h₂, List.filter_cons_of_neg (by simpa using hu)]
      · rw [h₃, List.filter_cons_of_pos (by simpa using hu)]
        rfl

/-- A command left from an earlier batch that succeeds while a batch with updates on its own face
only is being sent calls the earlier batch's `onSuccess`: the callbacks it was sent with read the
lists of the batch being sent. -/
theorem respond_leftover_onSuccess {U : FibUpdater} {batch batchFaceId : Nat}
    {updates : List FibUpdate} {i : Nat} {s : Started}
    (hall : ∀ u ∈ updates, u.faceId = batchFaceId)
    (hs : (U.computeAndSendFibUpdates batch batchFaceId updates).started[i]? = some s)
    (hface : s.update.faceId ≠ batchFaceId) :
    Callback.onSuccess s.batch ∈
      ((U.computeAndSendFibUpdates batch batchFaceId updates).respond i .success).calls := by
  -- the new batch has its face, and no update for any other face
  let V : FibUpdater := { U with
    batchFaceId := batchFaceId
    updatesForBatchFaceId := []
    updatesForNonBatchFaceId := [] }
  obtain ⟨hfold₁, -, hfold₂⟩ := lists_foldl_addFibUpdate updates V
  obtain ⟨hsend₁, -, hsend₂⟩ :=
    lists_sendUpdatesForBatchFaceId (updates.foldl addFibUpdate V) batch
  have hface' : (U.computeAndSendFibUpdates batch batchFaceId updates).batchFaceId =
      batchFaceId := hsend₁.trans hfold₁
  -- no update is off the batch's face
  have hoff : updates.filter (·.faceId ≠ batchFaceId) = [] :=
    List.filter_eq_nil_iff.mpr fun u hu => by simpa using hall u hu
  have hnon : (U.computeAndSendFibUpdates batch batchFaceId updates).updatesForNonBatchFaceId =
      [] := by
    rw [show U.computeAndSendFibUpdates batch batchFaceId updates =
      (updates.foldl addFibUpdate V).sendUpdatesForBatchFaceId batch from rfl, hsend₂, hfold₂]
    exact congrArg (List.foldl addFibUpdateTo []) hoff
  simp [respond, hs, onUpdateSuccess, hface', hface, removeNonBatch, hnon, call]

/-- `/a` and `/b` on face 1 are sent; `/a` fails because face 1 is gone, and the RIB sends the
next batch, `/c` on face 2; then `/b` succeeds: the first batch gets both callbacks. -/
theorem respond_leftover_onSuccess_ab :
    Callback.onFailure 0 errorFaceNotFound ∈
        ((empty.computeAndSendFibUpdates 0 1
          [FibUpdate.createAddUpdate [Component.generic [0x61]] 1 0 0,
            FibUpdate.createAddUpdate [Component.generic [0x62]] 1 0 0]).respond 0
          (.failure errorFaceNotFound)).calls ∧
      Callback.onSuccess 0 ∈
        ((((empty.computeAndSendFibUpdates 0 1
          [FibUpdate.createAddUpdate [Component.generic [0x61]] 1 0 0,
            FibUpdate.createAddUpdate [Component.generic [0x62]] 1 0 0]).respond 0
          (.failure errorFaceNotFound)).computeAndSendFibUpdates 1 2
          [FibUpdate.createAddUpdate [Component.generic [0x63]] 2 0 0]).respond 0 .success).calls :=
  ⟨by decide, respond_leftover_onSuccess
    (show (∀ u ∈ [FibUpdate.createAddUpdate [Component.generic [0x63]] 2 0 0], u.faceId = 2) by
      decide)
    (show (((empty.computeAndSendFibUpdates 0 1
          [FibUpdate.createAddUpdate [Component.generic [0x61]] 1 0 0,
            FibUpdate.createAddUpdate [Component.generic [0x62]] 1 0 0]).respond 0
          (.failure errorFaceNotFound)).computeAndSendFibUpdates 1 2
          [FibUpdate.createAddUpdate [Component.generic [0x63]] 2 0 0]).started[0]? =
        some ⟨.addNextHop [Component.generic [0x62]] 1 0 0,
          FibUpdate.createAddUpdate [Component.generic [0x62]] 1 0 0, 0, 0⟩ by decide)
    (by decide)⟩

end FibUpdater

end MwNfd
