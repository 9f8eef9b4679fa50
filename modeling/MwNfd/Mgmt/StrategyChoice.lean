import MwNfd.Worker.Fib
import Mathlib.Data.List.AList

/-!
# Strategy choice across the main thread and the workers (`strategy-choice-manager.cpp`)

Each forwarder keeps a `StrategyChoice` table: a prefix and the instance name of its strategy.
With forwarding workers, `StrategyChoiceManager::setStrategy` does not touch the main
forwarder's table; it broadcasts `MW_NFDC_VERB_SET` with the command's parameters to every
worker, whose `MwNfd::processNfdcCommand` calls `StrategyChoice::insert`. `unsetStrategy`
erases the prefix from the main table and broadcasts `MW_NFDC_VERB_SET` as well, with the
parameters of the unset command: they carry no strategy, so each worker inserts the empty
strategy name, which `Strategy::create` does not find.

A single forwarder (`ETRI_NFD_ORG_ARCH`, the other branch of the same manager) inserts on `set`
and erases on `unset`.

* `processStrategyCommand_unset`: the broadcast of an unset changes no worker's table.
* `mgmtRun_workers`: after any sequence of commands, every worker's table is the single
  forwarder's table after the same sequence with its unsets left out.
-/

namespace MwNfd

/-- The status of `StrategyChoice::InsertResult`. -/
inductive InsertResult where
  | ok
  | depthExceeded
  | notRegistered
  | exception
  deriving DecidableEq

/-- What `Strategy::create` does with an instance name: it makes the strategy, whose instance
name it gives; it finds no registered strategy and returns `nullptr`; or the strategy's
constructor throws `std::invalid_argument` on parameters or a version it does not take. -/
inductive CreateResult where
  | strategy (instanceName : Name)
  | nullptr
  | invalidArgument
  deriving DecidableEq

/-- A `StrategyChoice` table: each prefix with an entry, and its strategy's instance name. -/
abbrev StrategyChoiceTable := AList (fun _ : Name => Name)

/-- `Strategy::create`. An empty name has no version and skips the search, so it finds nothing;
`registry` is what `create` does with the other names: the search of the registered strategies
and the found strategy's constructor. -/
def strategyCreate (registry : Name → CreateResult) (instanceName : Name) : CreateResult :=
  if instanceName = [] then .nullptr else registry instanceName

/-- `StrategyChoice::insert`: an entry for `name` with the created strategy's instance name,
unless the name is too deep, the strategy is not registered, or its constructor throws. -/
def StrategyChoice.insert (registry : Name → CreateResult) (t : StrategyChoiceTable)
    (name strategyName : Name) : InsertResult × StrategyChoiceTable :=
  if name.length > fibMaxDepth then (.depthExceeded, t)
  else match strategyCreate registry strategyName with
    | .nullptr => (.notRegistered, t)
    | .invalidArgument => (.exception, t)
    | .strategy instanceName => (.ok, t.insert name instanceName)

/-- `StrategyChoice::erase`: the entry of `name` is removed if there is one. -/
def StrategyChoice.erase (t : StrategyChoiceTable) (name : Name) : StrategyChoiceTable :=
  t.erase name

/-- A strategy-choice management command: `strategy-choice/set` or `strategy-choice/unset`. -/
inductive StrategyCommand where
  | set (name strategy : Name)
  | unset (name : Name)

def StrategyCommand.isSet : StrategyCommand → Bool
  | .set _ _ => true
  | .unset _ => false

/-- The verbs of `MW_NFDC_MGR_STRATEGY`. -/
inductive StrategyVerb where
  | set
  | unset

/-- The `mw_nfdc` of a strategy command: the verb, and the name and strategy of its
`ControlParameters` (an unset strategy is the empty name). -/
structure StrategyNfdc where
  verb : StrategyVerb
  name : Name
  strategy : Name

/-- What `emitMwNfdcCommand` broadcasts for a command: `MW_NFDC_VERB_SET` for both. -/
def StrategyCommand.broadcast : StrategyCommand → StrategyNfdc
  | .set name strategy => ⟨.set, name, strategy⟩
  | .unset name => ⟨.set, name, []⟩

/-- `MwNfd::processNfdcCommand` on `MW_NFDC_MGR_STRATEGY`, on a worker's table. -/
def processStrategyCommand (registry : Name → CreateResult) (t : StrategyChoiceTable) :
    StrategyNfdc → StrategyChoiceTable
  | ⟨.set, name, strategy⟩ => (StrategyChoice.insert registry t name strategy).2
  | ⟨.unset, name, _⟩ => StrategyChoice.erase t name

/-- The main forwarder's table and the workers' tables. -/
structure MgmtState where
  main : StrategyChoiceTable
  workers : List StrategyChoiceTable

/-- `StrategyChoiceManager::setStrategy` and `unsetStrategy`: the broadcast is handled by every
worker, then `set` inserts into the main table only when there is no worker (`getMwNfd(0)` is
null), and `unset` erases from it. -/
def mgmtStep (registry : Name → CreateResult) (s : MgmtState) (c : StrategyCommand) :
    MgmtState :=
  let workers := s.workers.map fun t => processStrategyCommand registry t c.broadcast
  match c with
  | .set name strategy =>
    if s.workers = [] then
      { s with main := (StrategyChoice.insert registry s.main name strategy).2 }
    else { s with workers }
  | .unset name => { main := StrategyChoice.erase s.main name, workers }

def mgmtRun (registry : Name → CreateResult) (s : MgmtState) (cs : List StrategyCommand) :
    MgmtState :=
  cs.foldl (mgmtStep registry) s

/-- The single forwarder's manager (`ETRI_NFD_ORG_ARCH`): `set` inserts, `unset` erases. -/
def singleStrategyStep (registry : Name → CreateResult) (t : StrategyChoiceTable) :
    StrategyCommand → StrategyChoiceTable
  | .set name strategy => (StrategyChoice.insert registry t name strategy).2
  | .unset name => StrategyChoice.erase t name

def singleStrategyRun (registry : Name → CreateResult) (t : StrategyChoiceTable)
    (cs : List StrategyCommand) : StrategyChoiceTable :=
  cs.foldl (singleStrategyStep registry) t

section Replication

variable {registry : Name → CreateResult}

/-- The empty strategy name is never created, so inserting it changes nothing. -/
theorem StrategyChoice.insert_empty (t : StrategyChoiceTable) (name : Name) :
    (StrategyChoice.insert registry t name []).2 = t := by
  unfold StrategyChoice.insert
  split_ifs
  · rfl
  · simp [strategyCreate]

/-- A worker handles the broadcast of an unset as an insert of the empty strategy: its table
stays as it was. -/
theorem processStrategyCommand_unset (t : StrategyChoiceTable) (name : Name) :
    processStrategyCommand registry t (StrategyCommand.unset name).broadcast = t :=
  StrategyChoice.insert_empty t name

/-- A worker handles every command as the single forwarder handles the sets among them. -/
theorem processStrategyCommand_broadcast (t : StrategyChoiceTable) (c : StrategyCommand) :
    processStrategyCommand registry t c.broadcast =
      if c.isSet then singleStrategyStep registry t c else t := by
  cases c with
  | set name strategy => rfl
  | unset name => exact processStrategyCommand_unset t name

/-- Workers that start from the table `t₀` all hold, after any run of commands, the single
forwarder's table after the sets of the run. The induction is on the commands, each applied
to every worker. -/
theorem mgmtRun_workers (cs : List StrategyCommand) {s : MgmtState} {t₀ : StrategyChoiceTable}
    (hne : s.workers ≠ []) (h₀ : ∀ t ∈ s.workers, t = t₀) :
    ∀ t ∈ (mgmtRun registry s cs).workers,
      t = singleStrategyRun registry t₀ (cs.filter (·.isSet)) := by
  induction cs generalizing s t₀ with
  | nil => simpa [mgmtRun, singleStrategyRun] using h₀
  | cons c cs ih =>
    -- one command: every worker moves to the same table, and the workers stay non-empty
    have hstep : (mgmtStep registry s c).workers =
        s.workers.map fun t => processStrategyCommand registry t c.broadcast := by
      cases c with
      | set name strategy => simp [mgmtStep, hne]
      | unset name => rfl
    have hne' : (mgmtStep registry s c).workers ≠ [] := by simp [hstep, hne]
    have h₁ : ∀ t ∈ (mgmtStep registry s c).workers,
        t = if c.isSet then singleStrategyStep registry t₀ c else t₀ := by
      intro t ht
      rw [hstep, List.mem_map] at ht
      obtain ⟨t', ht', rfl⟩ := ht
      rw [h₀ t' ht', processStrategyCommand_broadcast]
    have hrun := ih hne' h₁
    -- a set is the single forwarder's next step, an unset is left out
    cases hc : c.isSet <;> simpa [mgmtRun, singleStrategyRun, List.filter_cons, hc] using hrun

/-- Two empty workers, `/best-route` registered as `/best-route/v5`, after `set /a /best-route`
and `unset /a`: the first worker's table is the single forwarder's after the set alone. -/
theorem mgmtRun_workers_ab :
    (mgmtRun
        (fun s => if s = [Component.generic [0x62]] then
          .strategy [Component.generic [0x62], Component.generic [0x35]] else .nullptr) ⟨∅, [∅, ∅]⟩
        [.set [Component.generic [0x61]] [Component.generic [0x62]],
          .unset [Component.generic [0x61]]]).workers.head? =
      some (singleStrategyRun
        (fun s => if s = [Component.generic [0x62]] then
          .strategy [Component.generic [0x62], Component.generic [0x35]] else .nullptr) ∅
        ([StrategyCommand.set [Component.generic [0x61]] [Component.generic [0x62]],
          .unset [Component.generic [0x61]]].filter (·.isSet))) := by
  obtain ⟨t, ht⟩ : ∃ t, (mgmtRun
      (fun s => if s = [Component.generic [0x62]] then
        .strategy [Component.generic [0x62], Component.generic [0x35]] else .nullptr) ⟨∅, [∅, ∅]⟩
      [.set [Component.generic [0x61]] [Component.generic [0x62]],
        .unset [Component.generic [0x61]]]).workers.head? = some t := ⟨_, rfl⟩
  rw [ht, @mgmtRun_workers _ _ _ ∅ (by simp) (by simp) t (List.mem_of_mem_head? ht)]

end Replication

/-- With two workers and the strategy `/best-route` registered as `/best-route/v5`: after
`set /a /best-route` and `unset /a`, the single forwarder has no entry for `/a`, and neither
has the main forwarder, but both workers still choose `/best-route/v5` for `/a`. -/
theorem strategyChoice_unset_ignored :
    (singleStrategyRun
        (fun s => if s = [Component.generic [0x62]] then
          .strategy [Component.generic [0x62], Component.generic [0x35]] else .nullptr) ∅
        [.set [Component.generic [0x61]] [Component.generic [0x62]],
          .unset [Component.generic [0x61]]]).lookup [Component.generic [0x61]] = none ∧
    (mgmtRun
        (fun s => if s = [Component.generic [0x62]] then
          .strategy [Component.generic [0x62], Component.generic [0x35]] else .nullptr) ⟨∅, [∅, ∅]⟩
        [.set [Component.generic [0x61]] [Component.generic [0x62]],
          .unset [Component.generic [0x61]]]).main.lookup [Component.generic [0x61]] = none ∧
    ((mgmtRun
        (fun s => if s = [Component.generic [0x62]] then
          .strategy [Component.generic [0x62], Component.generic [0x35]] else .nullptr) ⟨∅, [∅, ∅]⟩
        [.set [Component.generic [0x61]] [Component.generic [0x62]],
          .unset [Component.generic [0x61]]]).workers.map
        (·.lookup [Component.generic [0x61]])) =
      [some [Component.generic [0x62], Component.generic [0x35]],
        some [Component.generic [0x62], Component.generic [0x35]]] := by
  refine ⟨?_, ?_, ?_⟩ <;> decide

end MwNfd
