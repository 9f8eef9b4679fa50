import MwNfd.Lib.Prefix
import MwNfd.Dispatch.Canonical

/-!
# FIB sharding among the forwarding workers (`mw-nfd-worker.cpp`)

`FibManager::addNextHop` broadcasts a FIB ADD whose name does not start with `localhost` to
every forwarding worker, and each worker's `MwNfd::processNfdcCommand` decides whether to put
the prefix in its own FIB. With `m_wantFibSharding`, a prefix of at least
`g_prefixLength4Distribution` components is kept only by the worker whose id `computeWorkerId`
gives on the TLV-VALUE of the prefix's `Name::wireEncode`; a shorter prefix, and one with the
net-name flag, is kept by every worker. `MwNfd::config_bulk_fib` applies the same test to the
prefixes of its file. An Interest is then looked up in the FIB of the worker the input thread
dispatched it to, with `Fib::findLongestPrefixMatch`.

* `FibInstall.accepts_owner`: a prefix a worker keeps is kept by every worker, or is long
  enough to be sharded and `nameWorker` gives that worker.
* `mem_workerFibRun`: a worker's FIB holds the prefixes of the commands it accepted.
-/

namespace MwNfd

/-- `Fib::getMaxDepth()`, which is `NameTree::getMaxDepth()`. -/
def fibMaxDepth : Nat := 32

/-- The sharding test of `processNfdcCommand` and `config_bulk_fib` for the worker
`m_workerId`: a prefix of at least `k` components is kept where `computeWorkerId` on the
TLV-VALUE of its encoding gives this worker. A failed read of the encoding's TLV-TYPE or
TLV-LENGTH gives the prefix up (`goto response`, `continue`). -/
def fibShardAccepts (cfg : DispatchConfig) (workerId : Nat) (name : Name) :
    Except Fault Bool := do
  if name.length ≥ cfg.prefixLength4Distribution then
    let block := name.wireEncode
    let (type, pos) ← readType block 0 block.length
    if type.isNone then return false
    let (length, pos) ← readVarNumber block pos block.length
    if length.isNone then return false
    let wid ← computeWorkerId cfg block pos (block.length - pos)
    return wid = workerId
  else return true

/-- The fields of a broadcast FIB ADD that `processNfdcCommand` reads: the prefix
(`parameters->getName()`), whether `m_faceTable->get(faceId)` finds the face (the table is
`g_faceTable`, the same for every worker), and `nfdc->netName`. -/
structure FibAddCommand where
  name : Name
  faceExists : Bool
  netName : Bool
  deriving DecidableEq

/-- `processNfdcCommand` on `MW_NFDC_MGR_FIB`/`MW_NFDC_VERB_ADD`: whether the worker inserts the
prefix in its FIB and adds the next hop. -/
def processFibAdd (cfg : DispatchConfig) (wantFibSharding : Bool) (workerId : Nat)
    (cmd : FibAddCommand) : Except Fault Bool :=
  if !cmd.faceExists then .ok false
  else if cmd.name.length > fibMaxDepth then .ok false
  else if cmd.netName then .ok true
  else if wantFibSharding then fibShardAccepts cfg workerId cmd.name
  else .ok true

/-- `config_bulk_fib` on one prefix of its file: whether the worker inserts it. The next hop's
face is dereferenced without a check, so a missing face faults. -/
def configBulkFibLine (cfg : DispatchConfig) (sharding : Bool) (workerId : Nat)
    (faceExists : Bool) (name : Name) : Except Fault Bool := do
  if name.length = 0 then return false
  let keep ← if sharding then fibShardAccepts cfg workerId name else pure true
  if keep ∧ !faceExists then throw .segv
  return keep

/-- What puts a prefix in a worker's FIB: a broadcast FIB ADD, or a line of the bulk FIB file. -/
inductive FibInstall where
  | command (cmd : FibAddCommand)
  | bulkLine (faceExists : Bool) (name : Name)

def FibInstall.name : FibInstall → Name
  | .command cmd => cmd.name
  | .bulkLine _ name => name

/-- Whether the worker inserts the prefix; the worker's `m_wantFibSharding` is the `sharding`
that `config_bulk_fib` is called with. -/
def FibInstall.accepts (cfg : DispatchConfig) (sharding : Bool) (workerId : Nat) :
    FibInstall → Except Fault Bool
  | .command cmd => processFibAdd cfg sharding workerId cmd
  | .bulkLine faceExists name => configBulkFibLine cfg sharding workerId faceExists name

/-- The names of a worker's FIB entries after it has handled `ins` in order; `Fib::insert`
adds an entry only for a name that has none. -/
def workerFibRun (cfg : DispatchConfig) (sharding : Bool) (workerId : Nat) :
    List Name → List FibInstall → Except Fault (List Name)
  | fib, [] => .ok fib
  | fib, i :: ins => do
    let keep ← i.accepts cfg sharding workerId
    workerFibRun cfg sharding workerId (if keep then fib.insert i.name else fib) ins

/-- `Fib::findLongestPrefixMatch`: the name tree's search for the longest prefix of the name,
within the depth limit, that has a FIB entry; `none` is `s_emptyEntry`. -/
def Fib.findLongestPrefixMatch (fib : List Name) (name : Name) : Option Name :=
  PrefixMatch.longestPrefixMatch (fun p => decide (p ∈ fib)) fibMaxDepth name

/-! ## The sharding test -/

section Shard

variable {cfg : DispatchConfig}

/-- The sharding test on a prefix of at least `k` components is `computeWorkerId` on the
prefix's value: the localhost test, then `nameWorker`. -/
theorem fibShardAccepts_eq (hn : 0 < cfg.forwardingWorkers)
    (hk : 0 < cfg.prefixLength4Distribution) (workerId : Nat) {name : Name}
    (hlen : cfg.prefixLength4Distribution ≤ name.length)
    (hfit : name.wireEncode.length < 2 ^ 64) :
    fibShardAccepts cfg workerId name =
      (localhostScan name.wireEncode (tlvHeaderLength tlv.name name.wireValue)
          (name.take cfg.prefixLength4Distribution)).map fun hit =>
        decide ((if hit then dcnLocalhostPrefix else nameWorker cfg name) = (workerId : Int)) :=
    by
  have hblock : name.wireEncode.drop 0 = encodeTlv tlv.name name.wireValue ++ [] := by
    simp [Name.wireEncode]
  have hlenB : name.wireEncode.length = tlvHeaderLength tlv.name name.wireValue +
      name.wireValue.length := length_encodeTlv _ _
  obtain ⟨hT, hL⟩ := @read_tlv_header name.wireEncode [] 0 name.wireEncode.length tlv.name
    name.wireValue hblock (by decide) (by decide) (by omega) (by omega)
  have hval : name.wireEncode.drop (tlvHeaderLength tlv.name name.wireValue) =
      name.wireValue ++ [] := by
    simpa using drop_tlv_value hblock
  have hsize : name.wireEncode.length - tlvHeaderLength tlv.name name.wireValue =
      name.wireValue.length := by omega
  simp only [Nat.zero_add] at hT hL
  unfold fibShardAccepts
  rw [if_pos hlen]
  simp only [hT, hL, Except.ok_bind', Option.isNone_some, Bool.false_eq_true, if_false,
    hsize, computeWorkerId_wireValue hn hk name hval hfit]
  cases localhostScan name.wireEncode (tlvHeaderLength tlv.name name.wireValue)
      (name.take cfg.prefixLength4Distribution) <;> rfl

/-- A worker that keeps a long prefix under sharding is the prefix's `nameWorker`: the
localhost verdict `DCN_LOCALHOST_PREFIX` is no worker's id. -/
theorem fibShardAccepts_owner (hn : 0 < cfg.forwardingWorkers)
    (hk : 0 < cfg.prefixLength4Distribution) {workerId : Nat}
    (hw : workerId < cfg.forwardingWorkers) {name : Name}
    (hlen : cfg.prefixLength4Distribution ≤ name.length)
    (hfit : name.wireEncode.length < 2 ^ 64)
    (h : fibShardAccepts cfg workerId name = .ok true) :
    nameWorker cfg name = workerId := by
  have hlt := cfg.forwardingWorkers_lt
  rw [fibShardAccepts_eq hn hk workerId hlen hfit] at h
  cases hscan : localhostScan name.wireEncode (tlvHeaderLength tlv.name name.wireValue)
      (name.take cfg.prefixLength4Distribution) with
  | error e => simp [hscan, Except.map] at h
  | ok hit =>
    simp only [hscan, Except.map, Except.ok.injEq, decide_eq_true_eq] at h
    cases hit
    · simpa using h
    · simp only [if_true, dcnLocalhostPrefix] at h
      omega

/-- A prefix shorter than `k` passes the sharding test at every worker. -/
theorem fibShardAccepts_short {name : Name} (h : name.length < cfg.prefixLength4Distribution)
    (workerId : Nat) : fibShardAccepts cfg workerId name = .ok true := by
  unfold fibShardAccepts
  rw [if_neg (by omega)]
  rfl

end Shard

/-! ## Which workers keep a prefix -/

section Owner

variable {cfg : DispatchConfig} {sharding : Bool}

/-- Whether the sharding test runs on a prefix is the same at every worker, and everything else
the handlers check is too: a prefix kept without the test is kept by all. -/
theorem FibInstall.accepts_owner (hn : 0 < cfg.forwardingWorkers)
    (hk : 0 < cfg.prefixLength4Distribution) {i : FibInstall} {w : Nat}
    (hw : w < cfg.forwardingWorkers) (hfit : i.name.wireEncode.length < 2 ^ 64)
    (h : i.accepts cfg sharding w = .ok true) :
    (∀ w', i.accepts cfg sharding w' = .ok true) ∨
      (cfg.prefixLength4Distribution ≤ i.name.length ∧ nameWorker cfg i.name = w) := by
  -- the owner case is the sharding test on a long prefix; every other branch ignores `w`
  by_cases hshort : i.name.length < cfg.prefixLength4Distribution
  · left
    intro w'
    have hs : ∀ v, fibShardAccepts cfg v i.name = .ok true := fibShardAccepts_short hshort
    cases i with
    | command cmd =>
      simp only [FibInstall.accepts, processFibAdd, FibInstall.name] at h hs ⊢
      split_ifs at h ⊢ <;> first | rfl | exact hs w' | cases h
    | bulkLine faceExists name =>
      simp only [FibInstall.accepts, configBulkFibLine, FibInstall.name] at h hs ⊢
      cases sharding <;> simpa [hs] using h
  · cases sharding with
    | false =>
      left
      intro w'
      cases i <;> simpa [FibInstall.accepts, processFibAdd, configBulkFibLine] using h
    | true =>
      have hlen : cfg.prefixLength4Distribution ≤ i.name.length := by omega
      cases i with
      | command cmd =>
        simp only [FibInstall.accepts, processFibAdd, FibInstall.name] at h hlen hfit ⊢
        by_cases hnet : cmd.netName
        · left
          intro w'
          split_ifs at h ⊢ <;> first | rfl | cases h
        · split_ifs at h with hface hdepth
          · cases h
          · cases h
          · exact .inr ⟨hlen, fibShardAccepts_owner hn hk hw hlen hfit h⟩
      | bulkLine faceExists name =>
        simp only [FibInstall.accepts, configBulkFibLine, FibInstall.name] at h hlen hfit ⊢
        refine .inr ⟨hlen, fibShardAccepts_owner hn hk hw hlen hfit ?_⟩
        rw [if_neg (by omega)] at h
        cases hs : fibShardAccepts cfg w name with
        | error e => simp [hs] at h
        | ok keep => cases keep <;> simp_all

end Owner

/-! ## A worker's FIB -/

/-- The FIB a worker has after a run holds the names it had and those of the installs it
accepted. The induction is on the installs, one `Fib::insert` per accepted one. -/
theorem mem_workerFibRun {cfg : DispatchConfig} {sharding : Bool} {w : Nat}
    {ins : List FibInstall} {fib fib' : List Name}
    (h : workerFibRun cfg sharding w fib ins = .ok fib') (p : Name) :
    p ∈ fib' ↔
      p ∈ fib ∨ ∃ i ∈ ins, i.name = p ∧ i.accepts cfg sharding w = .ok true := by
  induction ins generalizing fib with
  | nil =>
    cases h
    simp
  | cons i ins ih =>
    obtain ⟨keep, hkeep, h⟩ := Except.bind_eq_ok_iff.mp h
    rw [ih h]
    cases keep
    · simp only [List.mem_cons]
      constructor
      · rintro (hp | ⟨j, hj, hjp, hja⟩)
        · exact .inl hp
        · exact .inr ⟨j, .inr hj, hjp, hja⟩
      · rintro (hp | ⟨j, rfl | hj, hjp, hja⟩)
        · exact .inl hp
        · rw [hkeep] at hja; cases hja
        · exact .inr ⟨j, hj, hjp, hja⟩
    · simp only [if_true, List.mem_insert_iff, List.mem_cons]
      constructor
      · rintro ((rfl | hp) | ⟨j, hj, hjp, hja⟩)
        · exact .inr ⟨i, .inl rfl, rfl, hkeep⟩
        · exact .inl hp
        · exact .inr ⟨j, .inr hj, hjp, hja⟩
      · rintro (hp | ⟨j, rfl | hj, hjp, hja⟩)
        · exact .inl (.inr hp)
        · exact .inl (.inl hjp.symm)
        · exact .inr ⟨j, hj, hjp, hja⟩

/-! ## The FIB an Interest is looked up in -/

/-- An Interest that arrives whole and shortest-encoded and is enqueued for worker `w` finds in
`w`'s FIB every prefix of its name that some worker's FIB holds: the longest match in `w`'s FIB
is the longest match in the union of the workers' FIBs. -/
theorem fib_longestPrefixMatch_of_dispatch {cfg : DispatchConfig}
    (hn : 0 < cfg.forwardingWorkers) (hk : 0 < cfg.prefixLength4Distribution)
    {sharding : Bool} {ins : List FibInstall} {fibs : Nat → List Name}
    (hrun : ∀ w < cfg.forwardingWorkers, workerFibRun cfg sharding w [] ins = .ok (fibs w))
    {i : Interest} {f : Framing} (hf : f.Unfragmented) {mem rest : List UInt8}
    (hmem : mem = f.wire i.wireEncode ++ rest) (hfit : mem.length < 2 ^ 64)
    {iwId q w : Nat} {fm fm' : FragmentMap}
    (hI : dcnReceivePacket cfg iwId fm mem (f.wire i.wireEncode).length =
      .ok (.enqueued q w, fm')) :
    w < cfg.forwardingWorkers ∧
      (∀ w' < cfg.forwardingWorkers, ∀ p ∈ fibs w', p <+: i.name → p ∈ fibs w) ∧
      Fib.findLongestPrefixMatch (fibs w) i.name =
        Fib.findLongestPrefixMatch ((List.range cfg.forwardingWorkers).flatMap fibs) i.name := by
  have hmemI := hmem
  rw [Interest.wireEncode_eq_netPacketWire] at hmemI hI
  obtain ⟨-, hw⟩ := dispatch_framed_enqueued hn hk (.inl rfl) i.name _ hf (.inl rfl) hmemI
    hfit hI
  have hwlt : w < cfg.forwardingWorkers := hw ▸ nameWorker_lt hn i.name
  -- the encodings of the name's prefixes are no longer than the packet
  have hnameFit : i.name.wireEncode.length < 2 ^ 64 := by
    have h1 := f.length_le_length_wire i.wireEncode
    have h2 : i.name.wireEncode.length ≤ i.wireEncode.length := by
      rw [Interest.wireEncode_eq_netPacketWire, netPacketWire, length_encodeTlv]
      simp only [List.length_append]
      omega
    have h3 : (f.wire i.wireEncode).length ≤ mem.length := by simp [hmem]
    omega
  have hheld :
      ∀ w' < cfg.forwardingWorkers, ∀ p ∈ fibs w', p <+: i.name → p ∈ fibs w := by
    intro w' hw' p hp hpre
    obtain hp' | ⟨j, hj, rfl, hja⟩ := (mem_workerFibRun (hrun w' hw') p).mp hp
    · simp at hp'
    · have hjfit := lt_of_le_of_lt (Name.length_wireEncode_le hpre) hnameFit
      rcases FibInstall.accepts_owner hn hk hw' hjfit hja with hall | ⟨hlen, hown⟩
      · exact (mem_workerFibRun (hrun w hwlt) _).mpr (.inr ⟨j, hj, rfl, hall w⟩)
      · -- a sharded prefix is kept by the worker of the names it is a prefix of
        have hww : w' = w := by
          rw [hw, ← nameWorker_eq_of_prefix hpre hlen, hown, Int.toNat_natCast]
        exact hww ▸ hp
  refine ⟨hwlt, hheld, PrefixMatch.longestPrefixMatch_congr fun p hpre _ => ?_⟩
  simp only [List.mem_flatMap, List.mem_range, decide_eq_decide]
  refine ⟨fun hp => ⟨w, hwlt, hp⟩, fun h => ?_⟩
  obtain ⟨w', hw', hp⟩ := h
  exact hheld w' hw' p hp hpre

/-- With `k = 1`, two workers and sharding, the FIB ADD for `/a` is kept by worker 0 alone, and
the bare Interest `/a` is enqueued for worker 0. -/
theorem fib_longestPrefixMatch_a :
    dcnReceivePacket ⟨1, 2, by decide⟩ 0 ∅
        (Interest.wireEncode ⟨[Component.generic [0x61]], false, false, []⟩)
        (Framing.wire .bare
          (Interest.wireEncode ⟨[Component.generic [0x61]], false, false, []⟩)).length =
      .ok (.enqueued 0 0, ∅) ∧
    (0 < 2 ∧
      (∀ w' < 2, ∀ p ∈ (if w' = 0 then [[Component.generic [0x61]]] else []),
        p <+: [Component.generic [0x61]] → p ∈ [[Component.generic [0x61]]]) ∧
      Fib.findLongestPrefixMatch [[Component.generic [0x61]]] [Component.generic [0x61]] =
        Fib.findLongestPrefixMatch ((List.range 2).flatMap fun w =>
          if w = 0 then [[Component.generic [0x61]]] else []) [Component.generic [0x61]]) :=
  have hI : dcnReceivePacket ⟨1, 2, by decide⟩ 0 ∅
      (Interest.wireEncode ⟨[Component.generic [0x61]], false, false, []⟩)
      (Framing.wire .bare
        (Interest.wireEncode ⟨[Component.generic [0x61]], false, false, []⟩)).length =
      .ok (.enqueued 0 0, ∅) := rfl
  ⟨hI, @fib_longestPrefixMatch_of_dispatch ⟨1, 2, by decide⟩ (by decide) (by decide) true
    [.command ⟨[Component.generic [0x61]], true, false⟩]
    (fun w => if w = 0 then [[Component.generic [0x61]]] else []) (by decide)
    ⟨[Component.generic [0x61]], false, false, []⟩ .bare trivial
    (Interest.wireEncode ⟨[Component.generic [0x61]], false, false, []⟩) []
    (List.append_nil _).symm (by decide) 0 0 0 ∅ ∅ hI⟩

/-- The sharded FIBs miss Interests whose name is not shortest-encoded. With `k = 1`, two
workers and sharding, the FIB ADD for `/a` is kept by worker 0 alone; the Interest whose
component `a` has its TLV-LENGTH written in three octets decodes to `/a` and is enqueued for
worker 1, whose FIB has no match where the union has `/a`. -/
theorem fib_sharding_counterexample :
    workerFibRun ⟨1, 2, by decide⟩ true 0 []
        [.command ⟨[Component.generic [0x61]], true, false⟩] =
      .ok [[Component.generic [0x61]]] ∧
    workerFibRun ⟨1, 2, by decide⟩ true 1 []
        [.command ⟨[Component.generic [0x61]], true, false⟩] = .ok [] ∧
    decodeName [0x08, 0xFD, 0x00, 0x01, 0x61] = some [Component.generic [0x61]] ∧
    (dcnReceivePacket ⟨1, 2, by decide⟩ 0 ∅
      (encodeTlv tlv.interest (encodeTlv tlv.name [0x08, 0xFD, 0x00, 0x01, 0x61])) 9).map
        Prod.fst = .ok (.enqueued 0 1) ∧
    Fib.findLongestPrefixMatch [] [Component.generic [0x61]] = none ∧
    Fib.findLongestPrefixMatch ([[Component.generic [0x61]]] ++ []) [Component.generic [0x61]] =
      some [Component.generic [0x61]] := by
  refine ⟨?_, ?_, ?_, ?_, ?_, ?_⟩ <;> decide

end MwNfd
