import MwNfd.NameOrder

/-!
# Finding a registered strategy (`strategy.cpp`)

`Strategy::getRegistry()` is a `std::map<Name, CreateFunc>` from strategy names, each ending with
a version component, to their constructors; a list of the names in the map's order stands for
it. `Strategy::find(instanceName)` splits the instance name at its last version component after
the first component (`parseInstanceName`). With a version it takes the first registered name from
the requested one on (`lower_bound`), if that name is of the same strategy; without one it takes
the last registered name before the successor of the requested name, if the requested name is a
prefix of it.

Whether a component is a version depends on the decoding convention of `name-component.cpp`:
a `GenericNameComponent` with the marker 0xFD, or a `VersionNameComponent`.

* `Strategy.find_unversioned`: without a version, `find` returns the greatest registered name
  under the instance name: its highest registered version.
* `Strategy.find_versioned`: with a version, the least registered name of the same strategy that
  is not below the requested version.
-/

namespace MwNfd

/-- `name::Convention`: the encodings of numbers in name components that decoding accepts. -/
inductive Convention where
  | marker
  | typed
  | either
  deriving DecidableEq

/-- `canDecodeMarkerConvention()`. -/
def Convention.canDecodeMarker : Convention → Bool
  | .marker | .either => true
  | .typed => false

/-- `canDecodeTypedConvention()`. -/
def Convention.canDecodeTyped : Convention → Bool
  | .typed | .either => true
  | .marker => false

/-- `tlv::VersionNameComponent`. -/
def tlv.versionNameComponent : Nat := 35

/-- `name::VERSION_MARKER`. -/
def versionMarker : UInt8 := 0xFD

namespace Component

/-- `Component::isNumber`: a value of a NonNegativeInteger's length. -/
def isNumber (c : Component) : Bool :=
  c.value.length = 1 || c.value.length = 2 || c.value.length = 4 || c.value.length = 8

/-- `Component::isNumberWithMarker`: the marker octet, then a NonNegativeInteger. -/
def isNumberWithMarker (marker : UInt8) (c : Component) : Bool :=
  (c.value.length = 2 || c.value.length = 3 || c.value.length = 5 || c.value.length = 9) &&
    c.value.head? = some marker

/-- `Component::isVersion`. -/
def isVersion (conv : Convention) (c : Component) : Bool :=
  (conv.canDecodeMarker && c.type = tlv.genericNameComponent &&
      c.isNumberWithMarker versionMarker) ||
    (conv.canDecodeTyped && c.type = tlv.versionNameComponent && c.isNumber)

/-- `Component::toVersion`; `none` where it throws. -/
def toVersion (conv : Convention) (c : Component) : Option Nat :=
  if conv.canDecodeMarker && c.type = tlv.genericNameComponent then
    if c.isNumberWithMarker versionMarker then some (Octets.beNat (c.value.drop 1)) else none
  else if conv.canDecodeTyped && c.type = tlv.versionNameComponent then
    if c.isNumber then some (Octets.beNat c.value) else none
  else none

/-- A version component has a version. -/
theorem isSome_toVersion {conv : Convention} {c : Component} (h : c.isVersion conv = true) :
    (c.toVersion conv).isSome := by
  unfold isVersion at h
  unfold toVersion
  cases hm : (conv.canDecodeMarker && decide (c.type = tlv.genericNameComponent)) with
  | true =>
    -- a generic component is not a `VersionNameComponent`: the marker decides
    have ht : decide (c.type = tlv.versionNameComponent) = false := by
      simp only [Bool.and_eq_true, decide_eq_true_eq] at hm
      simp [hm.2, tlv.versionNameComponent, tlv.genericNameComponent]
    rw [hm, Bool.true_and, ht, Bool.and_false, Bool.false_and, Bool.or_false] at h
    simp [h]
  | false =>
    rw [hm, Bool.false_and, Bool.false_or] at h
    simp only [Bool.and_eq_true] at h
    simp [h]

end Component

/-- `Strategy::ParsedInstanceName`. -/
structure ParsedInstanceName where
  strategyName : Name
  version : Option Nat
  parameters : Name

/-- The loop of `Strategy::parseInstanceName`, from position `i` down to position 1: the name
split after its last version component. -/
def parseInstanceNameFrom (conv : Convention) (input : Name) : Nat → ParsedInstanceName
  | 0 => ⟨input, none, []⟩
  | i + 1 =>
    match input[i + 1]? with
    | some c =>
      if c.isVersion conv then ⟨input.take (i + 2), c.toVersion conv, input.drop (i + 2)⟩
      else parseInstanceNameFrom conv input i
    | none => parseInstanceNameFrom conv input i

/-- `Strategy::parseInstanceName`. -/
def parseInstanceName (conv : Convention) (input : Name) : ParsedInstanceName :=
  parseInstanceNameFrom conv input (input.length - 1)

namespace Strategy

/-- `Registry::lower_bound(name)`: the position of the first registered name that is not below
`name`, `operator<` being `compare(other) < 0`. -/
def lowerBound (viaWire : Bool) (registry : List Name) (name : Name) : Nat :=
  registry.findIdx fun key => !decide (Name.compare viaWire key name < 0)

/-- `Strategy::find(instanceName)`: the registered strategy name the instance name selects;
`none` is `registry.end()`, and also where `getSuccessor` throws. -/
def find (viaWire : Bool) (conv : Convention) (registry : List Name) (instanceName : Name) :
    Option Name :=
  let parsed := parseInstanceName conv instanceName
  if parsed.version.isSome then
    -- specified version: find exact or next higher version
    let found := lowerBound viaWire registry parsed.strategyName
    registry[found]?.filter (parsed.strategyName.dropLast.isPrefixOf ·)
  -- no version specified: find highest version
  else if parsed.strategyName ≠ [] then
    match Name.getSuccessor parsed.strategyName with
    | some successor =>
      let found := lowerBound viaWire registry successor
      -- `found != registry.begin()`, then `--found`
      if found = 0 then none
      else registry[found - 1]?.filter (parsed.strategyName.isPrefixOf ·)
    | none => none
  else none

/-- `Strategy::areSameType(instanceNameA, instanceNameB)`: the two names find the same registered
strategy. -/
def areSameType (viaWire : Bool) (conv : Convention) (registry : List Name)
    (instanceNameA instanceNameB : Name) : Bool :=
  find viaWire conv registry instanceNameA == find viaWire conv registry instanceNameB

theorem areSameType_self (viaWire : Bool) (conv : Convention) (registry : List Name)
    (instanceName : Name) : areSameType viaWire conv registry instanceName instanceName = true := by
  simp [areSameType]

end Strategy

/-! ## Parsing an instance name -/

section Parse

variable {conv : Convention}

/-- What the loop returns from position `i`: the whole name without a version, or the name up
to a version component at a position from 1 to `i`. -/
theorem parseInstanceNameFrom_cases (input : Name) {i : Nat} (hi : i < input.length ∨ i = 0) :
    (parseInstanceNameFrom conv input i).version = none ∧
        (parseInstanceNameFrom conv input i).strategyName = input ∨
      (parseInstanceNameFrom conv input i).version.isSome ∧ ∃ k, 1 ≤ k ∧ k < input.length ∧
        (parseInstanceNameFrom conv input i).strategyName = input.take (k + 1) := by
  induction i with
  | zero => exact .inl ⟨rfl, rfl⟩
  | succ i ih =>
    have hlt : i + 1 < input.length := by omega
    have ih' := ih (.inl (by omega))
    rw [parseInstanceNameFrom, List.getElem?_eq_getElem hlt]
    dsimp only
    split_ifs with hv
    · -- a version component at position `i + 1`
      exact .inr ⟨Component.isSome_toVersion hv, i + 1, by omega, hlt, rfl⟩
    · exact ih'

theorem parseInstanceName_cases (input : Name) :
    (parseInstanceName conv input).version = none ∧
        (parseInstanceName conv input).strategyName = input ∨
      (parseInstanceName conv input).version.isSome ∧ ∃ k, 1 ≤ k ∧ k < input.length ∧
        (parseInstanceName conv input).strategyName = input.take (k + 1) :=
  parseInstanceNameFrom_cases input (by omega)

theorem strategyName_of_version_eq_none {input : Name}
    (hv : (parseInstanceName conv input).version = none) :
    (parseInstanceName conv input).strategyName = input := by
  rcases @parseInstanceName_cases conv input with ⟨_, h⟩ | ⟨h, _⟩
  · exact h
  · rw [hv] at h
    cases h

theorem Name.Fits.take {n : Name} (h : n.Fits) (i : Nat) : Name.Fits (n.take i) :=
  ⟨Nat.lt_of_le_of_lt (List.length_take_le' i n) h.1, fun c hc => h.2 c (List.mem_of_mem_take hc)⟩

/-- The strategy name is a prefix of the instance name, so it fits when the instance name does. -/
theorem fits_strategyName {input : Name} (h : input.Fits) :
    Name.Fits (parseInstanceName conv input).strategyName := by
  rcases @parseInstanceName_cases conv input with ⟨_, hs⟩ | ⟨_, k, _, _, hs⟩
  · rw [hs]
    exact h
  · rw [hs]
    exact h.take (k + 1)

end Parse

/-! ## Finding a strategy -/

namespace Strategy

section Find

variable {w : Bool} {conv : Convention} {registry : List Name}

/-- A registry in the map's order is sorted in the canonical order of names. -/
theorem pairwise_le (hsorted : registry.Pairwise fun a b => Name.compare w a b < 0)
    (hfits : ∀ k ∈ registry, k.Fits) : registry.Pairwise fun a b => a ≤ b :=
  List.Pairwise.imp_of_mem (fun ha hb h =>
    ((Name.isCompare_compare w (hfits _ ha) (hfits _ hb)).neg_iff.mp h).le) hsorted

/-- The test `lower_bound` runs is the canonical order. -/
theorem lowerBound_test_iff (hfits : ∀ k ∈ registry, k.Fits) {t : Name} (ht : t.Fits) :
    ∀ k ∈ registry, decide (Name.compare w k t < 0) = true ↔ k < t :=
  fun k hk => decide_eq_true_iff.trans (Name.isCompare_compare w (hfits k hk) ht).neg_iff

/-- With a version, `find` takes the name at `lower_bound` of the strategy name. -/
theorem find_of_version_isSome {n : Name} (hv : (parseInstanceName conv n).version.isSome) :
    find w conv registry n =
      registry[lowerBound w registry (parseInstanceName conv n).strategyName]?.filter
        ((parseInstanceName conv n).strategyName.dropLast.isPrefixOf ·) := by
  simp only [find, hv, if_true]

/-- Without a version, `find` takes the last name below `lower_bound` of the successor. -/
theorem find_of_version_eq_none {n s : Name} (hv : (parseInstanceName conv n).version = none)
    (hn : n ≠ []) (hs : Name.getSuccessor n = some s) :
    find w conv registry n =
      (registry.take (lowerBound w registry s)).getLast?.filter (n.isPrefixOf ·) := by
  rw [@LexOrder.getLast?_take_of_le _ registry (lowerBound w registry s) List.findIdx_le_length]
  simp only [find, hv, strategyName_of_version_eq_none hv, hs, Option.isSome_none,
    Bool.false_eq_true, if_false, ne_eq, hn, not_false_eq_true, if_true]
  split_ifs <;> rfl

/-- Without a version, `find` returns the greatest registered name under the instance name: its
highest version. -/
theorem find_unversioned {n : Name}
    (hsorted : registry.Pairwise fun a b => Name.compare w a b < 0)
    (hfits : ∀ k ∈ registry, k.Fits) (hv : (parseInstanceName conv n).version = none)
    (hn : n ≠ []) (hnl : n.length < 2 ^ 31) (hnv : ∀ c ∈ n, c.value.length + 1 < 2 ^ 31) :
    find w conv registry n = (registry.filter (n.isPrefixOf ·)).getLast? := by
  obtain ⟨s, hs⟩ := Option.isSome_iff_exists.mp
    (Name.isSome_getSuccessor fun c hc => by have := hnv c hc; omega)
  have hsfits := Name.fits_getSuccessor hnl hnv hs hn
  -- the names under `n` are those from `n` up to its successor
  have hunder := Name.prefix_iff_of_getSuccessor hn hs
  have hns : n ≤ s := ((hunder n).mpr (List.prefix_refl n)).2.le
  have hl := pairwise_le hsorted hfits
  rw [find_of_version_eq_none hv hn hs, lowerBound,
    LexOrder.findIdx_not_eq_of_iff (fun k : Name => k) (lowerBound_test_iff hfits hsfits),
    LexOrder.findIdx_eq_length_filter _ hl, LexOrder.take_length_filter _ hl,
    LexOrder.filter_lt_eq_append _ hl hns, LexOrder.getLast?_append_filter]
  · congr 1
    refine List.filter_congr fun k _ => ?_
    rw [Bool.eq_iff_iff, List.isPrefixOf_iff_prefix, ← hunder k]
    simp only [decide_eq_true_eq]
  · -- a name below `n` is not under it
    intro k hk
    have hkn : k < n := by simpa only [decide_eq_true_eq] using (List.mem_filter.mp hk).2
    exact Bool.eq_false_iff.mpr fun h =>
      LexOrder.not_lt_of_isPrefix (List.isPrefixOf_iff_prefix.mp h) hkn
  · intro k hk
    have hk' : n ≤ k ∧ k < s := by simpa only [decide_eq_true_eq] using (List.mem_filter.mp hk).2
    exact List.isPrefixOf_iff_prefix.mpr ((hunder k).mp hk')

/-- A registry of /s at versions 1 and 2 and /t at version 1, searched for /s. -/
theorem find_unversioned_s :
    find false .either
        [[Component.generic [0x73], Component.generic [0xFD, 1]],
          [Component.generic [0x73], Component.generic [0xFD, 2]],
          [Component.generic [0x74], Component.generic [0xFD, 1]]]
        [Component.generic [0x73]] =
      ([[Component.generic [0x73], Component.generic [0xFD, 1]],
          [Component.generic [0x73], Component.generic [0xFD, 2]],
          [Component.generic [0x74], Component.generic [0xFD, 1]]].filter
        ([Component.generic [0x73]].isPrefixOf ·)).getLast? :=
  find_unversioned (by decide) (by decide) rfl (by simp) (by decide) (by decide)

/-- With a version, `find` returns the least registered name of the same strategy that is not
below the requested version. -/
theorem find_versioned {n sn params : Name} {v : Nat}
    (hsorted : registry.Pairwise fun a b => Name.compare w a b < 0)
    (hfits : ∀ k ∈ registry, k.Fits) (hn : n.Fits)
    (hp : parseInstanceName conv n = ⟨sn, some v, params⟩) :
    find w conv registry n =
      (registry.filter fun k => sn.dropLast.isPrefixOf k && decide (sn ≤ k)).head? := by
  have hsn : sn.Fits := by
    have := @fits_strategyName conv n hn
    rwa [hp] at this
  have hl := pairwise_le hsorted hfits
  rw [find_of_version_isSome (by rw [hp]; rfl), hp]
  dsimp only
  rw [lowerBound, LexOrder.findIdx_not_eq_of_iff (fun k : Name => k) (lowerBound_test_iff hfits hsn),
    ← List.head?_drop, LexOrder.drop_findIdx _ hl, LexOrder.head?_filter_of_first, List.filter_filter]
  -- the names under `sn.dropLast` form an interval: if any name from `sn` on is in it, the
  -- first one is
  intro x hx y hy hPy
  obtain ⟨rest, hrest⟩ := List.head?_eq_some_iff.mp hx
  have hsorted' := hl.filter fun k => decide (sn ≤ k)
  have hxmem : x ∈ registry.filter fun k => decide (sn ≤ k) := by
    rw [hrest]
    exact List.mem_cons_self
  have hsx : sn ≤ x := by simpa only [decide_eq_true_eq] using (List.mem_filter.mp hxmem).2
  rw [hrest] at hsorted' hy
  exact List.isPrefixOf_iff_prefix.mpr (LexOrder.isPrefix_of_le_of_le (List.dropLast_prefix sn)
    (List.isPrefixOf_iff_prefix.mp hPy) hsx (LexOrder.le_of_mem_cons (fun k : Name => k) hsorted' hy))

/-- The same registry, searched for /s at version 1 with the parameter /x. -/
theorem find_versioned_s :
    find false .either
        [[Component.generic [0x73], Component.generic [0xFD, 1]],
          [Component.generic [0x73], Component.generic [0xFD, 2]],
          [Component.generic [0x74], Component.generic [0xFD, 1]]]
        [Component.generic [0x73], Component.generic [0xFD, 1], Component.generic [0x78]] =
      ([[Component.generic [0x73], Component.generic [0xFD, 1]],
          [Component.generic [0x73], Component.generic [0xFD, 2]],
          [Component.generic [0x74], Component.generic [0xFD, 1]]].filter
        fun k => [Component.generic [0x73], Component.generic [0xFD, 1]].dropLast.isPrefixOf k &&
          decide ([Component.generic [0x73], Component.generic [0xFD, 1]] ≤ k)).head? :=
  find_versioned (by decide) (by decide) (by decide) rfl

end Find

end Strategy

end MwNfd
