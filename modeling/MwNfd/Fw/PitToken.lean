import MwNfd.Packet
import Mathlib.Logic.Function.Basic

/-!
# PIT tokens toward downstreams (`strategy.cpp`, `forwarder.cpp`)

A PIT token travels as a tag on a packet object, and packet objects are shared: the in-record of
a PIT entry keeps the Interest object it received (`InRecord::update` stores
`interest.shared_from_this()`). `Strategy::sendInterest` sends this node's own token upstream:
on a copy when the Interest carries a token, but by `setTag` on the received object itself when
it carries none. `Strategy::sendData` tags the Data for a downstream with the token of the
Interest its in-record keeps, and removes the tag when the downstream has no in-record, which
is always the case on a Content Store hit (the store is consulted only while the entry has no
in-record).

The model follows one PIT entry: the token tag of each Interest object by its id, the
entry's in-records (face and object), and the Data sent downstream with their token.

* `sendDataToAll_echo`: Data from upstream reaches each downstream with the token of the Interest
  object its in-record keeps.
* `onIncomingInterest_miss`, `onIncomingInterest_hit`: a forwarded Interest's object carries its
  own token or this node's; a Content Store hit is answered without a token.
-/

namespace MwNfd

/-- The value of an `lp::PitToken`. -/
abbrev PitToken := List UInt8

/-- The token path of one PIT entry: the PIT token tag of each Interest object, the entry's
in-records as (face, Interest object), and the Data sent downstream as (face, PIT token). -/
structure TokenState where
  tag : Nat → Option PitToken
  inRecords : List (Nat × Nat)
  sent : List (Nat × Option PitToken)

def TokenState.init : TokenState := ⟨fun _ => none, [], []⟩

/-- `Strategy::sendInterest` on the Interest object `obj` with this node's token `own`
(`ST_PIT_TOKEN`): a tagged Interest is copied and the copy is tagged, an untagged one is tagged
in place. The copy sent upstream is not followed. -/
def sendInterest (own : PitToken) (s : TokenState) (obj : Nat) : TokenState :=
  match s.tag obj with
  | some _ => s
  | none => { s with tag := Function.update s.tag obj (some own) }

/-- `Strategy::sendData` to `face`: the token of the Interest its in-record keeps, the in-record
deleted, then the Data tagged with the token, or its tag removed when there is none. -/
def sendData (s : TokenState) (face : Nat) : TokenState :=
  { s with inRecords := s.inRecords.filter (·.1 ≠ face),
           sent := s.sent ++ [(face, (s.inRecords.lookup face).bind s.tag)] }

/-- `Entry::insertOrUpdateInRecord`: the face's in-record keeps the new Interest object. -/
def insertOrUpdateInRecord (inRecords : List (Nat × Nat)) (face obj : Nat) : List (Nat × Nat) :=
  (face, obj) :: inRecords.filter (·.1 ≠ face)

/-- `Forwarder::onIncomingInterest` for an Interest object `obj` from `face` that the link
service tagged with `token`. The Content Store is searched only while the entry has no
in-record; on a hit (`csHit`), `onContentStoreHit` tags the Data with the Interest's token and
the strategy's `sendData` replaces it. On a miss the in-record is updated and, when the
strategy forwards (`forward`), `sendInterest` runs on the same object. -/
def onIncomingInterest (own : PitToken) (s : TokenState) (face obj : Nat)
    (token : Option PitToken) (csHit forward : Bool) : TokenState :=
  let s := { s with tag := Function.update s.tag obj token }
  if s.inRecords = [] ∧ csHit then sendData s face
  else
    let s := { s with inRecords := insertOrUpdateInRecord s.inRecords face obj }
    if forward then sendInterest own s obj else s

/-- `Strategy::sendDataToAll` for Data from `inFace`: `sendData` to every downstream with an
in-record, except `inFace` itself. -/
def sendDataToAll (s : TokenState) (inFace : Nat) : TokenState :=
  ((s.inRecords.map (·.1)).filter (· ≠ inFace)).eraseDups.foldl sendData s

/-- What happens to the PIT entry: an Interest arrives, or Data from upstream. -/
inductive TokenEvent where
  | interest (face obj : Nat) (token : Option PitToken) (csHit forward : Bool)
  | data (face : Nat)

def tokenStep (own : PitToken) (s : TokenState) : TokenEvent → TokenState
  | .interest face obj token csHit forward => onIncomingInterest own s face obj token csHit forward
  | .data face => sendDataToAll s face

def tokenRun (own : PitToken) (es : List TokenEvent) : TokenState :=
  es.foldl (tokenStep own) TokenState.init

/-! ## What a downstream gets back -/

private theorem lookup_filter_ne {l : List (Nat × Nat)} {a g : Nat} (h : a ≠ g) :
    (l.filter (·.1 ≠ g)).lookup a = l.lookup a := by
  induction l with
  | nil => rfl
  | cons p l ih =>
    obtain ⟨x, y⟩ := p
    by_cases hx : x = g
    · subst hx
      have hax : (a == x) = false := by simpa using h
      rw [List.filter_cons_of_neg (by simp), ih, List.lookup_cons, hax]
    · rw [List.filter_cons_of_pos (by simpa using hx)]
      simp only [List.lookup_cons]
      rw [ih]

private theorem mem_of_lookup_eq_some {l : List (Nat × Nat)} {a b : Nat}
    (h : l.lookup a = some b) : (a, b) ∈ l := by
  induction l with
  | nil => simp at h
  | cons p l ih =>
    obtain ⟨x, y⟩ := p
    by_cases hx : a = x
    · subst hx
      simp only [List.lookup_cons, beq_self_eq_true, Option.some.injEq] at h
      simp [h]
    · have hax : (a == x) = false := by simpa using hx
      simp only [List.lookup_cons, hax] at h
      exact List.mem_cons_of_mem _ (ih h)

/-- Data sent downstream stays sent. -/
theorem sent_subset_foldl_sendData (L : List Nat) {s : TokenState} {x : Nat × Option PitToken}
    (hx : x ∈ s.sent) : x ∈ (L.foldl sendData s).sent := by
  induction L generalizing s with
  | nil => exact hx
  | cons g L ih => exact ih (List.mem_append_left _ hx)

/-- Serving the downstream faces `L` in turn, each face of `L` gets the token of the Interest
object its in-record held before: serving another face deletes only that face's in-record and
changes no tag. The induction is on `L`. -/
theorem mem_sent_foldl_sendData {L : List Nat} {f : Nat} (hf : f ∈ L) (s : TokenState) :
    (f, (s.inRecords.lookup f).bind s.tag) ∈ (L.foldl sendData s).sent := by
  induction L generalizing s with
  | nil => cases hf
  | cons g L ih =>
    rw [List.foldl_cons]
    by_cases hg : g = f
    · subst hg
      exact sent_subset_foldl_sendData L (List.mem_append_right _ (List.mem_singleton_self _))
    · have hfL : f ∈ L := (List.mem_cons.mp hf).resolve_left (Ne.symm hg)
      have hlook : (sendData s g).inRecords.lookup f = s.inRecords.lookup f :=
        lookup_filter_ne (Ne.symm hg)
      have h := ih hfL (sendData s g)
      rw [hlook] at h
      exact h

/-- Data from upstream face `inFace` reaches every other downstream with an in-record with the
token of the Interest object that in-record keeps. -/
theorem sendDataToAll_echo {s : TokenState} {f inFace obj : Nat} (hf : f ≠ inFace)
    (hrec : s.inRecords.lookup f = some obj) :
    (f, s.tag obj) ∈ (sendDataToAll s inFace).sent := by
  have hmem : f ∈ ((s.inRecords.map (·.1)).filter (· ≠ inFace)).eraseDups := by
    rw [List.mem_eraseDups, List.mem_filter, List.mem_map]
    exact ⟨⟨(f, obj), mem_of_lookup_eq_some hrec, rfl⟩, by simpa using hf⟩
  have h := mem_sent_foldl_sendData hmem s
  rw [hrec, Option.bind_some] at h
  exact h

/-- An Interest that misses the Content Store and is forwarded: its face's in-record keeps the
object, which carries its own token, or this node's token if it had none. -/
theorem onIncomingInterest_miss {own : PitToken} {s : TokenState} {face obj : Nat}
    {token : Option PitToken} {csHit : Bool} (hmiss : s.inRecords ≠ [] ∨ csHit = false) :
    (onIncomingInterest own s face obj token csHit true).inRecords.lookup face = some obj ∧
      (onIncomingInterest own s face obj token csHit true).tag obj = token.or (some own) := by
  have hnot : ¬ (s.inRecords = [] ∧ csHit = true) := by
    rintro ⟨hnil, hhit⟩
    rcases hmiss with h | h
    · exact h hnil
    · simp [h] at hhit
  unfold onIncomingInterest sendInterest
  simp only [if_neg hnot, if_true, Function.update_self]
  -- a token it carried stays, and an untagged object gets this node's
  cases token <;> simp [insertOrUpdateInRecord]

/-- An Interest that the Content Store answers: the entry has no in-record, so the Data goes
back without a token. -/
theorem onIncomingInterest_hit {own : PitToken} {s : TokenState} (hnil : s.inRecords = [])
    (face obj : Nat) (token : Option PitToken) (forward : Bool) :
    (onIncomingInterest own s face obj token true forward).sent = s.sent ++ [(face, none)] := by
  unfold onIncomingInterest sendData
  simp [hnil]

/-- The token a downstream gets back is not the one its Interest carried. A forwarded Interest
that carried no token is answered with this node's own token, from any state of the entry; an
Interest the Content Store answers gets no token, whatever it carried. -/
theorem pitToken_not_echoed (own : PitToken) :
    (∀ (s : TokenState) (face obj up : Nat) (csHit : Bool), up ≠ face →
      (s.inRecords ≠ [] ∨ csHit = false) →
      (face, some own) ∈
        (sendDataToAll (onIncomingInterest own s face obj none csHit true) up).sent) ∧
    (∀ (s : TokenState) (face obj : Nat) (token : Option PitToken) (forward : Bool),
      s.inRecords = [] →
      (onIncomingInterest own s face obj token true forward).sent = s.sent ++ [(face, none)]) := by
  refine ⟨fun s face obj up csHit hup hmiss => ?_,
    fun s face obj token forward hnil => onIncomingInterest_hit hnil face obj token forward⟩
  obtain ⟨hrec, htag⟩ := @onIncomingInterest_miss own s face obj none csHit hmiss
  simpa [htag] using sendDataToAll_echo (Ne.symm hup) hrec

/-- Downstream face 1 and upstream face 2 on a fresh entry, this node's token `[0, 1]`: the
untagged Interest's Data carries `[0, 1]`, and the Interest with token `[0xA0]` that the
Content Store answers gets Data without a token. -/
theorem pitToken_not_echoed_face1 :
    (1, some [0, 1]) ∈
      (sendDataToAll (onIncomingInterest [0, 1] TokenState.init 1 0 none false true) 2).sent ∧
    (onIncomingInterest [0, 1] TokenState.init 1 0 (some [0xA0]) true false).sent =
      [] ++ [(1, none)] :=
  ⟨(pitToken_not_echoed [0, 1]).1 TokenState.init 1 0 2 false (by decide) (.inr rfl),
    (pitToken_not_echoed [0, 1]).2 TokenState.init 1 0 (some [0xA0]) false rfl⟩

end MwNfd
