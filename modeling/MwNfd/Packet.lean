import MwNfd.Tlv

/-!
# Interest, Data and NDNLPv2 packets

The network-layer packets as the dispatcher and the forwarder use them. An Interest and a Data
are kept with the fields `Interest::matchesData` reads; their wire encodings
(`Interest::wireEncode`, `Data::wireEncode`) start with the Name element, and the fields the
dispatcher never reads are kept as their encoding. `Data::getFullName` appends the SHA-256 digest
of the Data's encoding, which ndn-cxx computes with OpenSSL: the digest function is a parameter.

An NDNLPv2 packet (`lp::Packet`) is a list of header fields and an optional fragment, encoded as
`GenericLinkService` and `LpFragmenter` emit it: `Sequence` is an 8-octet fixed-width number,
`FragIndex` and `FragCount` are NonNegativeIntegers, and a PIT token is the packed
`ST_PIT_TOKEN` that `Strategy::sendInterest` fills in.
-/

namespace MwNfd

/-! ## Interest and Data -/

/-- A SHA-256 digest: 32 octets. -/
def Sha256Digest := {v : List UInt8 // v.length = 32}

/-- An `ImplicitSha256DigestComponent`. -/
def Component.ofDigest (d : Sha256Digest) : Component :=
  ⟨tlv.implicitSha256DigestComponent, d.1, by decide, by decide, fun _ => d.2, by
    rw [d.2]; decide⟩

/-- The fields of an Interest that matching reads, and the encoding of the others (Nonce,
InterestLifetime, HopLimit, ApplicationParameters, ...). -/
structure Interest where
  name : Name
  canBePrefix : Bool
  mustBeFresh : Bool
  otherFields : List UInt8
  deriving DecidableEq

/-- The fields of a Data that matching reads; `otherFields` is the encoding of the elements
after the Name (MetaInfo, Content, SignatureInfo, SignatureValue). -/
structure Data where
  name : Name
  freshnessPeriod : Nat
  otherFields : List UInt8
  deriving DecidableEq

/-- `Interest::wireEncode`: Name, CanBePrefix, MustBeFresh, then the other fields. -/
def Interest.wireEncode (i : Interest) : List UInt8 :=
  encodeTlv tlv.interest (i.name.wireEncode ++ (if i.canBePrefix then encodeTlv 33 [] else []) ++
    (if i.mustBeFresh then encodeTlv 18 [] else []) ++ i.otherFields)

/-- `Data::wireEncode`. -/
def Data.wireEncode (d : Data) : List UInt8 :=
  encodeTlv tlv.data (d.name.wireEncode ++ d.otherFields)

/-- `Data::getFullName`: the name with the implicit digest of the Data's encoding appended. -/
def Data.fullName (sha256 : List UInt8 → Sha256Digest) (d : Data) : Name :=
  d.name ++ [Component.ofDigest (sha256 d.wireEncode)]

/-- Whether a name ends with an `ImplicitSha256DigestComponent`. -/
def Name.isFullName (n : Name) : Bool :=
  (n.getLast?.map Component.isImplicitSha256Digest).getD false

/-- `Interest::matchesData`. A freshness period of at most 0 ms is a period of 0. -/
def Interest.matchesData (sha256 : List UInt8 → Sha256Digest) (i : Interest) (d : Data) :
    Bool :=
  let interestNameLength := i.name.length
  let fullNameLength := d.name.length + 1
  let nameMatches :=
    if interestNameLength = fullNameLength then
      match i.name.getLast? with
      | some last => last.isImplicitSha256Digest && i.name == d.fullName sha256
      | none => false
    else if i.canBePrefix then i.name.isPrefixOf d.name else i.name == d.name
  nameMatches && !(i.mustBeFresh && d.freshnessPeriod = 0)

/-- What a match says about the two names: the same name, the Interest's name a prefix of the
Data's under CanBePrefix, or the Data's full name. -/
theorem Interest.matchesData_name {sha256 : List UInt8 → Sha256Digest} {i : Interest} {d : Data}
    (h : i.matchesData sha256 d = true) :
    i.name = d.name ∨ i.name <+: d.name ∨ i.name = d.fullName sha256 := by
  simp only [Interest.matchesData, Bool.and_eq_true, Bool.not_eq_true'] at h
  obtain ⟨hname, -⟩ := h
  split at hname
  · split at hname
    · simp only [Bool.and_eq_true, beq_iff_eq] at hname
      exact .inr (.inr hname.2)
    · exact absurd hname (by simp)
  · split at hname
    · exact .inr (.inl (List.isPrefixOf_iff_prefix.mp hname))
    · exact .inl (by simpa using hname)

/-- A matching Interest and Data agree on their first `k` name components whenever both names
have `k` components or both have fewer. -/
theorem Interest.take_name_of_matchesData {sha256 : List UInt8 → Sha256Digest} {i : Interest}
    {d : Data} (h : i.matchesData sha256 d = true) {k : Nat}
    (hlen : k ≤ i.name.length ↔ k ≤ d.name.length) (hk : k ≤ i.name.length) :
    i.name.take k = d.name.take k := by
  rcases Interest.matchesData_name h with heq | hpre | hfull
  · rw [heq]
  · -- CanBePrefix: the Interest's name is a prefix of the Data's of at least `k` components
    rw [List.prefix_iff_eq_take.mp hpre, List.take_take, Nat.min_eq_left hk]
  · -- the full name: the digest comes after the first `k` components of the Data's name
    rw [hfull, Data.fullName, List.take_append_of_le_length (hlen.mp hk)]

/-- Under CanBePrefix and without MustBeFresh, an Interest matches every Data below its name. -/
theorem Interest.matchesData_of_prefix {sha256 : List UInt8 → Sha256Digest} {i : Interest}
    {d : Data} (hcbp : i.canBePrefix = true) (hfresh : i.mustBeFresh = false)
    (hpre : i.name <+: d.name) : i.matchesData sha256 d = true := by
  -- a prefix is never as long as the full name, so the digest branch is not taken
  have hlen : i.name.length ≠ d.name.length + 1 := by
    have := hpre.length_le
    omega
  simp [Interest.matchesData, hlen, hcbp, hfresh, List.isPrefixOf_iff_prefix.mpr hpre]

/-! ## NDNLPv2 -/

/-- The NonNegativeInteger encoding (`prependNonNegativeInteger`): 1, 2, 4 or 8 octets. -/
def nonNegativeInteger (n : Nat) : List UInt8 :=
  if n ≤ 0xFF then Octets.beBytes 1 n
  else if n ≤ 0xFFFF then Octets.beBytes 2 n
  else if n ≤ 0xFFFFFFFF then Octets.beBytes 4 n
  else Octets.beBytes 8 n

theorem nonNegativeInteger_of_lt {n : Nat} (h : n < 256) : nonNegativeInteger n = [n.toUInt8] := by
  simp [nonNegativeInteger, show n ≤ 0xFF by omega, Octets.beBytes, Nat.mod_eq_of_lt h]

/-- The packed `ST_PIT_TOKEN` as it lies in memory: `workerId`, `CanBePrefix`, then the
`uint64_t` name hash least significant octet first. -/
def pitTokenValue (workerId canBePrefix : UInt8) (hashValue : UInt64) : List UInt8 :=
  workerId :: canBePrefix :: (Octets.beBytes 8 hashValue.toNat).reverse

/-- A header field of an `LpPacket`. `field` is any other header field (Nack, NextHopFaceId,
CachePolicy, IncomingFaceId, CongestionMark, Ack, TxSequence, NonDiscovery,
PrefixAnnouncement), kept as its TLV-TYPE and TLV-VALUE. -/
inductive LpHeader where
  | sequence (seq : UInt64)
  | fragIndex (index : Nat)
  | fragCount (count : Nat)
  | pitToken (token : List UInt8)
  | field (type : Nat) (value : List UInt8)
  deriving DecidableEq

/-- The element of a header field. -/
def LpHeader.wire : LpHeader → List UInt8
  | .sequence seq => encodeTlv lp.tlv.sequence (Octets.beBytes 8 seq.toNat)
  | .fragIndex index => encodeTlv lp.tlv.fragIndex (nonNegativeInteger index)
  | .fragCount count => encodeTlv lp.tlv.fragCount (nonNegativeInteger count)
  | .pitToken token => encodeTlv lp.tlv.pitToken token
  | .field type value => encodeTlv type value

/-- `lp::Packet::wireEncode`: the header fields in order, then the Fragment if there is one. -/
def lpPacketWire (headers : List LpHeader) (fragment : Option (List UInt8)) : List UInt8 :=
  encodeTlv lp.tlv.lpPacket
    ((headers.map LpHeader.wire).flatten ++ (fragment.map (encodeTlv lp.tlv.fragment)).getD [])

end MwNfd
