import MwNfd.Tlv

/-!
# Decoding an Interest and a Data (`interest.cpp`, `data.cpp`)

`GenericLinkService::decodeInterest`, `decodeNack` and `decodeData` construct an `Interest` or a
`Data` from the Block of the network packet. The constructor runs `wireDecode`, which throws
`tlv::Error` on a malformed packet; `decodeNetPacket` catches it and drops the packet. The link
service hands on the Block itself, so each decoder here says only whether it returns (`true`) or
throws (`false`).

`Interest::wireDecode` reads the Name, then each element after it against `lastElement`, the
index of the last recognized element in spec order; an unrecognized element of a critical
TLV-TYPE throws. The parameters digest is not checked: the constructor of `Nfd` turns
`Interest::setAutoCheckParametersDigest` off for the whole process. `Data::wireDecode` reads the
Name, then MetaInfo, Content, SignatureInfo and SignatureValue in that order, and needs the last
two.
-/

namespace MwNfd

namespace tlv

def canBePrefix : Nat := 33
def mustBeFresh : Nat := 18
def forwardingHint : Nat := 30
def nonce : Nat := 10
def interestLifetime : Nat := 12
def hopLimit : Nat := 34
def applicationParameters : Nat := 36
def metaInfo : Nat := 20
def content : Nat := 21
def signatureInfo : Nat := 22
def signatureValue : Nat := 23
def contentType : Nat := 24
def freshnessPeriod : Nat := 25
def finalBlockId : Nat := 26
def signatureType : Nat := 27
def keyLocator : Nat := 28
def signatureNonce : Nat := 38
def linkDelegation : Nat := 31
def linkPreference : Nat := 30
def validityPeriod : Nat := 253

/-- `tlv::isCriticalType`. -/
def isCriticalType (type : Nat) : Bool := type ≤ 31 || type % 2 == 1

end tlv

/-- `Block::parse` on an element's TLV-VALUE: its elements as (TLV-TYPE, TLV-VALUE). -/
def parseValue (value : List UInt8) : Option (List (Nat × List UInt8)) :=
  parseElements value.length value

/-- `readNonNegativeInteger` of an element's TLV-VALUE: 1, 2, 4 or 8 octets in network order. -/
def readNonNegativeInteger (value : List UInt8) : Option Nat :=
  if value.length = 1 ∨ value.length = 2 ∨ value.length = 4 ∨ value.length = 8 then
    some (Octets.beNat value)
  else none

/-! ## The elements inside an Interest and a Data -/

/-- One delegation of `DelegationList::wireDecode`: a LinkPreference that is a
NonNegativeInteger, then a Name; what follows them is not read. -/
def Delegation.wireDecode (value : List UInt8) : Bool :=
  match parseValue value with
  | some ((preference, p) :: (name, n) :: _) =>
    preference == tlv.linkPreference && (readNonNegativeInteger p).isSome &&
      name == tlv.name && (parseValue n).isSome
  | _ => false

/-- `DelegationList::wireDecode` of a ForwardingHint's TLV-VALUE: one LinkDelegation or more. -/
def DelegationList.wireDecode (value : List UInt8) : Bool :=
  match parseValue value with
  | some dels =>
    !dels.isEmpty && dels.all fun d => d.1 == tlv.linkDelegation && Delegation.wireDecode d.2
  | none => false

/-- `KeyLocator::wireDecode`: a first element that is a Name must parse; a KeyDigest or any other
element is kept as it is. -/
def KeyLocator.wireDecode (value : List UInt8) : Bool :=
  match parseValue value with
  | some ((type, name) :: _) => type != tlv.name || (parseValue name).isSome
  | some [] => true
  | none => false

/-- One element of `SignatureInfo::wireDecode`, with the index `lastCriticalElement` of the last
SignatureType or KeyLocator: the index after it, `none` where it throws. A SignatureType is a
`uint16_t`. -/
def SignatureInfo.decodeElement (lastCriticalElement : Nat) : Nat × List UInt8 → Option Nat
  | (type, value) =>
    if type = tlv.signatureType then
      if 0 < lastCriticalElement ∨ !(readNonNegativeInteger value).any (· ≤ 0xFFFF) then none
      else some 1
    else if type = tlv.keyLocator then
      if 1 < lastCriticalElement ∨ !KeyLocator.wireDecode value then none else some 2
    else if type = tlv.signatureNonce then
      if value = [] then none else some lastCriticalElement
    -- ValidityPeriod is non-critical, though its TLV-TYPE is in the critical range
    else if type = tlv.validityPeriod then some lastCriticalElement
    else if tlv.isCriticalType type then none else some lastCriticalElement

/-- `SignatureInfo::wireDecode` of a Data's SignatureInfo: its elements decode, and one of them is
the SignatureType. -/
def SignatureInfo.wireDecode (value : List UInt8) : Bool :=
  match parseValue value with
  | some elements =>
    (elements.foldlM SignatureInfo.decodeElement 0).isSome &&
      elements.any (·.1 == tlv.signatureType)
  | none => false

/-- An element of TLV-TYPE `type` that `MetaInfo::wireDecode` reads where it comes first: whether
`read` takes it, and the elements after it. -/
def MetaInfo.decodeOptional (type : Nat) (read : List UInt8 → Bool) :
    List (Nat × List UInt8) → Bool × List (Nat × List UInt8)
  | (t, v) :: elements => if t = type then (read v, elements) else (true, (t, v) :: elements)
  | [] => (true, [])

/-- The FinalBlockId as `MetaInfo::wireDecode` reads it: `Block::blockFromValue`, whose
TLV-LENGTH must match the TLV-VALUE exactly, made into a valid `Name::Component`. -/
def MetaInfo.finalBlockIdDecodes (value : List UInt8) : Bool :=
  match Block.ofBuffer value with
  | some b => b.wire.length == value.length && (Component.ofElement b.type b.value).isSome
  | none => false

/-- `MetaInfo::wireDecode`: a ContentType that fits a `uint32_t`, then a FreshnessPeriod, then a
FinalBlockId, each where it comes next; every element after them is AppMetaInfo. -/
def MetaInfo.wireDecode (value : List UInt8) : Bool :=
  match parseValue value with
  | some elements =>
    let (contentType, elements) := MetaInfo.decodeOptional tlv.contentType
      (fun v => (readNonNegativeInteger v).any (· ≤ 0xFFFFFFFF)) elements
    let (freshnessPeriod, elements) := MetaInfo.decodeOptional tlv.freshnessPeriod
      (fun v => (readNonNegativeInteger v).isSome) elements
    contentType && freshnessPeriod &&
      (MetaInfo.decodeOptional tlv.finalBlockId MetaInfo.finalBlockIdDecodes elements).1
  | none => false

/-! ## Interest and Data -/

/-- `ParametersSha256DigestComponent::match`: TLV-TYPE 2 and 32 octets. -/
def isParametersSha256Digest (component : Nat × List UInt8) : Bool :=
  component.1 == tlv.parametersSha256DigestComponent && component.2.length == 32

/-- One element after the Name in `Interest::wireDecode`, with the index `lastElement` of the last
recognized element: the index after it, `none` where it throws. -/
def Interest.decodeElement (lastElement : Nat) : Nat × List UInt8 → Option Nat
  | (type, value) =>
    if type = tlv.canBePrefix then
      if 2 ≤ lastElement ∨ value ≠ [] then none else some 2
    else if type = tlv.mustBeFresh then
      if 3 ≤ lastElement ∨ value ≠ [] then none else some 3
    else if type = tlv.forwardingHint then
      if 4 ≤ lastElement ∨ !DelegationList.wireDecode value then none else some 4
    else if type = tlv.nonce then
      if 5 ≤ lastElement ∨ value.length ≠ 4 then none else some 5
    else if type = tlv.interestLifetime then
      if 6 ≤ lastElement ∨ (readNonNegativeInteger value).isNone then none else some 6
    else if type = tlv.hopLimit then
      -- HopLimit and ApplicationParameters are non-critical: out of order, they are ignored
      if 7 ≤ lastElement then some lastElement
      else if value.length ≠ 1 then none else some 7
    else if type = tlv.applicationParameters then
      if 8 ≤ lastElement then some lastElement else some 8
    else if tlv.isCriticalType type then none else some lastElement

/-- `Interest::wireDecode`: the Name comes first and has a component, of which at most one is a
ParametersSha256DigestComponent (`findParametersDigestComponent`), and every element after it
decodes. The components themselves are not validated. -/
def Interest.wireDecode (wire : Block) : Bool :=
  wire.type == tlv.interest &&
    match parseValue wire.value with
    | some ((type, name) :: elements) =>
      type == tlv.name &&
        match parseValue name with
        | some components =>
          !components.isEmpty && decide (components.countP isParametersSha256Digest ≤ 1) &&
            (elements.foldlM Interest.decodeElement 1).isSome
        | none => false
    | _ => false

/-- One element after the Name in `Data::wireDecode`, with the index `lastElement` of the last
recognized element: the index after it, `none` where it throws. -/
def Data.decodeElement (lastElement : Nat) : Nat × List UInt8 → Option Nat
  | (type, value) =>
    if type = tlv.metaInfo then
      if 2 ≤ lastElement ∨ !MetaInfo.wireDecode value then none else some 2
    else if type = tlv.content then
      if 3 ≤ lastElement then none else some 3
    else if type = tlv.signatureInfo then
      if 4 ≤ lastElement ∨ !SignatureInfo.wireDecode value then none else some 4
    else if type = tlv.signatureValue then
      if 5 ≤ lastElement then none else some 5
    else if tlv.isCriticalType type then none else some lastElement

/-- `Data::wireDecode`: the Name comes first and parses, every element after it decodes, and
there are a SignatureInfo and a SignatureValue. -/
def Data.wireDecode (wire : Block) : Bool :=
  wire.type == tlv.data &&
    match parseValue wire.value with
    | some ((type, name) :: elements) =>
      type == tlv.name && (parseValue name).isSome &&
        (elements.foldlM Data.decodeElement 1).isSome &&
        elements.any (·.1 == tlv.signatureInfo) && elements.any (·.1 == tlv.signatureValue)
    | _ => false

end MwNfd
