import Intranet.Ref.Dec
import Intranet.Ref.Join

/-!
# Invites and join requests on the wire

`wire.rs` of the invite crate. The addresses of an invite are written with the
ending they all share factored out. It is found byte by byte and then backed
off to where a character starts in every address. The addresses are cut there,
and a cut inside a character panics: `none` here.
-/

namespace Intranet

/-- Why a join message could not be turned into a value. -/
inductive JoinWireError where
  | malformed (err : DecodeError)
  | invalidKey
  | badSignature
  | tooLarge (what : String) (got limit : ℕ)
  | unknownVariant (what : String) (got : UInt8)
deriving DecidableEq

instance : FromDecodeError JoinWireError := ⟨.malformed⟩

/-- `MAX_BOOTSTRAP_ADDRESSES`. -/
def maxBootstrapAddresses : ℕ := 32

/-- `MAX_ADDRESS_BYTES`. -/
def maxAddressBytes : ℕ := 256

namespace InviteWire

/-! ## Slices -/

/-- The bytes of a string. -/
def bytesOf (s : String) : List UInt8 := s.toByteArray.data.toList

/-- `is_char_boundary`: the start of a character, or the end. -/
def isCharBoundary (s : String) (index : ℕ) : Bool :=
  String.Pos.Raw.isValid s ⟨index⟩

/-- `&s[..index]`. -/
def sliceTo (s : String) (index : ℕ) : Option String :=
  if h : (⟨index⟩ : String.Pos.Raw).IsValid s then
    some ⟨s.toByteArray.extract 0 index, h.isValidUTF8_extract_zero⟩
  else none

/-- `&s[index..]`. -/
def sliceFrom (s : String) (index : ℕ) : Option String :=
  if h : (⟨index⟩ : String.Pos.Raw).IsValid s then
    some ⟨s.toByteArray.extract index s.utf8ByteSize,
      h.isValidUTF8_extract_utf8ByteSize⟩
  else none

/-! ## Addresses -/

/-- How many bytes two strings share at the end. -/
def shared (first address : String) : ℕ :=
  (((bytesOf first).reverse.zip (bytesOf address).reverse).takeWhile
    fun pair => pair.1 == pair.2).length

/-- The loop of `common_suffix`: back to a boundary of every address. -/
def backOff (addresses : List String) : ℕ → ℕ
  | 0 => 0
  | length + 1 =>
      if addresses.all fun address =>
          isCharBoundary address (address.utf8ByteSize - (length + 1)) then
        length + 1
      else backOff addresses length

/-- The longest string every one of these ends with. -/
def commonSuffix : List String → Option String
  | [] => some ""
  | first :: rest =>
      let length := rest.foldl
        (fun shortest address => min shortest (shared first address))
        first.utf8ByteSize
      sliceFrom first
        (first.utf8ByteSize - backOff (first :: rest) length)

/-- Writes the addresses, with the ending they share written once. -/
def putAddresses (addresses : List String) : Option (List UInt8) := do
  let suffix ← commonSuffix addresses
  let heads ← addresses.mapM fun address =>
    sliceTo address (address.utf8ByteSize - suffix.utf8ByteSize)
  return Enc.str suffix ++ Enc.seq heads Enc.str

/-- One address, re-joined to the shared ending. -/
def getAddress (suffix : String) : Reader JoinWireError String := do
  let head ← Dec.str
  let length := head.utf8ByteSize + suffix.utf8ByteSize
  Reader.check (length ≤ maxAddressBytes)
    (.tooLarge "bootstrap address" length maxAddressBytes)
  return head ++ suffix

def getAddresses : Reader JoinWireError (List String) := do
  let suffix ← Dec.str
  let addresses ← Dec.seq (getAddress suffix)
  Reader.check (addresses.length ≤ maxBootstrapAddresses)
    (.tooLarge "bootstrap addresses" addresses.length maxBootstrapAddresses)
  return addresses

/-! ## Invites -/

def getIdentity (validKey : Bytes 32 → Bool) :
    Reader JoinWireError PerNetworkIdentityId := do
  let b ← Dec.fixed 32
  Reader.check (validKey b = true) .invalidKey
  return ⟨⟨b⟩⟩

def putSubject : InviteSubject → List UInt8
  | .bearer => Enc.variant 0
  | .identity named => Enc.variant 1 ++ named.encode

def getSubject (validKey : Bytes 32 → Bool) :
    Reader JoinWireError InviteSubject := do
  match ← Dec.variant with
  | 0 => return .bearer
  | 1 => do
      let named ← getIdentity validKey
      return .identity named
  | got => throw (.unknownVariant "InviteSubject" got)

def putInvite (i : Invite) : Option (List UInt8) := do
  let addresses ← putAddresses i.bootstrapAddresses
  return i.network.encode ++ addresses ++ i.issuer.encode ++
    putSubject i.subject ++ Enc.i64 i.issuedAt.millis ++
    Enc.i64 i.expiresAt.millis ++ Enc.u32 i.maxUses ++
    Enc.fixed i.signature.bytes

def getInvite (validKey : Bytes 32 → Bool) : Reader JoinWireError Invite := do
  let network ← Dec.fixed 32
  let bootstrapAddresses ← getAddresses
  let issuer ← getIdentity validKey
  let subject ← getSubject validKey
  let issuedAt ← Dec.i64
  let expiresAt ← Dec.i64
  let maxUses ← Dec.u32
  let signature ← Dec.fixed 64
  return ⟨⟨network⟩, bootstrapAddresses, issuer, subject, ⟨issuedAt⟩,
    ⟨expiresAt⟩, maxUses, ⟨signature⟩⟩

def inviteDomain : String := "intranet.wire.invite.v2"

/-- Encodes an invite so it can be handed to somebody. -/
def encodeInvite (i : Invite) : Option (List UInt8) := do
  let bytes ← putInvite i
  return Enc.domain inviteDomain ++ bytes

/-- Decodes an invite handed over out of band. -/
def decodeInvite (validKey : Bytes 32 → Bool) (bytes : List UInt8) :
    Except JoinWireError Invite :=
  Dec.decode (do
    Dec.domain inviteDomain
    let invite ← getInvite validKey
    Dec.finish
    return invite) bytes

end InviteWire

open InviteWire

/-! ## Join requests -/

namespace JoinRequest

/-- What the joiner signs. -/
def payload (joiner : PerNetworkIdentityId) (inviteId : Hash) : List UInt8 :=
  Enc.domain "intranet.join-request.v1" ++ joiner.encode ++
    Enc.fixed inviteId.bytes

/-- Builds and signs a request. -/
def create {C : Crypto} {validKey : Bytes 32 → Bool}
    (joiner : PerNetworkIdentity C validKey) (invite : Invite) : JoinRequest :=
  ⟨joiner.id, invite, joiner.sign (payload joiner.id (invite.inviteId C))⟩

/-- Verifies that the named joiner really made this request. -/
def verify (C : Crypto) (r : JoinRequest) : Except JoinWireError Unit :=
  if C.verify r.joiner.key (payload r.joiner (r.invite.inviteId C))
      r.signature then .ok ()
  else .error .badSignature

def wireDomain : String := "intranet.wire.join-request.v1"

def encode (r : JoinRequest) : Option (List UInt8) := do
  let invite ← putInvite r.invite
  return Enc.domain wireDomain ++ (r.joiner.encode ++ invite ++
    Enc.fixed r.signature.bytes)

def get (validKey : Bytes 32 → Bool) : Reader JoinWireError JoinRequest := do
  let joiner ← getIdentity validKey
  let invite ← getInvite validKey
  let signature ← Dec.fixed 64
  return ⟨joiner, invite, ⟨signature⟩⟩

/-- Decodes a request and verifies the joiner's signature. -/
def decode (C : Crypto) (validKey : Bytes 32 → Bool) (bytes : List UInt8) :
    Except JoinWireError JoinRequest :=
  Dec.decode (do
    Dec.domain wireDomain
    let request ← get validKey
    Dec.finish
    Reader.ofExcept (request.verify C)
    return request) bytes

end JoinRequest

end Intranet
